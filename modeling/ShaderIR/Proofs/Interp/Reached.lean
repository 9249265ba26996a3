import ShaderIR.Proofs.Interp.Layout
import ShaderIR.Proofs.Outcomes

/-!
The machines that a run can come to. `Program.Reached` follows every part of the interpreter, in any
order, so that it covers a run at each of its moments. If the types of a program have lanes
(`Program.Measured`) and the inputs have those of their types then in a reached machine every
variable holds as many lanes as its type has, and what is evaluated and resolved fits its type. If
in addition the lanes of variables can be counted, all places lie within their variables
(`Program.layout_of_reached`).

A variable with more lanes than that may have none in memory, and a store to it is lost
(`Program.not_laidOut_wrappedArray`).
-/

set_option autoImplicit false

namespace ShaderIR

/-! ### Walks that keep an invariant -/

namespace Walk

variable {ε σ α β : Type} {invariant : σ → Prop}

/-- Whatever the walk ends with, the invariant still holds then. -/
def Keeps (invariant : σ → Prop) (walk : Walk ε σ α) : Prop :=
  ∀ start, invariant start → Ensures walk start (fun _ => invariant) fun _ => invariant

theorem keeps_pure (value : α) : Keeps invariant (pure value : Walk ε σ α) :=
  fun _ hstart => hstart

theorem keeps_throw (failure : ε) : Keeps invariant (throw failure : Walk ε σ α) :=
  fun _ hstart => hstart

theorem keeps_throwCrash (cause : Crash) : Keeps invariant (throwThe Crash cause : Walk ε σ α) :=
  fun _ _ => trivial

theorem keeps_get : Keeps invariant (get : Walk ε σ σ) :=
  fun _ hstart => hstart

theorem keeps_modify {change : σ → σ}
    (hchange : ∀ state, invariant state → invariant (change state)) :
    Keeps invariant (modify change : Walk ε σ PUnit) :=
  hchange

theorem Keeps.bind {walk : Walk ε σ β} {next : β → Walk ε σ α} (hwalk : Keeps invariant walk)
    (hnext : ∀ middle, Keeps invariant (next middle)) : Keeps invariant (walk >>= next) :=
      fun start hstart =>
  ensures_bind.mpr ((hwalk start hstart).mono (fun middle between => hnext middle between)
    fun _ _ => id)

theorem keeps_liftCrash_bind {request : Except Crash β} {next : β → Walk ε σ α}
    (hnext : ∀ answer, request = .ok answer → Keeps invariant (next answer)) :
    Keeps invariant (liftM request >>= next) := fun start hstart =>
  ensures_bind.mpr (ensures_liftCrash.mpr fun answer hanswer => hnext answer hanswer start hstart)

theorem keeps_mapM {step : α → Walk ε σ β}
    (hstep : ∀ item, Keeps invariant (step item)) (items : List α) :
    Keeps invariant (items.mapM step) := by
  induction items with
  | nil => exact keeps_pure []
  | cons first rest ih =>
    rw [List.mapM_cons]
    exact (hstep first).bind fun answer => ih.bind fun later => keeps_pure _

theorem keeps_forM {step : α → Walk ε σ PUnit}
    (hstep : ∀ item, Keeps invariant (step item)) (items : List α) :
    Keeps invariant (items.forM step) := by
  induction items with
  | nil => exact keeps_pure _
  | cons first rest ih => exact (hstep first).bind fun _ => ih

theorem Keeps.of_runFrom {walk : Walk ε σ α} (hkeeps : Keeps invariant walk) {start stop : σ}
    {outcome : Except ε α} (hstart : invariant start)
    (hrun : walk.runFrom start = .ok (outcome, stop)) :
    invariant stop := by
  cases outcome with
  | ok answer => exact (hkeeps start hstart).of_answers hrun
  | error failure => exact (hkeeps start hstart).of_fails hrun

end Walk

namespace Program

variable {program : Program} {evaluate : NodeId → Execution Lanes} {steps : Nat} {id : NodeId}

/-! ### What evaluation keeps -/

section

variable {good : Array Lanes → Prop}

theorem keeps_placeVia
    (hevaluate : ∀ id, Walk.Keeps (fun machine : Machine => good machine.slots) (evaluate id)) :
    Walk.Keeps (fun machine : Machine => good machine.slots)
      (program.placeVia evaluate steps id) := by
  induction steps generalizing id with
  | zero => exact Walk.keeps_throwCrash _
  | succ steps ih =>
    rw [placeVia]
    refine Walk.keeps_liftCrash_bind fun node _ => ?_
    cases node with
    | «variable» => exact Walk.keeps_liftCrash_bind fun _ _ => Walk.keeps_pure _
    | index =>
      refine ih.bind fun place => (hevaluate _).bind fun lanes => ?_
      dsimp only
      split
      · exact Walk.keeps_throw _
      · exact Walk.keeps_pure _
    | field =>
      refine ih.bind fun place => ?_
      split
      · split
        · exact Walk.keeps_throw _
        · exact Walk.keeps_pure _
      · exact Walk.keeps_throw _
    | _ => exact Walk.keeps_throw _

/-- Evaluation changes no variable. -/
theorem keeps_evaluateWithin :
    Walk.Keeps (fun machine : Machine => good machine.slots) (program.evaluateWithin steps id) := by
  induction steps generalizing id with
  | zero => exact Walk.keeps_throwCrash _
  | succ steps ih =>
    rw [evaluateWithin]
    refine Walk.keeps_liftCrash_bind fun node _ => ?_
    cases node with
    | constant => exact Walk.keeps_pure _
    | «variable» =>
      exact Walk.keeps_get.bind fun machine => fun start hstart =>
        Walk.ensures_liftCrash.mpr fun _ _ => hstart
    | index | field =>
      refine (keeps_placeVia fun _ => ih).bind fun place => Walk.keeps_get.bind fun machine => ?_
      split
      · exact Walk.keeps_pure _
      · exact Walk.keeps_throw _
    | swizzle => exact ih.bind fun _ => Walk.keeps_pure _
    | apply =>
      refine (Walk.keeps_mapM (fun _ => ih) _).bind fun values => ?_
      split
      · exact (Walk.keeps_throw _).bind fun _ => Walk.keeps_pure _
      · exact Walk.keeps_pure _
    | texture =>
      refine (Walk.keeps_mapM (fun _ => ih) _).bind fun _ => Walk.Keeps.bind ?_ fun _ =>
        Walk.keeps_pure _
      exact Walk.keeps_modify fun _ hgood => hgood
    | _ => exact Walk.keeps_throw _

theorem keeps_evaluate :
    Walk.Keeps (fun machine : Machine => good machine.slots) (program.evaluate id) :=
  keeps_evaluateWithin

theorem keeps_place : Walk.Keeps (fun machine : Machine => good machine.slots) (program.place id) :=
  keeps_placeVia fun _ => keeps_evaluate

end

/-! ### What statements keep -/

theorem keeps_store {target : NodeId} {value : Lanes} {mask : UInt8} :
    Walk.Keeps (fun machine : Machine => program.Sized machine.slots)
      (program.store target value mask) := by
  rw [store]
  exact keeps_place.bind fun place => Walk.keeps_liftCrash_bind fun _ _ =>
    Walk.keeps_modify fun machine hsized => hsized.setIfInBounds place.root (Lanes.length_write ..)

theorem keeps_executeCall {callee : SignatureId} {arguments : List NodeId}
    {result : Option NodeId} : Walk.Keeps (fun machine : Machine => program.Sized machine.slots)
      (program.executeCall callee arguments result) := by
  rw [executeCall]
  refine Walk.keeps_liftCrash_bind fun signature _ =>
    (Walk.keeps_mapM (fun _ => keeps_evaluate) _).bind fun inputs =>
    Walk.keeps_get.bind fun machine => Walk.Keeps.bind (Walk.keeps_modify fun _ hsized => hsized)
      fun _ => ?_
  refine (Walk.keeps_forM (fun passed => ?_) _).bind fun _ => ?_
  · obtain ⟨⟨param, argument⟩, number⟩ := passed
    dsimp only
    split
    · exact keeps_store
    · exact Walk.keeps_pure _
  · cases result with
    | none => exact Walk.keeps_pure _
    | some target => exact keeps_store

theorem keeps_execute :
    Walk.Keeps (fun machine : Machine => program.Sized machine.slots) (program.execute id) := by
  rw [execute]
  refine Walk.keeps_liftCrash_bind fun node _ => ?_
  cases node with
  | assign => exact keeps_evaluate.bind fun _ => keeps_store.bind fun _ => Walk.keeps_pure _
  | call => exact keeps_executeCall.bind fun _ => Walk.keeps_pure _
  | branch => exact keeps_evaluate.bind fun _ => Walk.keeps_pure _
  | ret =>
    exact (Walk.keeps_forM (fun _ => keeps_evaluate.bind fun _ => Walk.keeps_pure _) _).bind
      fun _ =>
      Walk.keeps_pure _
  | discard condition =>
    have hfired (fires : Bool) :
        Walk.Keeps (fun machine : Machine => program.Sized machine.slots) (do
          if fires then
            modify fun machine => { machine with trace.discarded := true }
            return Flow.stop
          return Flow.through [] : Execution Flow) := by
        cases fires with
        | false => exact Walk.keeps_pure _
        | true =>
          exact Walk.Keeps.bind (Walk.keeps_modify fun _ hsized => hsized) fun _ =>
            Walk.keeps_pure _
    cases condition with
    | none => exact (Walk.keeps_pure true).bind hfired
    | some condition => exact keeps_evaluate.bind fun _ => (Walk.keeps_pure _).bind hfired
  | _ => exact Walk.keeps_throw _

/-! ### Reached machines -/

/-- What a run can bring a machine to: the interpreter evaluates operands, resolves places, stores
values, counts calls and executes statements, whichever they are. A part that fails leaves its
machine too. -/
inductive Reached (program : Program) (inputs : List (VarId × Lanes)) : Machine → Prop
  | start : Reached program inputs (program.initial inputs)
  | evaluated {steps : Nat} {id : NodeId} {machine machine' : Machine}
    {outcome : Except RunError Lanes} (hreached : Reached program inputs machine)
    (hrun : (program.evaluateWithin steps id).runFrom machine = .ok (outcome, machine')) :
    Reached program inputs machine'
  | resolved {steps room : Nat} {id : NodeId} {machine machine' : Machine}
    {outcome : Except RunError Place} (hreached : Reached program inputs machine)
    (hrun : (program.placeVia (program.evaluateWithin steps) room id).runFrom machine =
      .ok (outcome, machine')) : Reached program inputs machine'
  | stored {target : NodeId} {value : Lanes} {mask : UInt8} {machine machine' : Machine}
    {outcome : Except RunError Unit} (hreached : Reached program inputs machine)
    (hrun : (program.store target value mask).runFrom machine = .ok (outcome, machine')) :
    Reached program inputs machine'
  | counted {machine : Machine} (hreached : Reached program inputs machine)
      (signature : Signature) : Reached program inputs (machine.called signature)
  | executed {id : NodeId} {machine machine' : Machine} {outcome : Except RunError Flow}
    (hreached : Reached program inputs machine)
    (hrun : (program.execute id).runFrom machine = .ok (outcome, machine')) :
    Reached program inputs machine'

variable {inputs : List (VarId × Lanes)} {machine machine' : Machine}

/-- A run from a reached machine ends in one. -/
theorem Reached.executeFor {count : Nat} {row : List NodeId} {outcome : Except RunError Unit}
    (hreached : program.Reached inputs machine)
    (hrun : (program.executeFor count row).runFrom machine = .ok (outcome, machine')) :
    program.Reached inputs machine' := by
  have hkeeps : Walk.Keeps (program.Reached inputs) (program.executeFor count row) := by
    clear hrun hreached
    induction count generalizing row with
    | zero =>
      cases row with
      | nil => exact Walk.keeps_pure _
      | cons => exact Walk.keeps_throwCrash _
    | succ count ih =>
      cases row with
      | nil => exact Walk.keeps_pure _
      | cons statement rest =>
        have hexecute : Walk.Keeps (program.Reached inputs) (program.execute statement) :=
          fun start hstart =>
          Walk.ensures_iff.mpr ⟨fun _ _ hrun => hstart.executed hrun,
            fun _ _ hrun => hstart.executed hrun⟩
        rw [Program.executeFor]
        refine hexecute.bind fun flow => ?_
        cases flow with
        | through body => exact ih
        | stop => exact Walk.keeps_pure _
  exact hkeeps.of_runFrom hreached hrun

/-- In a reached machine every variable holds as many lanes as its type has. -/
theorem Reached.sized (hreached : program.Reached inputs machine) (hinputs : ∀ id lanes ty,
      (id, lanes) ∈ inputs → program.varTy? id = some ty → lanes.length = ty.flatLen) :
    program.Sized machine.slots := by
  induction hreached with
  | start => exact sized_initialSlots hinputs
  | evaluated _ hrun ih => exact keeps_evaluateWithin.of_runFrom ih hrun
  | resolved _ hrun ih => exact (keeps_placeVia fun _ => keeps_evaluateWithin).of_runFrom ih hrun
  | stored _ hrun ih => exact keeps_store.of_runFrom ih hrun
  | counted _ _ ih => exact ih
  | executed _ hrun ih => exact keeps_execute.of_runFrom ih hrun

/-! ### Values and places that fit -/

/-- The types of a program have lanes: constants have as many literals as their types have lanes,
operators have results with lanes, and so do the parts of variables. -/
structure Measured (program : Program) : Prop where
  literals : ∀ id value, program.node id = .ok (.constant value) →
    value.lanes.length = value.ty.flatLen
  results : ∀ id op operands ty, program.node id = .ok (.apply op operands ty) → 1 ≤ ty.flatLen
  populated : ∀ read ty, program.varTy? read = some ty → ty.Populated

/-- A value has as many lanes as the type of its node. -/
theorem Measured.length_eq (hmeasured : program.Measured)
    (hsized : program.Sized machine.slots) {lanes : Lanes}
    {ty : Ty} (hlanes : Walk.Answers (program.evaluateWithin steps id) machine lanes machine')
    (hty : program.typeOf id = .ok ty) : lanes.length = ty.flatLen := by
  cases steps with
  | zero => exact absurd hlanes Walk.answers_throwCrash
  | succ steps =>
    have htyped := hty
    rw [typeOf, chainBound, typeWithin] at hty
    obtain ⟨node, hnode, hty⟩ := bind_eq_ok_iff.mp hty
    rw [evaluateWithin, Walk.answers_liftCrash_bind hnode] at hlanes
    cases node with
    | constant value =>
      obtain ⟨rfl, -⟩ := Walk.answers_pure.mp hlanes
      obtain rfl := Except.ok.inj hty
      rw [List.length_map, hmeasured.literals id value hnode]
    | «variable» read =>
      obtain ⟨declared, hdeclared, hty⟩ := bind_eq_ok_iff.mp hty
      obtain rfl := Except.ok.inj hty
      simp only [Walk.answers_bind, Walk.answers_get, Walk.answers_liftCrash] at hlanes
      obtain ⟨_, _, ⟨rfl, rfl⟩, hfetch, -⟩ := hlanes
      obtain ⟨slot, hslot, hlength⟩ := hsized read declared.ty (by
        rw [varTy?, variableOf_eq_ok_iff.mp hdeclared, Option.map_some])
      obtain rfl := Option.some.inj (hslot.symm.trans (fetch_eq_ok_iff.mp hfetch))
      exact hlength
    | swizzle value mask =>
      obtain ⟨operand, -, hty⟩ := bind_eq_ok_iff.mp hty
      obtain ⟨_, _, -, hlanes⟩ := Walk.answers_bind.mp hlanes
      obtain ⟨rfl, -⟩ := Walk.answers_pure.mp hlanes
      split at hty
      · rw [Ty.vectorOf] at hty
        split at hty
        · obtain rfl := Except.ok.inj hty
          have hle := mask.length_le
          simp only [List.length_map, Swizzle.length, Ty.flatLen, UInt8.toNat_ofNat']
          omega
        · cases hty
      · cases hty
    | apply op operands result =>
      obtain rfl := Except.ok.inj hty
      obtain ⟨values, _, -, hlanes⟩ := Walk.answers_bind.mp hlanes
      split at hlanes
      · obtain ⟨_, _, hthrown, -⟩ := Walk.answers_bind.mp hlanes
        exact absurd hthrown Walk.answers_throw
      · obtain ⟨rfl, -⟩ := Walk.answers_pure.mp hlanes
        rw [Lanes.length_resize, Nat.max_eq_left (hmeasured.results id op operands result hnode)]
    | texture op channel operands result =>
      obtain rfl := Except.ok.inj hty
      obtain ⟨values, _, -, hlanes⟩ := Walk.answers_bind.mp hlanes
      obtain ⟨_, _, -, hlanes⟩ := Walk.answers_bind.mp hlanes
      obtain ⟨rfl, -⟩ := Walk.answers_pure.mp hlanes
      exact Seed.length_lanes _ _
    | index | field =>
      obtain ⟨place, between, hplace, hlanes⟩ := Walk.answers_bind.mp hlanes
      obtain rfl := Except.ok.inj ((typeWithin_of_answers_placeVia hplace).symm.trans htyped)
      obtain ⟨_, _, -, hlanes⟩ := Walk.answers_bind.mp hlanes
      split at hlanes
      · next hread =>
        obtain ⟨rfl, -⟩ := Walk.answers_pure.mp hlanes
        exact length_of_readPlace? hread
      · exact absurd hlanes Walk.answers_throw
    | _ => exact absurd hlanes Walk.answers_throw

/-- Resolves an lvalue; an index in it has operands that nest at most so deep. -/
def resolveWithin (program : Program) (steps : Nat) (id : NodeId) : Execution Place :=
  program.placeVia (program.evaluateWithin steps) program.chainBound id

theorem place_eq_resolveWithin (program : Program) (id : NodeId) :
    program.place id = program.resolveWithin program.chainBound id :=
  rfl

/-- The variables of a machine hold what their types say, and whatever is evaluated or resolved next
fits: values have the lanes of their nodes, and places the roots and types of theirs. -/
structure Fitting (program : Program) (machine : Machine) : Prop where
  sized : program.Sized machine.slots
  value : ∀ steps id lanes ty after,
    Walk.Answers (program.evaluateWithin steps id) machine lanes after →
    program.typeOf id = .ok ty → lanes.length = ty.flatLen
  root : ∀ steps id place after, Walk.Answers (program.resolveWithin steps id) machine place after →
    program.rootVariable id = .ok (some place.root)
  ty : ∀ steps id place after, Walk.Answers (program.resolveWithin steps id) machine place after →
    program.typeOf id = .ok place.ty

/-- The variables of a machine have the lanes of every place that is resolved next. Those of an
lvalue can be read, and what is stored arrives in all lanes that it covers. -/
structure LaidOut (program : Program) (machine : Machine) : Prop where
  within : ∀ steps id place after,
    Walk.Answers (program.resolveWithin steps id) machine place after →
    ∃ slot, after.slots[place.root.index]? = some slot ∧ place.stop ≤ slot.length
  read : ∀ steps id place after, Walk.Answers (program.resolveWithin steps id) machine place after →
    ∃ lanes, readPlace? after.slots place = some lanes
  store : ∀ target value mask after,
    Walk.Answers (program.store target value mask) machine () after →
    ∃ place between, Walk.Answers (program.place target) machine place between ∧
      ∀ lane < place.ty.flatLen, Lanes.covers mask lane = true →
        (after.slots.getD place.root.index [])[place.offset + lane]? =
          some (value.source place.ty.flatLen lane (Lanes.coveredBefore mask lane))

/-- What a reached machine holds. -/
theorem Measured.fitting (hmeasured : program.Measured) (hsized : program.Sized machine.slots) :
    program.Fitting machine where
  sized := hsized
  value _ _ _ _ _ hlanes hty := hmeasured.length_eq hsized hlanes hty
  root _ _ _ _ hplace := rootWithin_of_answers_placeVia hplace
  ty _ _ _ _ hplace := typeWithin_of_answers_placeVia hplace

section Fits

variable (hmeasured : program.Measured) (hsizes : program.SizesFit)
  (hsized : program.Sized machine.slots)

include hmeasured hsizes

theorem Measured.countable {place : Place}
    (hplace : Walk.Answers (program.resolveWithin steps id) machine place machine') :
    place.Countable ∧ place.ty.Populated :=
  ⟨(stop_le_of_answers_placeVia hmeasured.populated hsizes hplace).1,
    populated_of_answers_placeVia hmeasured.populated hplace⟩

include hsized

theorem Measured.within {place : Place}
    (hplace : Walk.Answers (program.resolveWithin steps id) machine place machine') :
    ∃ slot, machine'.slots[place.root.index]? = some slot ∧ place.stop ≤ slot.length := by
  have hsized' : program.Sized machine'.slots :=
    (keeps_placeVia fun _ => keeps_evaluateWithin).of_runFrom hsized hplace
  obtain ⟨-, ty, hty, hwithin⟩ := stop_le_of_answers_placeVia hmeasured.populated hsizes hplace
  obtain ⟨slot, hslot, hlength⟩ := hsized' place.root ty hty
  exact ⟨slot, hslot, hlength ▸ hwithin⟩

theorem Measured.exists_read {place : Place}
    (hplace : Walk.Answers (program.resolveWithin steps id) machine place machine') :
    ∃ lanes, readPlace? machine'.slots place = some lanes := by
  obtain ⟨slot, hslot, hwithin⟩ := hmeasured.within hsizes hsized hplace
  refine ⟨_, readPlace?_eq_some_iff.mpr ⟨(hmeasured.countable hsizes hplace).1.stop, ?_, rfl⟩⟩
  rwa [Array.getD_eq_getD_getElem?, hslot, Option.getD_some]

/-- What is stored arrives. -/
theorem Measured.getElem?_store {target : NodeId} {value : Lanes} {mask : UInt8}
    (hstore : Walk.Answers (program.store target value mask) machine () machine') :
    ∃ place between, Walk.Answers (program.place target) machine place between ∧
      ∀ lane < place.ty.flatLen, Lanes.covers mask lane = true →
        (machine'.slots.getD place.root.index [])[place.offset + lane]? =
          some (value.source place.ty.flatLen lane (Lanes.coveredBefore mask lane)) := by
  rw [store] at hstore
  obtain ⟨place, between, hplace, hstore⟩ := Walk.answers_bind.mp hstore
  obtain ⟨_, _, hwritten, hstore⟩ := Walk.answers_bind.mp hstore
  obtain ⟨-, rfl⟩ := Walk.answers_liftCrash.mp hwritten
  obtain rfl := Walk.answers_modify.mp hstore
  refine ⟨place, between, hplace, fun lane hlane hcovers => ?_⟩
  have hresolved :
      Walk.Answers (program.resolveWithin program.chainBound target) machine place between := hplace
  obtain ⟨slot, hslot, hwithin⟩ := hmeasured.within hsizes hsized hresolved
  have hstop := (hmeasured.countable hsizes hresolved).1.stop
  obtain ⟨hindex, -⟩ := Array.getElem?_eq_some_iff.mp hslot
  unfold Place.stop at hwithin hstop
  have hposition : Lanes.position place.offset lane = place.offset + lane :=
    Lanes.position_of_lt (by omega)
  simp only [Array.getD_eq_getD_getElem?, Array.getElem?_setIfInBounds_self_of_lt hindex, hslot,
    Option.getD_some]
  rw [← hposition]
  exact Lanes.getElem?_write slot value place.ty.flatLen_lt.le hlane hcovers (by omega)

/-- The layout of a reached machine. -/
theorem Measured.laidOut : program.LaidOut machine where
  within _ _ _ _ hplace := hmeasured.within hsizes hsized hplace
  read _ _ _ _ hplace := hmeasured.exists_read hsizes hsized hplace
  store _ _ _ _ hstore := hmeasured.getElem?_store hsizes hsized hstore

end Fits

/-! ### Parts of one place -/

/-- A field of some number is resolved within a place. -/
def ResolvesField (program : Program) (whole : Place) (number : Nat) (part : Place) : Prop :=
  ∃ steps id record machine between after, program.node id = .ok (.field record number) ∧
    Walk.Answers (program.resolveWithin steps record) machine whole between ∧
    Walk.Answers (program.resolveWithin steps id) machine part after

/-- An element at some index is resolved within a place. -/
def ResolvesElement (program : Program) (whole : Place) (index : Nat) (part : Place) : Prop :=
  ∃ steps id base position machine between indexed after lanes,
    program.node id = .ok (.index base position) ∧
    Walk.Answers (program.resolveWithin steps base) machine whole between ∧
    Walk.Answers (program.evaluateWithin steps position) between lanes indexed ∧
    clampIndex (lanes.lane 0) whole.ty.count = index ∧
    Walk.Answers (program.resolveWithin steps id) machine part after

section Parts

variable (hmeasured : program.Measured) (hsizes : program.SizesFit) {whole part part' : Place}

include hmeasured hsizes

/-- Different fields of one place lie apart. -/
theorem Measured.apart_of_fields {number number' : Nat}
    (hpart : program.ResolvesField whole number part)
    (hpart' : program.ResolvesField whole number' part') (hne : number ≠ number') :
    part.root = part'.root ∧ part.Apart part' := by
  have hfield {number : Nat} {part : Place} (hresolves : program.ResolvesField whole number part) :
      whole.Countable ∧ whole.field? number = some part := by
    obtain ⟨steps, id, record, machine, between, after, hnode, hwhole, hpart⟩ := hresolves
    obtain ⟨found, hfound, hfield⟩ := (answers_placeVia_of_field hnode).mp hpart
    obtain ⟨rfl, -⟩ := (answers_placeVia_succ hfound).unique hwhole
    exact ⟨(hmeasured.countable hsizes hwhole).1, hfield⟩
  obtain ⟨hcountable, hfound⟩ := hfield hpart
  obtain ⟨-, hfound'⟩ := hfield hpart'
  exact ⟨(Place.root_of_field? hfound).trans (Place.root_of_field? hfound').symm,
    Place.apart_of_fields hcountable hfound hfound' hne⟩

/-- Elements at different indices of one place lie apart. -/
theorem Measured.apart_of_elements {index index' : Nat}
    (hpart : program.ResolvesElement whole index part)
    (hpart' : program.ResolvesElement whole index' part') (hne : index ≠ index') :
    part.root = part'.root ∧ part.Apart part' := by
  have helement {index : Nat} {part : Place}
      (hresolves : program.ResolvesElement whole index part) :
      whole.Countable ∧ 0 < whole.ty.count ∧
        ∃ lane, clampIndex lane whole.ty.count = index ∧ whole.element? lane = some part := by
    obtain ⟨steps, id, base, position, machine, between, indexed, after, lanes, hnode, hwhole,
      hlanes, hindex, hpart⟩ := hresolves
    obtain ⟨found, _, foundLanes, hfound, hfoundLanes, helement⟩ :=
      (answers_placeVia_of_index hnode).mp hpart
    obtain ⟨rfl, rfl⟩ := (answers_placeVia_succ hfound).unique hwhole
    obtain ⟨rfl, -⟩ := hfoundLanes.unique hlanes
    obtain ⟨hcountable, hpopulated⟩ := hmeasured.countable hsizes hwhole
    obtain ⟨selected, hselected, -⟩ := Option.map_eq_some_iff.mp helement
    exact ⟨hcountable, hpopulated.count_pos (Ty.element?_of_elementAt? hselected), _, hindex,
      helement⟩
  obtain ⟨hcountable, hcount, lane, rfl, hfound⟩ := helement hpart
  obtain ⟨-, -, lane', rfl, hfound'⟩ := helement hpart'
  exact ⟨(Place.root_of_element? hfound).trans (Place.root_of_element? hfound').symm,
    Place.apart_of_elements hcountable hcount hfound hfound' hne⟩

end Parts

/-- If the types of a program have lanes and the inputs those of their types then every machine that
a run comes to holds what the types say. If the lanes of variables can be counted, it is also laid
out as the types say, different fields of a place lie apart, and so do elements at different
indices. -/
theorem layout_of_reached (hmeasured : program.Measured)
    (hinputs : ∀ id lanes ty, (id, lanes) ∈ inputs → program.varTy? id = some ty →
      lanes.length = ty.flatLen) :
    (∀ outcome stop, (program.executeFor program.statementBound program.body).runFrom
      (program.initial inputs) = .ok (outcome, stop) → program.Reached inputs stop) ∧
    (∀ machine, program.Reached inputs machine → program.Fitting machine) ∧
    (program.SizesFit →
      (∀ machine, program.Reached inputs machine → program.LaidOut machine) ∧
      (∀ whole number number' part part', program.ResolvesField whole number part →
        program.ResolvesField whole number' part' → number ≠ number' →
          part.root = part'.root ∧ part.Apart part') ∧
      ∀ whole index index' part part', program.ResolvesElement whole index part →
        program.ResolvesElement whole index' part' → index ≠ index' →
          part.root = part'.root ∧ part.Apart part') :=
  ⟨fun _ _ hrun => Reached.start.executeFor hrun,
    fun _ hreached => hmeasured.fitting (hreached.sized hinputs),
    fun hsizes => ⟨fun _ hreached => hmeasured.laidOut hsizes (hreached.sized hinputs),
      fun _ _ _ _ _ => hmeasured.apart_of_fields hsizes,
      fun _ _ _ _ _ => hmeasured.apart_of_elements hsizes⟩⟩

/-- A program that stores one lane of an element, which an input selects, of an array in a
record. -/
def nestedStore : Program where
  nodes := #[.variable ⟨0⟩, .field ⟨0⟩ 1, .variable ⟨1⟩, .index ⟨1⟩ ⟨2⟩, .constant ⟨.int, [.int 1]⟩,
    .index ⟨3⟩ ⟨4⟩, .constant ⟨.float, [.float 0]⟩, .assign ⟨5⟩ ⟨6⟩ 0]
  vars := #[⟨"v", .record "R" [("a", .float), ("b", .array (.vector .float 2) 3)], .auto⟩,
    ⟨"i", .int, .input⟩]
  body := [⟨7⟩]

theorem measured_nestedStore : nestedStore.Measured where
  literals id value hnode := by
    have hmem := Array.mem_of_getElem? (node_eq_ok_iff.mp hnode)
    simp only [nestedStore, List.mem_toArray, List.mem_cons, List.not_mem_nil, or_false,
      reduceCtorEq, false_or, Node.constant.injEq] at hmem
    rcases hmem with rfl | rfl <;> rfl
  results id op operands ty hnode := by
    have hmem := Array.mem_of_getElem? (node_eq_ok_iff.mp hnode)
    simp [nestedStore] at hmem
  populated read ty hty := by
    obtain ⟨declared, hdeclared, rfl⟩ := Option.map_eq_some_iff.mp hty
    have hmem := Array.mem_of_getElem? hdeclared
    simp only [nestedStore, List.mem_toArray, List.mem_cons, List.not_mem_nil, or_false] at hmem
    rcases hmem with rfl | rfl
    · refine .record fun field hfield => ?_
      simp only [List.mem_cons, List.not_mem_nil, or_false] at hfield
      rcases hfield with rfl | rfl
      · exact .vector (by decide)
      · exact .array (.vector (by decide)) (by decide)
    · exact .vector (by decide)

/-- The index that selects the element is no number. -/
theorem exists_place_nestedStore : ∃ place after,
    Walk.Answers (nestedStore.place ⟨5⟩) (nestedStore.initial [(⟨1⟩, [.invalid])]) place after :=
  ⟨_, _, rfl⟩

theorem layout_of_reached_nestedStore : nestedStore.Measured ∧ nestedStore.SizesFit ∧
    (∀ machine, nestedStore.Reached [(⟨1⟩, [.invalid])] machine →
      nestedStore.Fitting machine ∧ nestedStore.LaidOut machine) ∧
    ∃ place after,
      Walk.Answers (nestedStore.place ⟨5⟩) (nestedStore.initial [(⟨1⟩, [.invalid])]) place after ∧
      nestedStore.rootVariable ⟨5⟩ = .ok (some place.root) ∧
      ∃ slot, after.slots[place.root.index]? = some slot ∧ place.stop ≤ slot.length := by
  have hinputs : ∀ id lanes ty, (id, lanes) ∈ [((⟨1⟩ : VarId), ([.invalid] : Lanes))] →
      nestedStore.varTy? id = some ty → lanes.length = ty.flatLen := by
    intro id lanes ty hmem hty
    obtain ⟨rfl, rfl⟩ := Prod.mk.inj (List.mem_singleton.mp hmem)
    obtain rfl : Ty.int = ty := Option.some.inj hty
    rfl
  have hsizes : nestedStore.SizesFit := by decide
  obtain ⟨-, hfitting, hlayout⟩ := layout_of_reached measured_nestedStore hinputs
  obtain ⟨hlaidOut, -⟩ := hlayout hsizes
  obtain ⟨place, after, hplace⟩ := exists_place_nestedStore
  refine ⟨measured_nestedStore, hsizes,
    fun machine hreached => ⟨hfitting _ hreached, hlaidOut _ hreached⟩, place, after, hplace, ?_⟩
  rw [place_eq_resolveWithin] at hplace
  exact ⟨(hfitting _ .start).root _ _ _ _ hplace, (hlaidOut _ .start).within _ _ _ _ hplace⟩

/-- A program that stores a lane of an array with `2 ^ 64` lanes, and reads it. The size wraps
around, so that the array has no lanes in memory. -/
def wrappedArray : Program where
  nodes := #[.variable ⟨0⟩, .constant ⟨.float, [.int 1]⟩, .index ⟨0⟩ ⟨1⟩,
    .constant ⟨.float, [.int 0]⟩, .index ⟨2⟩ ⟨3⟩, .constant ⟨.float, [.int 0]⟩, .index ⟨4⟩ ⟨5⟩,
    .constant ⟨.float, [.float 0x3f800000]⟩, .assign ⟨6⟩ ⟨7⟩ 0]
  vars := #[⟨"a", .array (.array (.array .float 0x80000000) 0x80000000) 4, .auto⟩,
    ⟨"y", .float, .auto⟩]
  body := [⟨8⟩]

theorem measured_wrappedArray : wrappedArray.Measured where
  literals id value hnode := by
    have hmem := Array.mem_of_getElem? (node_eq_ok_iff.mp hnode)
    simp only [wrappedArray, List.mem_toArray, List.mem_cons, List.not_mem_nil, or_false,
      reduceCtorEq, false_or, Node.constant.injEq] at hmem
    rcases hmem with rfl | rfl | rfl | rfl <;> rfl
  results id op operands ty hnode := by
    have hmem := Array.mem_of_getElem? (node_eq_ok_iff.mp hnode)
    simp [wrappedArray] at hmem
  populated read ty hty := by
    obtain ⟨declared, hdeclared, rfl⟩ := Option.map_eq_some_iff.mp hty
    have hmem := Array.mem_of_getElem? hdeclared
    simp only [wrappedArray, List.mem_toArray, List.mem_cons, List.not_mem_nil, or_false] at hmem
    rcases hmem with rfl | rfl
    · exact .array (.array (.array (.vector (by decide)) (by decide)) (by decide)) (by decide)
    · exact .vector (by decide)

/-- With more lanes than can be counted, a place may lie outside of its variable, and what is stored
there is lost. -/
theorem not_laidOut_wrappedArray :
    wrappedArray.Measured ∧ ∃ machine, wrappedArray.Reached [] machine ∧
    ¬ wrappedArray.LaidOut machine ∧ ∃ place after,
      Walk.Answers (wrappedArray.place ⟨6⟩) machine place machine ∧
      Walk.Answers (wrappedArray.execute ⟨8⟩) machine (.through []) after ∧
      after.slots[place.root.index]? = some [] ∧ readPlace? after.slots place = none := by
  have hplace : ∃ place, Walk.Answers (wrappedArray.place ⟨6⟩) (wrappedArray.initial []) place
      (wrappedArray.initial []) ∧ place.root = ⟨0⟩ ∧ place.ty = .float := ⟨_, rfl, rfl, rfl⟩
  have hstore : ∃ after, Walk.Answers (wrappedArray.execute ⟨8⟩) (wrappedArray.initial [])
      (.through []) after ∧ after.slots[0]? = some [] := ⟨_, rfl, rfl⟩
  have hempty : (wrappedArray.initial []).slots[0]? = some [] := rfl
  obtain ⟨place, hplace, hroot, hty⟩ := hplace
  obtain ⟨after, hstore, hslot⟩ := hstore
  have hstop : 1 ≤ place.stop := by
    rw [Place.stop, hty]
    exact Nat.le_add_left 1 place.offset
  refine ⟨measured_wrappedArray, _, .start, fun hlaidOut => ?_, place, after, hplace,
    hstore, ?_, ?_⟩
  · obtain ⟨slot, hfound, hwithin⟩ := hlaidOut.within wrappedArray.chainBound ⟨6⟩ place _ hplace
    rw [hroot, hempty] at hfound
    obtain rfl := Option.some.inj hfound
    exact absurd (hstop.trans hwithin) (by decide)
  · rwa [hroot]
  · refine Option.eq_none_iff_forall_ne_some.mpr fun lanes hread => ?_
    obtain ⟨-, hwithin, -⟩ := readPlace?_eq_some_iff.mp hread
    rw [hroot, Array.getD_eq_getD_getElem?, hslot] at hwithin
    exact absurd (hstop.trans hwithin) (by decide)

end Program

end ShaderIR
