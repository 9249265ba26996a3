import ShaderIR.Proofs.Numbering.Soundness
import ShaderIR.Proofs.Pass.Conditions
import ShaderIR.Proofs.Pass.Settling

/-!
Runs of what sharing makes of a statement. While a block is numbered and executed, the model of its
numbers tells what the temporaries in memory hold (`Model.expected`), and so everything that is
shared may be put into temporaries (`Program.NumbersBlock.liftable`). What stands for an edited
statement then does what the old one does, without repeating a texture operation or a call
(`SharingPlan.Edited.performs`).
-/

set_option autoImplicit false

namespace ShaderIR

/-! ### What temporaries hold -/

/-- The types of numbers and the lanes that these have in what the numbers stand for. -/
def Model.expected (model : Model) : Expected := fun number =>
  match model.typing number, model.meaning number with
  | some (some ty), some view => some (ty, view.lanes (some ty))
  | _, _ => none

section Model

variable {program program' : Program} {model model' : Model} {number : ValueNumber} {ty : Ty}
  {lanes : Lanes} {memory : Temporaries} {next : Nat} {slots : Array Lanes}

theorem Model.expected_eq_some_iff : model.expected number = some (ty, lanes) ↔
    model.typing number = some (some ty) ∧
      ∃ view, model.meaning number = some view ∧ view.lanes (some ty) = lanes := by
  unfold expected
  split
  · next hty hview =>
    simp only [hty, hview, Option.some.injEq, Prod.mk.injEq]
    exact ⟨fun ⟨hsame, hlanes⟩ => ⟨hsame, _, rfl, hsame ▸ hlanes⟩,
      fun ⟨hsame, _, hview, hlanes⟩ => ⟨hsame, by subst hsame hview; exact hlanes⟩⟩
  · next hnone =>
    exact ⟨nofun, fun ⟨hty, view, hview, _⟩ => (hnone ty view hty hview).elim⟩

theorem Program.Holds.of_extends {bound : Nat}
    (hholds : program.Holds bound model.expected memory next slots)
    (hextends : model'.Extends model) :
    program.Holds bound model'.expected memory next slots := by
  intro number temporary hlookup
  obtain ⟨hbound, hnext, lanes, declared, hexpected, hheld⟩ := hholds number temporary hlookup
  obtain ⟨hty, view, hview, hlanes⟩ := Model.expected_eq_some_iff.mp hexpected
  exact ⟨hbound, hnext, lanes, declared, Model.expected_eq_some_iff.mpr
    ⟨hextends.typing _ _ hty, view, hextends.meaning _ _ hview, hlanes⟩, hheld⟩

/-- A call is expected to return what its arguments determine. -/
theorem Model.Returns.expected {callee : SignatureId}
    {signature : Signature} {arguments : List Tree}
    {inputs : List Lanes} (hreturns : model.Returns program slots callee signature arguments number)
    (hinputs : (arguments.map (Tree.reading program.vars slots)).mapM Reading.lanes = some inputs) :
    model.expected number = some (signature.returnTy,
      (Seed.returned callee inputs none).lanes signature.returnTy.flatLen) :=
  Model.expected_eq_some_iff.mpr ⟨hreturns.typing, _, hreturns.meaning inputs hinputs,
    View.lanes_ofLanes (Seed.length_lanes _ _)⟩

end Model

/-! ### What is shared -/

theorem Tree.kind_of_place {vars : Array Variable} {slots : Array Lanes} {tree : Tree}
    {place : Place} (hplace : (tree.reading vars slots).place = some place) :
    tree.node.kind = .variable ∨ tree.node.kind = .deref := by
  obtain ⟨id, node, children⟩ := tree
  rw [reading_mk] at hplace
  unfold Node.reading at hplace
  split at hplace
  · cases hplace
  · exact Or.inl rfl
  · exact Or.inr rfl
  · exact Or.inr rfl
  all_goals cases hplace

namespace Program

variable {program program' : Program} {code : Code} {config : Config} {statements : List Tree}
  {final : Numberer} {model : Model} {statement tree : Tree} {machine machine₁ : Machine}
  {outcome : Outcome} {number : ValueNumber}

/-- What can be taken out of the operands of a statement is what it is until the statement is
done. -/
theorem Outlines.mem_steady_of_loose (houtlines : program.Outlines code) (hfree : program.IndexFree)
    (hstatement : statement ∈ code.statements) {item : Role × Tree}
    (hitem : item ∈ program.parts .value statement) (hloose : tree ∈ item.1.loose item.2) :
    tree.id ∈ (program.steady statement).flatMap Tree.ids := by
  have hsound := houtlines.sound statement hstatement
  have hchild : item.2 ∈ statement.children :=
    map_snd_parts hsound .value ▸ List.mem_map_of_mem hitem
  have hmem : tree.id ∈ item.2.ids := List.mem_map_of_mem (Role.loose_subset_subtrees hloose)
  cases hsound with
  | call id callee arguments result signature hsignature hlength =>
    rw [steady_call hsignature]
    split
    · exact List.mem_flatMap.mpr ⟨item.2, hchild, hmem⟩
    · next hpure =>
      by_cases hrole : item.1 = .place
      · have hnone :=
          houtlines.loose_eq_nil hfree hstatement hsignature (Bool.eq_false_iff.mpr hpure)
          (List.mem_map_of_mem (List.mem_filter.mpr ⟨hitem, decide_eq_true hrole⟩))
        rw [hrole, hnone] at hloose
        cases hloose
      · rw [parts_call hsignature hlength, List.mem_append, Signature.roles,
          List.zip_map_left] at hitem
        rcases hitem with hitem | hitem
        · obtain ⟨⟨param, argument⟩, hpassed, rfl⟩ := List.mem_map.mp hitem
          have hmode : param.mode = .input := by
            by_contra hmode
            exact hrole (if_neg hmode)
          exact List.mem_flatMap.mpr ⟨argument, List.mem_map.mpr
            ⟨(param, argument), List.mem_filter.mpr ⟨hpassed, decide_eq_true hmode⟩, rfl⟩, hmem⟩
        · obtain ⟨place, -, rfl⟩ := List.mem_map.mp hitem
          exact absurd rfl hrole
  | _ => exact List.mem_flatMap.mpr ⟨item.2, hchild, hmem⟩

variable (houtlines : program.Outlines code) (hconsistent : program.TypeConsistent)

include houtlines hconsistent

/-- A computation that has a number which stands for it may be put into a temporary. -/
theorem Outlines.movable (hsized : program.Sized machine.slots) (hsizes : program.SizesFit)
    (hcontains : code.Contains tree) (hoperand : tree.node.isStatement = false)
    (hkind : tree.node.kind ≠ .variable)
    (hexplains : model.Explains program code machine.slots tree.id [number])
    (hdefined : (tree.reading program.vars machine.slots).Defined) :
    tree.Movable program True model.expected machine.slots (some number) := by
  obtain ⟨other, view, partials, hcontains', hid, ⟨_, _, hsplit, hty', -⟩, hstands, hgives⟩ :=
    hexplains
  obtain rfl := houtlines.eq_of_id hcontains' hcontains hid
  obtain ⟨rfl, -⟩ := List.cons.inj hsplit
  obtain ⟨ty, hty, -⟩ := houtlines.exists_ty hconsistent hcontains hoperand
  obtain ⟨lanes, hlanes⟩ :
    ∃ lanes, (other.reading program.vars machine.slots).lanes = some lanes := by
    rcases hdefined with hlanes | hplace
    · exact Option.isSome_iff_exists.mp hlanes
    · obtain ⟨place, hplace⟩ := Option.isSome_iff_exists.mp hplace
      exact houtlines.lanes_of_place hconsistent hsized hsizes hcontains hplace
  have hsame := houtlines.eq_lanes_of_gives hconsistent hsized hcontains hgives hlanes
  refine ⟨⟨ty, lanes, hty, hlanes,
      houtlines.length_of_lanes hconsistent hsized hcontains hlanes hty, ?_⟩, fun place hplace =>
      ⟨trivial, (Tree.kind_of_place hplace).resolve_left hkind, Tree.ty?_of_place hplace⟩⟩
  rintro _ ⟨⟩
  exact Model.expected_eq_some_iff.mpr ⟨hty ▸ hty', view, hstands.of_single, (hty ▸ hsame).symm⟩

/-- Everything that is shared of a statement of a numbered block may be put into temporaries. -/
theorem NumbersBlock.liftable (hblock : program.NumbersBlock config statements final)
    (hfree : program.IndexFree) (hstatement : statement ∈ code.statements)
    (hsized : program.Sized machine.slots) (hsizes : program.SizesFit)
    (hexplains : ∀ id ∈ (program.steady statement).flatMap Tree.ids, ∀ number,
      (SharingPlan.ofNumbering final.numbering config).targets.lookup id = some number →
        model.Explains program code machine.slots id [number])
    (hperforms : program.Performs statement machine outcome machine₁) :
    ∀ item ∈ program.parts .value statement, item.1.Liftable program
      (SharingPlan.ofNumbering final.numbering config).verdict True model.expected machine.slots
        item.2 := by
  intro item hitem
  have hdraws := houtlines.draws.statement statement hstatement
  have hsound := houtlines.sound statement hstatement
  have hchild : item.2 ∈ statement.children :=
    map_snd_parts hsound .value ▸ List.mem_map_of_mem hitem
  have hcontains (below : Tree) (hbelow : below ∈ item.2.subtrees) : code.Contains below :=
    ⟨statement, hstatement, Tree.mem_subtrees_of_mem_children hchild hbelow⟩
  have hoperand := houtlines.operands statement hstatement item.2 hchild
  refine ⟨hdraws.linked.child hchild,
    fun below hbelow read hread => (hoperand below hbelow).variable_lt read hread,
    fun below hloose shared htaken => ?_, fun _ below hbelow slots place hplace => ?_⟩
  · have hbelow := Role.loose_subset_subtrees hloose
    have htakes := Option.ne_none_iff_exists'.mpr ⟨shared, htaken⟩
    obtain ⟨number, hnumber, rfl⟩ := Option.map_eq_some_iff.mp htaken
    obtain ⟨-, key, hhead, -⟩ := hblock.notes (houtlines.draws_of_contains (hcontains below hbelow))
      (hblock.lookup_targets_iff.mp hnumber).1
    refine houtlines.movable hconsistent
      hsized hsizes (hcontains below hbelow) (hoperand below hbelow).operand (fun hkind => ?_)
        (hexplains below.id (houtlines.mem_steady_of_loose hfree hstatement hitem hloose) number
        hnumber) (hperforms.ready hsound (fun _ => hdraws.linked.child)
        (houtlines.undisturbed hfree _ statement hstatement) item hitem below hloose htakes)
    cases hnode : below.node <;> simp_all [Node.kind, Node.head?]
  · exact ⟨houtlines.filled_of_place hconsistent (hcontains below hbelow) hplace,
      houtlines.fits_of_place hconsistent hsizes (hcontains below hbelow) hplace⟩

end Program

/-! ### Calls -/

/-- A run of the new program is where a run of the old one is and has counted no more, and its
temporaries hold what their numbers stand for. -/
structure Program.Tracks (program program' : Program) (expected : Expected) (memory : Temporaries)
    (next : Nat) (machine machine' : Machine) : Prop where
  shadows : Machine.Shadows program.vars.size False machine machine'
  mirrors : program'.Mirrors program.vars.size machine.slots machine'.slots
  holds : program'.Holds program.vars.size expected memory next machine'.slots

/-- Statements are executed one after the other, and the last of them sends control somewhere. -/
def Program.PerformsRow (program : Program) (trees : List Tree) (machine : Machine)
    (outcome : Outcome) (machine' : Machine) : Prop :=
  ∃ before last between, trees = before ++ [last] ∧ program.PerformsAll before machine between ∧
    program.Performs last between outcome machine'

namespace Program

open SharingPlan

/-- What a statement leaves alone of what was there before it still tracks the run of the old
program. -/
theorem Tracks.of_keeps {program program' : Program}
    {expected : Expected} {memory : Temporaries} {next : Nat} {machine between machine' : Machine}
    (hfollows : Machine.Follows program.vars.size machine machine')
    (hkeeps : Machine.KeepsFrom program.vars.size between machine')
    (hsized : ∀ (index : Nat) declared,
      program.vars.size ≤ index → program'.vars[index]? = some declared →
      ∃ lanes, between.slots[index]? = some lanes ∧ lanes.length = declared.ty.flatLen)
    (hholds : program'.Holds program.vars.size expected memory next between.slots)
    (hsamples : machine'.trace.textureSamples ≤ machine.trace.textureSamples)
    (hcalls : machine'.trace.calls ≤ machine.trace.calls) :
    program.Tracks program' expected memory next machine machine' := by
  refine ⟨⟨hfollows, hsamples, hcalls, False.elim⟩,
    ⟨hfollows.same, fun index declared hindex hfound => ?_⟩, fun number temporary hlookup => ?_⟩
  · rw [hkeeps index hindex]
    exact hsized index declared hindex hfound
  · obtain ⟨hindex, hlt, lanes, declared, hexpected, hfound, hheld⟩ :=
      hholds number temporary hlookup
    exact ⟨hindex, hlt, lanes, declared, hexpected, hfound, (hkeeps _ hindex).trans hheld⟩

/-- A call that leaves its arguments alone reads them and stores what it returns, and control goes
on. -/
theorem Performs.stores_returned
    {program : Program} {id : NodeId} {callee : SignatureId} {arguments : List Tree}
    {target : Tree} {signature : Signature} {machine machine' : Machine} {outcome : Outcome}
    (hperforms : program.Performs (callTree id callee arguments target) machine outcome machine')
    (hsignature : program.signature callee = .ok signature) (hpure : signature.isPure = true)
    (hlength : signature.params.length = arguments.length) :
    outcome = .onward ∧ ∃ inputs, program.lanesOf? machine arguments = some inputs ∧
      program.Stores target ((Seed.returned callee inputs none).lanes signature.returnTy.flatLen) 0
        ((machine.sampled (arguments.map Tree.samples).sum).called signature) machine' := by
  obtain ⟨houtcome, hcalls⟩ := performs_call.mp (show program.Performs ⟨id,
      .call callee (arguments.map Tree.id) ((some target).map Tree.id),
    arguments ++ (some target).toList⟩ machine outcome machine' from hperforms)
  obtain ⟨inputs, hinputs, hstores⟩ := (calls_iff_of_isPure hsignature hpure hlength).mp hcalls
  cases hstores with
  | cons hstore hnone =>
    cases hnone
    exact ⟨houtcome, inputs, hinputs, hstore⟩

/-- A call that leaves its arguments alone stores what it returns in a temporary. -/
theorem performs_callTree {program : Program} {callee : SignatureId} {arguments : List Tree}
    {name : String} {signature : Signature} {machine : Machine} {inputs : List Lanes} {old : Lanes}
    (id place : NodeId) (temporary : VarId)
    (hsignature : program.signature callee = .ok signature) (hpure : signature.isPure = true)
    (hlength : signature.params.length = arguments.length)
    (hinputs : program.lanesOf? machine arguments = some inputs)
    (hdeclared : program.vars[temporary.index]? = some ⟨name, signature.returnTy, .temporary⟩)
    (hold : machine.slots[temporary.index]? = some old)
    (hsized : old.length = signature.returnTy.flatLen) :
    program.Performs (callTree id callee arguments (readTree place temporary)) machine .onward
      { (machine.sampled (arguments.map Tree.samples).sum).called signature with
        slots := machine.slots.setIfInBounds temporary.index
          ((Seed.returned callee inputs none).lanes signature.returnTy.flatLen) } := by
  have hstored : program.Stores (readTree place temporary)
      ((Seed.returned callee inputs none).lanes signature.returnTy.flatLen) 0
      ((machine.sampled (arguments.map Tree.samples).sum).called signature) _ :=
    Lifted.stores_temporary place _ hdeclared rfl (Seed.length_lanes _ _) hold hsized
  have hcalls : program.Calls callee arguments (some (readTree place temporary)) machine _ :=
    (calls_iff_of_isPure hsignature hpure hlength).mpr ⟨inputs, hinputs, .cons hstored (.nil _)⟩
  exact performs_call.mpr ⟨rfl, hcalls⟩

variable
  {program program' : Program} {verdict : Verdict} {model : Model} {memory memory₁ : Temporaries}
  {next next₁ : Nat} {id place copy leaf : NodeId} {callee : SignatureId} {signature : Signature}
  {arguments arguments' : List Tree} {target target' : Tree} {rows : List Row}
  {number : ValueNumber} {machine machine₁ start : Machine} {outcome : Outcome}

variable (hvars : ∀ (index : Nat) declared, program.vars[index]? = some declared →
  program'.vars[index]? = some declared)

include hvars

/-- A temporary that holds the value of a store is copied to the edited place. -/
theorem Stores.copied
    {value : Lanes} (hstores : program.Stores target value 0 machine machine₁)
    (hagrees : Tree.AgreesAs program program' True machine.slots start.slots
      (.place, target) target') (hfollows : Machine.Follows program.vars.size machine start)
    (temporary : VarId) (hheld : start.slots[temporary.index]? = some value) (copy leaf : NodeId) :
    ∃ machine₁', program'.Performs (copyTree copy leaf temporary target') start .onward machine₁' ∧
      Machine.Follows program.vars.size machine₁ machine₁' ∧
      Machine.KeepsFrom program.vars.size start machine₁' ∧
      machine₁'.trace.textureSamples = start.trace.textureSamples + target'.samples ∧
      machine₁'.trace.calls = start.trace.calls := by
  have hread : (readTree leaf temporary).samples = 0 := Tree.samples_mk ..
  obtain ⟨machine₁', hstores', hfollows₁, hkeeps⟩ := hstores.follows hvars hagrees hfollows
  have hcounts := (StoresAll.cons hstores' (.nil _)).counts
  refine ⟨machine₁', ⟨rfl, value, ?_, ?_⟩, hfollows₁, hkeeps, by simpa using hcounts.1, hcounts.2⟩
  · rw [Tree.reading_mk]
    exact hheld
  · rw [hread]
    exact hstores'

/-- The first call of its number stores its result in a temporary, from which it is copied. -/
theorem Performs.first
    (hperforms : program.Performs (callTree id callee arguments target) machine outcome machine₁)
    (hsound : program.Sound (callTree id callee arguments target))
    (hsignatures : program'.signatures = program.signatures)
    (hsignature : program.signature callee = .ok signature) (hpure : signature.isPure = true)
    (hreturns : model.Returns program machine.slots callee signature arguments number)
    (hbound : program.vars.size ≤ next)
    (hlifted : Lifted verdict memory next (arguments.map (Role.value, ·) ++ [(Role.place, target)])
      (arguments' ++ [target']) rows memory₁ next₁) (hdeclares : Lifted.Declares program' rows)
    (hliftable : ∀ item ∈ arguments.map (Role.value, ·) ++ [(Role.place, target)],
      item.1.Liftable program verdict True model.expected machine.slots item.2) {name : String}
    (hdeclared : program'.vars[next₁]? = some ⟨name, signature.returnTy, .temporary⟩)
    (htracks : program.Tracks program' model.expected memory next machine start) :
    ∃ machine₁', program'.PerformsRow (rows.map Row.statement ++ [callTree id callee arguments'
          (readTree place ⟨next₁⟩), copyTree copy leaf ⟨next₁⟩ target']) start outcome machine₁' ∧
      program.Tracks program' model.expected ((number, ⟨next₁⟩) :: memory₁)
        (next₁ + 1) machine₁ machine₁' := by
  obtain ⟨hlength, -⟩ := of_callTree hsound hsignature
  have hcount : arguments'.length = arguments.length := by simpa using hlifted.length_eq
  have hnext := hlifted.next_eq
  obtain ⟨after, hreproduces⟩ :=
    hlifted.runs hvars hsignatures hbound hdeclares hliftable start htracks.mirrors htracks.holds
  obtain ⟨rfl, inputs, hinputs, hstore⟩ := hperforms.stores_returned hsignature hpure hlength
  have hexpected := hreturns.expected hinputs
  -- the rows have been executed, and then the call of the edited arguments stores its result
  obtain ⟨harguments, htarget⟩ := forall₂_of_append hreproduces.agrees (by simp [hcount])
  rw [List.forall₂_map_left_iff] at harguments
  have hinputs' : program'.lanesOf? { start.sampled (rows.map fun row => row.value.samples).sum with
      slots := after } arguments' = some inputs :=
    lanesOf?_of_forall₂ (harguments.imp fun operand operand' hstands lanes hlanes =>
      (hstands _ _ hreproduces.mirrors.same (fun _ _ _ => rfl)
        fun _ _ _ => rfl).lanes lanes hlanes) hinputs
  obtain ⟨old, hold, hsized⟩ := hreproduces.mirrors.sized next₁ _ (by omega) hdeclared
  have hcall := performs_callTree id place ⟨next₁⟩
    ((Program.signature_congr hsignatures callee).trans hsignature) hpure
    (hlength.trans hcount.symm) hinputs' hdeclared hold hsized
  have hwidth := Seed.length_lanes (.returned callee inputs none) signature.returnTy.flatLen
  generalize (Seed.returned callee inputs none).lanes signature.returnTy.flatLen = value
    at hcall hstore hexpected hwidth
  have hmirrors := hreproduces.mirrors.store ⟨next₁⟩ hdeclared hold (by dsimp only; omega) hwidth
  have hholds := hreproduces.holds.store ⟨next₁⟩ hdeclared hold (some number) rfl (by omega)
    (by simpa using hexpected)
  -- the old call has stored its result through the place, to which the temporary is copied
  have hself : (after.setIfInBounds next₁ value)[next₁]? = some value :=
    Array.getElem?_setIfInBounds_self_of_lt (Array.getElem?_eq_some_iff.mp hold).1
  have hne : ∀ index < next₁, program.vars.size ≤ index →
      (after.setIfInBounds next₁ value)[index]? = after[index]? := fun index hlt _ =>
    Array.getElem?_setIfInBounds_ne (Nat.ne_of_gt hlt)
  have hsame := (htracks.shadows.toFollows.sampled (arguments.map Tree.samples).sum
    ((rows.map fun row => row.value.samples).sum + (arguments'.map Tree.samples).sum)).called
    signature
  have hfollowed : Machine.Follows program.vars.size
      ((machine.sampled (arguments.map Tree.samples).sum).called signature)
      { (Machine.sampled { start.sampled (rows.map fun row => row.value.samples).sum with
          slots := after } (arguments'.map Tree.samples).sum).called signature with
        slots := after.setIfInBounds next₁ value } :=
    ⟨hmirrors.same, hsame.sequence, hsame.writes, hsame.discarded⟩
  obtain ⟨machine₁', hcopied, hfollows, hkeeps, hsamples, hcounted⟩ := hstore.copied hvars
    ((List.forall₂_cons.mp htarget).1 _ _ hfollowed.same hne fun _ _ _ => rfl) hfollowed
    ⟨next₁⟩ hself copy leaf
  have hcounts := (StoresAll.cons hstore (.nil _)).counts
  have hle : (rows.map fun row => row.value.samples).sum +
      ((arguments'.map Tree.samples).sum + target'.samples) ≤
      (arguments.map Tree.samples).sum + target.samples := by
    obtain ⟨-, hle, -⟩ := hlifted.samples_le fun item hitem => (hliftable item hitem).linked
    rw [List.map_append, List.map_append, List.sum_append, List.sum_append, List.map_map] at hle
    exact hle
  refine ⟨machine₁', ⟨rows.map Row.statement ++
      [callTree id callee arguments' (readTree place ⟨next₁⟩)], _, _, by simp,
    hreproduces.performs.append (.cons hcall (.nil _)), hcopied⟩,
    .of_keeps hfollows hkeeps hmirrors.sized hholds ?_ ?_⟩
  · have hbefore := htracks.shadows.samples
    simp [Machine.sampled, Machine.called] at hsamples hcounts
    omega
  · have hbefore := htracks.shadows.calls
    simp [Machine.sampled, Machine.called] at hcounted hcounts
    omega

/-- A later call of its number is replaced by a copy of the temporary that holds the result of the
first one. -/
theorem Performs.again {temporary : VarId}
    (hperforms : program.Performs (callTree id callee arguments target) machine outcome machine₁)
    (hsound : program.Sound (callTree id callee arguments target))
    (hsignatures : program'.signatures = program.signatures)
    (hsignature : program.signature callee = .ok signature) (hpure : signature.isPure = true)
    (hreturns : model.Returns program machine.slots callee signature arguments number)
    (hbound : program.vars.size ≤ next) (hheld : memory.lookup number = some temporary)
    (hlifted : Lifted verdict memory next [(Role.place, target)] [target'] rows memory₁ next₁)
    (hdeclares : Lifted.Declares program' rows)
    (hliftable : Role.place.Liftable program verdict True model.expected machine.slots target)
    (htracks : program.Tracks program' model.expected memory next machine start) :
    ∃ machine₁', program'.PerformsRow
      (rows.map Row.statement ++ [copyTree copy leaf temporary target']) start outcome machine₁' ∧
      program.Tracks program' model.expected memory₁ next₁ machine₁ machine₁' := by
  obtain ⟨hlength, -⟩ := of_callTree hsound hsignature
  have hnext := hlifted.next_eq
  obtain ⟨after, hreproduces⟩ := hlifted.runs hvars hsignatures hbound
    hdeclares (by simpa using hliftable) start htracks.mirrors htracks.holds
  obtain ⟨rfl, inputs, hinputs, hstore⟩ := hperforms.stores_returned hsignature hpure hlength
  -- the temporary holds what the call returns
  obtain ⟨hindex, hlt, value, declared, hexpected, -, hslot⟩ := htracks.holds number temporary hheld
  have hsame := hexpected.symm.trans (hreturns.expected hinputs)
  obtain rfl := (Prod.mk.inj (Option.some.inj hsame)).2
  have hafter : after[temporary.index]? = some _ := (hreproduces.same _ hlt).trans hslot
  have hfollows : Machine.Follows program.vars.size
      ((machine.sampled (arguments.map Tree.samples).sum).called signature)
      { start.sampled (rows.map fun row => row.value.samples).sum with slots := after } := by
    refine ⟨hreproduces.mirrors.same, ?_, htracks.shadows.writes, htracks.shadows.discarded⟩
    simp only [Machine.called, hpure, if_true]
    exact htracks.shadows.sequence
  obtain ⟨machine₁', hcopied, hfollows₁, hkeeps, hsamples, hcounted⟩ := hstore.copied hvars
    ((List.forall₂_cons.mp hreproduces.agrees).1 _ _ hreproduces.mirrors.same (fun _ _ _ => rfl)
      fun _ _ _ => rfl) hfollows temporary hafter copy leaf
  have hcounts := (StoresAll.cons hstore (.nil _)).counts
  have hle : (rows.map fun row => row.value.samples).sum + target'.samples ≤ target.samples := by
    obtain ⟨-, hle, -⟩ := hlifted.samples_le (by simpa using hliftable.linked)
    exact hle
  refine ⟨machine₁', ⟨rows.map Row.statement, _, _, rfl, hreproduces.performs, hcopied⟩,
    .of_keeps hfollows₁ hkeeps hreproduces.mirrors.sized hreproduces.holds ?_ ?_⟩
  · have hbefore := htracks.shadows.samples
    simp [Machine.sampled, Machine.called] at hsamples hcounts
    omega
  · have hbefore := htracks.shadows.calls
    simp [Machine.sampled, Machine.called] at hcounted hcounts
    omega

end Program

/-! ### Edited statements -/

namespace SharingPlan

variable {program program' : Program} {code : Code} {config : Config}
  {statements : List Tree} {final : Numberer} {model : Model}
  {memory memory' : Temporaries} {next next' : Nat} {statement : Tree} {rows : List Row}
  {trees : List Tree} {machine machine₁ start : Machine} {outcome : Outcome}

/-- What stands for an edited statement of a numbered block does what the old statement does, and
leaves temporaries that hold what their numbers stand for. -/
theorem Edited.performs (hedited : (SharingPlan.ofNumbering final.numbering config).Edited
      program program' memory next statement rows trees memory' next')
    (houtlines : program.Outlines code) (hconsistent : program.TypeConsistent)
    (hfree : program.IndexFree) (hblock : program.NumbersBlock config statements final)
    (hstatement : statement ∈ code.statements)
    (hpurely : (SharingPlan.ofNumbering final.numbering config).SharesPurely program statement)
    (hvars : ∀ (index : Nat) declared, program.vars[index]? = some declared →
      program'.vars[index]? = some declared)
      (hsignatures : program'.signatures = program.signatures) (hbound : program.vars.size ≤ next)
    (hsized : program.Sized machine.slots) (hsizes : program.SizesFit)
    (hexplains : ∀ id ∈ (program.steady statement).flatMap Tree.ids, ∀ number,
      (SharingPlan.ofNumbering final.numbering config).targets.lookup id = some number →
        model.Explains program code machine.slots id [number])
    (hreturns : ∀ callee arguments target signature,
      statement = callTree statement.id callee arguments target →
      program.signature callee = .ok signature → signature.isPure = true → ∀ number,
        (SharingPlan.ofNumbering final.numbering config).targets.lookup statement.id = some number →
          model.Returns program machine.slots callee signature arguments number)
    (hperforms : program.Performs statement machine outcome machine₁)
    (htracks : program.Tracks program' model.expected memory next machine start) :
    ∃ machine₁', program'.PerformsRow (rows.map Row.statement ++ trees) start outcome machine₁' ∧
      program.Tracks program' model.expected memory' next' machine₁ machine₁' := by
  have hsound := houtlines.sound statement hstatement
  have hdraws := houtlines.draws.statement statement hstatement
  have hliftable := hblock.liftable houtlines hconsistent hfree hstatement hsized hsizes hexplains
    hperforms
  cases hedited with
  | operands hnumber hlifted hdeclares =>
    obtain ⟨between, machine₁', hrows, hperforms', hshadows, hmirrors, hholds, -⟩ :=
      hperforms.edited hsound hdraws.linked hlifted hvars hsignatures hbound hdeclares
        (houtlines.undisturbed hfree _ statement hstatement) hliftable False.elim htracks.shadows
          htracks.mirrors htracks.holds
    exact ⟨machine₁', ⟨_, _, between, rfl, hrows, hperforms'⟩, hshadows, hmirrors, hholds⟩
  | dropped hnumber =>
    obtain ⟨hoccurrence, -⟩ := hblock.lookup_targets_iff.mp hnumber
    obtain ⟨_, _, _, hresult⟩ := hblock.exists_call_of_occurrence hdraws hoccurrence rfl
    cases hresult
  | first hnumber hfresh hsignature hlifted hdeclares hdeclared =>
    obtain ⟨found, hfound, hpure⟩ := hpurely _ _ _ rfl (hnumber ▸ rfl)
    obtain rfl := Except.ok.inj (hsignature.symm.trans hfound)
    rw [parts_callTree hsound hsignature hpure] at hliftable
    exact hperforms.first hvars hsound hsignatures hsignature hpure
      (hreturns _ _ _ _ rfl hsignature hpure _ hnumber) hbound hlifted hdeclares hliftable
        hdeclared htracks
  | again hnumber hheld hlifted hdeclares =>
    obtain ⟨signature, hsignature, hpure⟩ := hpurely _ _ _ rfl (hnumber ▸ rfl)
    rw [parts_callTree hsound hsignature hpure] at hliftable
    exact hperforms.again hvars hsound hsignatures hsignature hpure
      (hreturns _ _ _ _ rfl hsignature hpure _ hnumber) hbound hheld hlifted hdeclares
      (hliftable _ (List.mem_append_right _ (List.mem_singleton_self _))) htracks

end SharingPlan

end ShaderIR
