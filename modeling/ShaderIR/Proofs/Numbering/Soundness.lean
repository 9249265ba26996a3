import ShaderIR.Proofs.Numbering.Layers
import ShaderIR.Proofs.Numbering.Models

/-!
Equal values stand for equal lanes. A store through a place extends the history of its variable by
what the store leaves in it (`Numberer.Models.store`), so that a statement that is numbered and
performed leaves a state of the numberer that fits what the variables hold then
(`NumbersStatement.foresees`). Two nodes of a block that have the same value in the end had the same
lanes when the block was executed (`Graph.lanes_eq_of_numberStatements`).

A mask has eight bits. A vector of more lanes can be written in part and is still taken for what was
written to it (`Graph.lanes_ne_nineLanes`).
-/

set_option autoImplicit false

namespace ShaderIR

/-! ### What statements do to variables -/

/-- A call that leaves its arguments alone reads all of them, and stores what it returns. -/
theorem Program.calls_iff_of_isPure {program : Program} {callee : SignatureId}
    {arguments : List Tree} {result : Option Tree} {machine machine' : Machine}
    {signature : Signature} (hsignature : program.signature callee = .ok signature)
    (hpure : signature.isPure = true) (hlength : signature.params.length = arguments.length) :
    program.Calls callee arguments result machine machine' ↔
      ∃ inputs, program.lanesOf? machine arguments = some inputs ∧
        program.StoresAll (result.toList.map fun place =>
          (place, (Seed.returned callee inputs none).lanes signature.returnTy.flatLen))
          ((machine.sampled (arguments.map Tree.samples).sum).called signature) machine' := by
  have hinputs := Signature.inputs_of_isPure hpure hlength
  constructor
  · rintro ⟨found, inputs, hfound, hlanes, hstores⟩
    obtain rfl := Except.ok.inj (hsignature.symm.trans hfound)
    rw [hinputs] at hlanes hstores
    rw [Signature.stores_of_isPure hpure] at hstores
    exact ⟨inputs, hlanes, hstores⟩
  · rintro ⟨inputs, hlanes, hstores⟩
    refine ⟨signature, inputs, hsignature, by rwa [hinputs], ?_⟩
    rwa [hinputs, Signature.stores_of_isPure hpure]

/-- Statements are executed one after the other, and control goes on after each of them. -/
inductive Program.ExecutesInOrder (program : Program) : List NodeId → Machine → Machine → Prop
  | nil (machine : Machine) : ExecutesInOrder program [] machine machine
  | cons {id : NodeId} {rest : List NodeId}
    {machine between machine' : Machine} {body : List NodeId}
    (hfirst : Walk.Answers (program.execute id) machine (.through body) between)
    (hrest : ExecutesInOrder program rest between machine') :
    ExecutesInOrder program (id :: rest) machine machine'

/-! ### Stores -/

/-- A store through a place extends the history of its variable by what the variable holds then. -/
theorem Numberer.Models.store {program : Program}
    {code : Code} {model : Model} {numberer : Numberer}
    {machine machine' : Machine} (hmodels : numberer.Models program code model machine.slots)
    (hsized : program.Sized machine.slots) {target : Tree} {root : VarId} {mask : UInt8}
    {value : Lanes} (hstores : program.Stores target value mask machine machine')
    (hroot : target.root? = some root) (part : Bool) {stored : Value} (hstored : part = false →
      stored.Has model.typing numberer.numbering.partials (program.varTy? root) ∧
        stored.Shows model.meaning (machine'.slots.getD root.index [])) :
    program.Sized machine'.slots ∧ ∃ model' : Model, model'.Extends model ∧
      (numberer.write part root stored).Models program code model' machine'.slots := by
  obtain ⟨place, hplace, -, hother, hsized'⟩ := hstores.getD_slots hsized
  obtain rfl := Option.some.inj ((Tree.root?_eq_of_place hplace).symm.trans hroot)
  refine ⟨hsized', ?_⟩
  cases part with
  | true =>
    exact hmodels.writePart stored hother
  | false =>
    obtain ⟨hhas, hshows⟩ := hstored rfl
    exact ⟨model, .refl _, hmodels.writeWhole hhas hshows hother⟩

/-- A call has the type that it returns. -/
theorem Tree.ty?_call {program : Program} {id : NodeId} {callee : SignatureId}
    {arguments : List Tree} {result : Option Tree} {signature : Signature}
    (hsignature : program.signature callee = .ok signature) :
    Tree.ty? program ⟨id, .call callee (arguments.map Tree.id) (result.map Tree.id),
      arguments ++ result.toList⟩ = some signature.returnTy := by
  rw [Tree.ty?_mk, Node.ty?, fetch_eq_ok_iff.mp hsignature, Option.map_some]

/-- The operands of a statement that are what they are until it is done: all of them, but of a call
that writes arguments only the others. -/
def Program.steady (program : Program) (statement : Tree) : List Tree :=
  match statement.node with
  | .call callee arguments _ =>
    match program.signature callee with
    | .ok signature =>
      if signature.isPure then statement.children
      else ((signature.params.zip (statement.children.take arguments.length)).filter
        fun passed => passed.1.mode = .input).map Prod.snd
    | .error _ => []
  | _ => statement.children

theorem Program.steady_call {program : Program} {id : NodeId} {callee : SignatureId}
    {arguments : List Tree} {result : Option Tree} {signature : Signature}
    (hsignature : program.signature callee = .ok signature) :
    program.steady ⟨id, .call callee (arguments.map Tree.id) (result.map Tree.id),
      arguments ++ result.toList⟩ = if signature.isPure then arguments ++ result.toList
      else ((signature.params.zip arguments).filter fun passed => passed.1.mode = .input).map
        Prod.snd := by
  rw [steady]
  simp only [hsignature]
  rw [List.take_left' (by simp)]

/-- The operands that a call only reads share no node with what it writes. -/
theorem Program.disjoint_inputs {program : Program} {id : NodeId} {callee : SignatureId}
    {arguments : List Tree} {result : Option Tree} {signature : Signature} (hsound : program.Sound
      ⟨id, .call callee (arguments.map Tree.id) (result.map Tree.id), arguments ++ result.toList⟩)
    (hsignature : program.signature callee = .ok signature) (hnodup : Tree.ids
      ⟨id, .call callee (arguments.map Tree.id) (result.map Tree.id), arguments ++ result.toList⟩
      |>.Nodup) :
    List.Disjoint ((((signature.params.zip arguments).filter fun passed =>
          passed.1.mode = .input).map Prod.snd).flatMap Tree.ids)
      ((((signature.params.zip arguments).filter fun passed => passed.1.mode.writes).map Prod.snd ++
        result.toList).flatMap Tree.ids) := by
  have hparts := perm_parts_call id result hsignature (hsound.of_call hsignature).1
  have hperm := (hparts.map Prod.snd).flatMap_right Tree.ids
  have hvalues (role : Role) (items : List Tree) :
      (items.map (role, ·)).map Prod.snd = items := by simp
  rw [map_snd_parts hsound, List.map_append, hvalues, hvalues] at hperm
  rw [Tree.ids_mk, List.nodup_cons, hperm.nodup_iff] at hnodup
  have hrows := hnodup.2
  rw [List.flatMap_append, List.nodup_append'] at hrows
  exact hrows.2.2

theorem Program.steady_subset (program : Program) (statement : Tree) :
    program.steady statement ⊆ statement.children := by
  intro operand hoperand
  unfold steady at hoperand
  split at hoperand
  · split at hoperand
    · split at hoperand
      · exact hoperand
      · obtain ⟨passed, hpassed, rfl⟩ := List.mem_map.mp hoperand
        exact List.mem_of_mem_take (List.of_mem_zip (List.mem_of_mem_filter hpassed)).2
    · cases hoperand
  · exact hoperand

theorem Program.steady_ids_subset (program : Program) (statement : Tree) :
    (program.steady statement).flatMap Tree.ids ⊆ statement.ids := fun id hid => by
  obtain ⟨operand, hoperand, hmem⟩ := List.mem_flatMap.mp hid
  obtain ⟨root, node, children⟩ := statement
  rw [Tree.ids_mk]
  exact List.mem_cons_of_mem _
    (List.mem_flatMap.mpr ⟨operand, program.steady_subset _ hoperand, hmem⟩)

/-- A steady operand is not the statement itself. -/
theorem Program.ne_of_mem_steady {program : Program}
    {statement : Tree} (hnodup : statement.ids.Nodup) {id : NodeId}
    (hid : id ∈ (program.steady statement).flatMap Tree.ids) : id ≠ statement.id := by
  rintro rfl
  obtain ⟨operand, hoperand, hid⟩ := List.mem_flatMap.mp hid
  obtain ⟨_, _, _⟩ := statement
  rw [Tree.ids_mk, List.nodup_cons] at hnodup
  exact hnodup.1 (List.mem_flatMap.mpr ⟨operand, program.steady_subset _ hoperand, hid⟩)

/-- A number stands for the type and the lanes that a call returns which leaves its arguments alone,
if the arguments have lanes. -/
structure Model.Returns (model : Model) (program : Program) (slots : Array Lanes)
    (callee : SignatureId) (signature : Signature) (arguments : List Tree) (number : ValueNumber) :
    Prop where
  typing : model.typing number = some (some signature.returnTy)
  meaning : ∀ inputs,
    (arguments.map (Tree.reading program.vars slots)).mapM Reading.lanes = some inputs →
    model.meaning number = some
      (.ofLanes ((Seed.returned callee inputs none).lanes signature.returnTy.flatLen))

theorem Model.Returns.mono {model model' : Model} {program : Program} {slots : Array Lanes}
    {callee : SignatureId} {signature : Signature} {arguments : List Tree} {number : ValueNumber}
    (hreturns : model.Returns program slots callee signature arguments number)
    (hextends : model'.Extends model) :
    model'.Returns program slots callee signature arguments number where
  typing := hextends.typing _ _ hreturns.typing
  meaning inputs hinputs := hextends.meaning _ _ (hreturns.meaning inputs hinputs)

/-- What a model says of a statement that is numbered before it is performed: the values of its
operands and of a call stand for what these gave, and what is known after it fits what the variables
hold then. -/
structure Model.Foresees (model : Model) (program : Program) (code : Code) (state : Numberer)
    (statement : Tree) (stop : Numberer) (machine : Machine) : Prop where
  explains : ∀ id ∈ (program.steady statement).flatMap Tree.ids, ∀ value,
    stop.numbering.value? id = some value →
      state.numbering.value? id = some value ∨ model.Explains program code machine.slots id value
  returns : ∀ callee arguments target signature, statement =
      ⟨statement.id, .call callee (arguments.map Tree.id) (some target.id), arguments ++ [target]⟩ →
    program.signature callee = .ok signature → signature.isPure = true →
      ∀ value, stop.numbering.value? statement.id = some value → ∃ number, value = [number] ∧
        model.Returns program machine.slots callee signature arguments number
  models : ∀ outcome machine', program.Performs statement machine outcome machine' →
    program.Sized machine'.slots ∧ ∃ model' : Model, model'.Extends model ∧
      stop.Models program code model' machine'.slots

section Statements

variable {program : Program} {code : Code} {model : Model} {eligible : NodeKinds}
  {state stop : Numberer} {machine machine' : Machine}

variable (houtlines : program.Outlines code) (hconsistent : program.TypeConsistent)

include houtlines hconsistent

/-- What a call writes is stored under numbers that stand for it. -/
theorem Overwrites.models {targets : List Tree}
    (hwrites : Overwrites program eligible state targets stop) {stores : List (Tree × Lanes)}
    (htargets : stores.map Prod.fst = targets) (hstores : program.StoresAll stores machine machine')
    (hcontains : ∀ target ∈ targets, code.Contains target) (hsized : program.Sized machine.slots)
    (hmodels : state.Models program code model machine.slots) : program.Sized machine'.slots ∧
      ∃ model' : Model, model'.Extends model ∧ stop.Models program code model' machine'.slots := by
  induction hwrites generalizing stores machine model with
  | nil =>
    obtain rfl := List.map_eq_nil_iff.mp htargets
    cases hstores
    exact ⟨hsized, model, .refl _, hmodels⟩
  | @cons state between stop target rest values root part hindices hroot hpart hrest ih =>
    obtain ⟨⟨_, value⟩, later, rfl, rfl, hlater⟩ := List.map_eq_cons_iff.mp htargets
    obtain ⟨htarget, hcontains⟩ := List.forall_mem_cons.mp hcontains
    cases hstores with
    | @cons _ _ _ _ after _ hfirst hremaining =>
      obtain ⟨model₁, hextends₁, hty, hview, hfresh⟩ :=
        hmodels.fresh (program.varTy? root) (.ofLanes (after.slots.getD root.index []))
      obtain ⟨model₂, hextends₂, hbetween, -⟩ :=
        hindices.models houtlines hconsistent hsized htarget.indices hfresh
      obtain ⟨hsized', model₃, hextends₃, hwritten⟩ :=
        hbetween.store hsized hfirst hroot part fun _ =>
        ⟨.single (hextends₂.typing _ _ hty), _, .single (hextends₂.meaning _ _ hview),
          View.covers_ofLanes _⟩
      obtain ⟨hsized'', model₄, hextends₄, hstop⟩ := ih hlater hremaining hcontains hsized' hwritten
      exact ⟨hsized'', model₄, ((hextends₁.trans hextends₂).trans hextends₃).trans hextends₄, hstop⟩

/-- Storing a value through a place, once the indices in the place are numbered: lanes that the
value shows are stored, and a whole variable is written with a value of its type. -/
theorem Numbers.models_store {target : Tree} {indices : List Value}
    (hindices : Numbers eligible state target.indices indices stop) (htarget : code.Contains target)
    {root : VarId} (hroot : target.root? = some root) {mask : UInt8} {part : Bool}
    (hpart : program.isPartialWrite target.id mask = .ok part) (hfit : program.MasksFit)
    {slots : Array Lanes} (hsized : program.Sized slots)
    (hmodels : state.Models program code model slots)
    {stored : Value} {ty : Option Ty} (hhas : stored.Has model.typing state.numbering.partials ty)
    (hsame : part = false → target.ty? program = ty) :
    ∃ model' : Model, model'.Extends model ∧
      (∀ id value, (stop.write part root stored).numbering.value? id = some value →
        state.numbering.value? id = some value ∨ model'.Explains program code slots id value) ∧
      ∀ (machine machine' : Machine) (lanes : Lanes), machine.slots = slots →
        stored.Shows model.meaning lanes →
          (∀ found, ty = some found → lanes.length = found.flatLen) →
        program.Stores target lanes mask machine machine' → program.Sized machine'.slots ∧
          ∃ model'' : Model, model''.Extends model' ∧
            (stop.write part root stored).Models program code model'' machine'.slots := by
  obtain ⟨model', hextends, hstop, hpartials, -, -, hvalues⟩ :=
    hindices.models houtlines hconsistent hsized htarget.indices hmodels
  refine ⟨model', hextends, fun id value hvalue => hvalues id value ?_,
    fun machine machine' lanes hslots hshows hlength hstores => ?_⟩
  · rwa [Numbering.value?, Numberer.values_write] at hvalue
  · subst hslots
    refine hstop.store hsized hstores hroot part fun hwhole => ?_
    subst hwhole
    have hdraws := houtlines.draws_of_contains htarget
    obtain ⟨hnode, hdeclared⟩ := hdraws.eq_variable_of_whole hroot hpart
    obtain ⟨found, hfound, -⟩ := houtlines.exists_ty hconsistent htarget (by rw [hnode]; rfl)
    rw [hsame rfl] at hfound hdeclared
    have hlanes := hstores.getD_of_whole hsized hdraws hfit hroot hpart
      (hdeclared.symm.trans hfound) (hlength found hfound)
    rw [hlanes, ← hdeclared]
    exact ⟨hhas.mono hextends.typing hpartials, hshows.mono hextends.meaning⟩

/-- A call that leaves its arguments alone has a number that stands for what it returns. -/
theorem Numbers.models_call {id : NodeId} {callee : SignatureId} {arguments : List Tree}
    {result : Option Tree} {values : List Value}
    (harguments : Numbers eligible state arguments values stop) (hcontains : code.Contains
      ⟨id, .call callee (arguments.map Tree.id) (result.map Tree.id), arguments ++ result.toList⟩)
    {signature : Signature}
    (hsignature : program.signature callee = .ok signature) {slots : Array Lanes}
    (hsized : program.Sized slots) (hmodels : state.Models program code model slots) :
    ∃ model' : Model, model'.Extends model ∧
      (stop.numberOf (.call callee values)).2.Models program code model' slots ∧
      model'.Returns program slots callee signature arguments
        (stop.numberOf (.call callee values)).1 ∧
      ∀ id value, stop.numbering.value? id = some value →
        state.numbering.value? id = some value ∨ model'.Explains program code slots id value := by
  have hpassed : ∀ argument ∈ arguments, code.Contains argument := fun argument hmem =>
    hcontains.child (List.mem_append_left _ hmem)
  obtain ⟨model₁, hextends₁, hcalled, -, htypes, ⟨views, hviews, hgive⟩, hvalues⟩ :=
    harguments.models houtlines hconsistent hsized hpassed hmodels
  have hhead : (Node.call callee (arguments.map Tree.id) (result.map Tree.id)).head? =
    some (Key.call callee values).head := rfl
  obtain ⟨model₂, hextends₂, hcounted, hty, hview⟩ :=
    hcalled.numberOf houtlines hconsistent.toTypesFollow hcontains hhead htypes hviews nofun
  rw [Tree.ty?_call hsignature] at hty hview
  refine ⟨model₂, hextends₁.trans hextends₂, hcounted, ⟨hty, fun inputs hinputs => ?_⟩,
    fun id value hvalue => (hvalues id value hvalue).imp_right fun hexplains =>
      hexplains.mono hextends₂⟩
  rw [houtlines.eq_lanes_of_mapM hconsistent hsized hpassed hgive hinputs]
  exact hview

/-! ### Numbered statements -/

section Numbered

variable (hsized : program.Sized machine.slots)
  (hmodels : state.Models program code model machine.slots)

include hsized hmodels

/-- An assignment stores what its value gives. -/
theorem Numbers.foresees_assign {valued : Numberer} {id : NodeId} {target value : Tree}
    {mask : UInt8} {stored : Value} {indices : List Value} {root : VarId} {part : Bool}
    (hvalue : Numbers eligible state [value] [stored] valued)
    (hindices : Numbers eligible valued target.indices indices stop)
    (hroot : target.root? = some root) (hpart : program.isPartialWrite target.id mask = .ok part)
    (hstatement : ⟨id, .assign target.id value.id mask, [value, target]⟩ ∈ code.statements)
    (hfit : program.MasksFit) : ∃ model' : Model, model'.Extends model ∧
      model'.Foresees program code state ⟨id, .assign target.id value.id mask, [value, target]⟩
        (stop.write part root stored) machine := by
  have hcontains := Code.Contains.of_statement hstatement
  have hnode := (houtlines.draws_of_contains hcontains).node_eq
  have htarget : code.Contains target := hcontains.child (by simp)
  have hvalued : code.Contains value := hcontains.child (by simp)
  obtain ⟨model₁, hextends₁, hstate, -, htypes, ⟨views, hviews, hgive⟩, hvalues⟩ :=
    hvalue.models houtlines hconsistent hsized (by simpa using hvalued) hmodels
  obtain ⟨view, _, hstands, -, rfl⟩ := List.forall₂_cons_left_iff.mp hviews
  have hsame (hwhole : part = false) : target.ty? program = value.ty? program := by
    subst hwhole
    exact (houtlines.sameType_iff htarget hvalued).mp
      (hconsistent.assigned (houtlines.reachable_of_contains hcontains) hnode hpart)
  obtain ⟨model₂, hextends₂, hpositions, hstored⟩ :=
    hindices.models_store houtlines hconsistent htarget hroot hpart hfit hsized hstate
      (List.forall₂_cons.mp htypes).1 hsame
  refine ⟨model₂, hextends₁.trans hextends₂, fun other _ found hfound => ?_,
    fun _ _ _ _ hcall => ?_, fun outcome machine' hperforms => ?_⟩
  · refine (hpositions other found hfound).elim (fun hold => ?_) .inr
    exact (hvalues other found hold).imp_right fun hexplains => hexplains.mono hextends₂
  · cases (Tree.mk.inj hcall).2.1
  · obtain ⟨-, lanes, hlanes, hstores⟩ := hperforms
    exact hstored (machine.sampled value.samples) machine' lanes rfl
      ⟨view, hstands, (List.forall₂_cons.mp hgive).1.lanes lanes hlanes⟩
      (fun ty => houtlines.length_of_lanes hconsistent hsized hvalued hlanes) hstores

/-- A call that leaves its arguments alone stores what it returns. -/
theorem Numbers.foresees_stored {called : Numberer} {id : NodeId} {callee : SignatureId}
    {signature : Signature} {arguments : List Tree} {target : Tree} {values indices : List Value}
    {root : VarId} {part : Bool} (hsignature : program.signature callee = .ok signature)
    (hpure : signature.isPure = true) (harguments : Numbers eligible state arguments values called)
    (hindices : Numbers eligible ((called.numberOf (.call callee values)).2.noted eligible
        ⟨id, .call callee (arguments.map Tree.id) (some target.id), arguments ++ [target]⟩
        (called.numberOf (.call callee values)).1) target.indices indices stop)
    (hroot : target.root? = some root) (hpart : program.isPartialWrite target.id 0 = .ok part)
    (hstatement : ⟨id, .call callee (arguments.map Tree.id) (some target.id),
        arguments ++ [target]⟩ ∈ code.statements)
    (hfit : program.MasksFit) : ∃ model' : Model, model'.Extends model ∧
      model'.Foresees program code state
        ⟨id, .call callee (arguments.map Tree.id) (some target.id), arguments ++ [target]⟩
        (stop.write part root [(called.numberOf (.call callee values)).1]) machine := by
  have hcontains := Code.Contains.of_statement hstatement
  have hnodup := houtlines.nodup_of_contains hcontains
  have hnode := (houtlines.draws_of_contains hcontains).node_eq
  have hcall : code.Contains ⟨id, .call callee (arguments.map Tree.id) ((some target).map Tree.id),
    arguments ++ (some target).toList⟩ := hcontains
  have hsound : program.Sound ⟨id, .call callee (arguments.map Tree.id) ((some target).map Tree.id),
    arguments ++ (some target).toList⟩ := houtlines.sound _ hstatement
  have htarget : code.Contains target := hcontains.child (by simp)
  obtain ⟨model₁, hextends₁, hcounted, hreturns, hvalues⟩ :=
    harguments.models_call houtlines hconsistent hcall hsignature hsized hmodels
  have hreturned := @Tree.ty?_call program id callee arguments (some target) signature hsignature
  have hsame (hwhole : part = false) : target.ty? program = some signature.returnTy := by
    subst hwhole
    refine ((houtlines.sameType_iff htarget hcontains).mp (hconsistent.returned
      (houtlines.reachable_of_contains hcontains) hnode (fun _ _ _ hcalled => ?_) hpart)).trans
      hreturned
    obtain ⟨rfl, -⟩ := Node.call.inj (Except.ok.inj (hnode.symm.trans hcalled))
    exact ⟨signature, hsignature, hpure⟩
  have hnoted :=
    hcounted.noted hcontains (hreturns.typing.trans (congrArg some hreturned.symm)) eligible
  obtain ⟨model₂, hextends₂, hpositions, hstored⟩ :=
    hindices.models_store houtlines hconsistent htarget hroot hpart hfit hsized hnoted
      (.single hreturns.typing) hsame
  refine ⟨model₂, hextends₁.trans hextends₂, fun other hother found hfound => ?_,
    fun callee' arguments' target' signature' hsame hsignature' _ found hfound => ?_,
    fun outcome machine' hperforms => ?_⟩
  · refine (hpositions other found hfound).elim (fun hold => ?_) .inr
    rw [Numberer.value?_noted_of_ne _ _ (Program.ne_of_mem_steady hnodup hother), Numbering.value?,
      Numberer.values_numberOf] at hold
    exact (hvalues other found hold).imp_right fun hexplains => hexplains.mono hextends₂
  · obtain ⟨-, hnode, hchildren⟩ := Tree.mk.inj hsame
    obtain ⟨rfl, -, -⟩ := Node.call.inj hnode
    obtain ⟨rfl, -⟩ := List.append_inj' hchildren rfl
    obtain rfl := Except.ok.inj (hsignature.symm.trans hsignature')
    have hindex : id ∉ target.indices.flatMap Tree.ids := fun hmem => by
      rw [Tree.ids_mk, List.nodup_cons] at hnodup
      refine hnodup.1 (List.mem_flatMap.mpr ⟨target, by simp, target.indices_subset hmem⟩)
    rw [Numberer.value?_write, hindices.value?_eq hindex] at hfound
    have hsame := hfound.symm.trans (Numberer.value?_noted_self ..)
    exact ⟨_, Option.some.inj hsame, hreturns.mono hextends₂⟩
  · obtain ⟨-, hcalls⟩ := Program.performs_call.mp (show program.Performs
      ⟨id, .call callee (arguments.map Tree.id) ((some target).map Tree.id),
        arguments ++ (some target).toList⟩ machine outcome machine' from hperforms)
    obtain ⟨inputs, hinputs, hstores⟩ :=
      (Program.calls_iff_of_isPure hsignature hpure (hsound.of_call hsignature).1).mp hcalls
    obtain _ | ⟨hfirst, ⟨⟩⟩ := hstores
    exact hstored ((machine.sampled _).called signature) machine' _ rfl
      ⟨_, .single (hreturns.meaning inputs hinputs), View.covers_ofLanes _⟩
      (fun ty hty => by rw [Seed.length_lanes, Option.some.inj hty]) hfirst

/-- A call that leaves its arguments alone and whose result is not used changes nothing. -/
theorem Numbers.foresees_dropped {called : Numberer} {id : NodeId} {callee : SignatureId}
    {signature : Signature} {arguments : List Tree} {values : List Value}
    (hsignature : program.signature callee = .ok signature) (hpure : signature.isPure = true)
    (harguments : Numbers eligible state arguments values called)
    (hstatement : ⟨id, .call callee (arguments.map Tree.id) none, arguments⟩ ∈ code.statements) :
    ∃ model' : Model, model'.Extends model ∧
      model'.Foresees program code state ⟨id, .call callee (arguments.map Tree.id) none, arguments⟩
        ((called.numberOf (.call callee values)).2.setValue id
          [(called.numberOf (.call callee values)).1]) machine := by
  have hcontains := Code.Contains.of_statement hstatement
  have hnodup := houtlines.nodup_of_contains hcontains
  have hnone : arguments = arguments ++ (none : Option Tree).toList := (List.append_nil _).symm
  have hcall :
      code.Contains ⟨id, .call callee (arguments.map Tree.id) ((none : Option Tree).map Tree.id),
    arguments ++ (none : Option Tree).toList⟩ := hnone ▸ hcontains
  have hsound :
      program.Sound ⟨id, .call callee (arguments.map Tree.id) ((none : Option Tree).map Tree.id),
    arguments ++ (none : Option Tree).toList⟩ := hnone ▸ houtlines.sound _ hstatement
  obtain ⟨model', hextends, hcounted, -, hvalues⟩ :=
    harguments.models_call houtlines hconsistent hcall hsignature hsized hmodels
  refine ⟨model', hextends, fun other hother found hfound => ?_, fun _ _ _ _ hsame => ?_,
    fun outcome machine' hperforms => ?_⟩
  · rw [Numberer.value?_setValue_of_ne (Program.ne_of_mem_steady hnodup hother), Numbering.value?,
      Numberer.values_numberOf] at hfound
    exact hvalues other found hfound
  · cases (Node.call.inj (Tree.mk.inj hsame).2.1).2.2
  · obtain ⟨-, hcalls⟩ := Program.performs_call.mp (show program.Performs
      ⟨id, .call callee (arguments.map Tree.id) ((none : Option Tree).map Tree.id),
        arguments ++ (none : Option Tree).toList⟩ machine outcome machine' by simpa using hperforms)
    obtain ⟨inputs, -, hstores⟩ :=
      (Program.calls_iff_of_isPure hsignature hpure (hsound.of_call hsignature).1).mp hcalls
    cases hstores
    exact ⟨hsized, model', .refl _, hcounted.setValue id _⟩

/-- A call that writes arguments stores values that nothing is known of. -/
theorem Numbers.foresees_effectful {called overwritten : Numberer}
    {id : NodeId} {callee : SignatureId}
    {signature : Signature} {arguments : List Tree} {result : Option Tree} {values : List Value}
    (hsignature : program.signature callee = .ok signature) (hpure : signature.isPure = false)
    (hinputs : Numbers eligible state (((signature.params.zip arguments).filter
          fun passed => passed.1.mode = .input).map Prod.snd) values called)
    (hwritten : Overwrites program eligible called (((signature.params.zip arguments).filter
          fun passed => passed.1.mode.writes).map Prod.snd) overwritten)
    (hresult : Overwrites program eligible (overwritten.fresh.2.setValue id [overwritten.fresh.1])
      result.toList stop)
    (hstatement : ⟨id, .call callee (arguments.map Tree.id) (result.map Tree.id),
        arguments ++ result.toList⟩ ∈ code.statements) :
    ∃ model' : Model, model'.Extends model ∧ model'.Foresees program code state
      ⟨id, .call callee (arguments.map Tree.id) (result.map Tree.id), arguments ++ result.toList⟩
        stop machine := by
  have hcontains := Code.Contains.of_statement hstatement
  have hnodup := houtlines.nodup_of_contains hcontains
  have hsound := houtlines.sound _ hstatement
  obtain ⟨hlength, -⟩ := hsound.of_call hsignature
  have hchild : ∀ operand ∈ arguments ++ result.toList, code.Contains operand := fun operand =>
    hcontains.child
  have hpassed (way : Param × Tree → Bool) := signature.passed_sublist hlength way
  obtain ⟨model₁, hextends₁, hcalled, -, -, -, hvalues⟩ := hinputs.models houtlines hconsistent
    hsized (fun tree hmem => hchild tree (List.mem_append_left _ ((hpassed _).subset hmem))) hmodels
  refine ⟨model₁, hextends₁, fun other hother found hfound => ?_,
    fun _ _ _ _ hsame hsignature' hpure' => ?_, fun outcome machine' hperforms => ?_⟩
  · have hne : other ≠ id := Program.ne_of_mem_steady hnodup hother
    rw [Program.steady_call hsignature, hpure, if_neg Bool.false_ne_true] at hother
    have hother := Program.disjoint_inputs hsound hsignature hnodup hother
    rw [List.flatMap_append, List.mem_append] at hother
    obtain ⟨hargument, hplace⟩ := not_or.mp hother
    rw [hresult.value?_eq hplace, Numberer.value?_setValue_of_ne hne] at hfound
    exact hvalues other found ((hwritten.value?_eq hargument).symm.trans hfound)
  · obtain ⟨rfl, -, -⟩ := Node.call.inj (Tree.mk.inj hsame).2.1
    obtain rfl := Except.ok.inj (hsignature.symm.trans hsignature')
    cases hpure.symm.trans hpure'
  · obtain ⟨-, found, inputs, hfound, -, hstores⟩ := Program.performs_call.mp hperforms
    obtain rfl := Except.ok.inj (hsignature.symm.trans hfound)
    obtain ⟨between, hfirst, hlast⟩ := hstores.exists_of_append
    have hcalled' : called.Models program code model₁ ((machine.sampled
      ((signature.inputs arguments).map Tree.samples).sum).called signature).slots := hcalled
    obtain ⟨hsized', model₂, hextends₂, hoverwritten⟩ := hwritten.models houtlines hconsistent
      (Signature.targets_writtenFrom ..) hfirst (fun tree hmem =>
        hchild tree (List.mem_append_left _ ((hpassed _).subset hmem))) hsized hcalled'
    obtain ⟨model₃, hextends₃, -, -, hfresh⟩ := hoverwritten.fresh none (.ofLanes [])
    obtain ⟨hsized'', model₄, hextends₄, hstop⟩ :=
      hresult.models houtlines hconsistent (by simp [Function.comp_def]) hlast
        (fun tree hmem => hchild tree (List.mem_append_right _ hmem)) hsized' (hfresh.setValue id _)
    exact ⟨hsized'', model₄, (hextends₂.trans hextends₃).trans hextends₄, hstop⟩

variable {statement : Tree}

/-- A statement that only reads changes nothing. -/
theorem Numbers.foresees_operands {values : List Value}
    (hwrites : statement.node.kind ≠ .assign ∧ statement.node.kind ≠ .call)
    (hoperands : Numbers eligible state statement.children values stop)
    (hstatement : statement ∈ code.statements) : ∃ model' : Model, model'.Extends model ∧
      model'.Foresees program code state statement stop machine := by
  obtain ⟨model', hextends, hstop, -, -, -, hvalues⟩ := hoperands.models houtlines hconsistent
    hsized (fun operand => (Code.Contains.of_statement hstatement).child) hmodels
  refine ⟨model', hextends, fun other _ found => hvalues other found, fun _ _ _ _ hsame => ?_,
    fun outcome machine' hperforms => ?_⟩
  · rw [hsame] at hwrites
    exact absurd rfl hwrites.2
  · rw [hperforms.slots_eq hwrites]
    exact ⟨hsized, model', .refl _, hstop⟩

/-- What is known before a statement says what the statement does to it. -/
theorem NumbersStatement.foresees
    (hnumbers : NumbersStatement program eligible state statement stop)
    (hstatement : statement ∈ code.statements) (hfit : program.MasksFit) :
    ∃ model' : Model, model'.Extends model ∧
      model'.Foresees program code state statement stop machine := by
  cases hnumbers with
  | assign hvalue hindices hroot hpart =>
    exact hvalue.foresees_assign houtlines hconsistent hsized hmodels hindices hroot hpart
      hstatement hfit
  | stored hsignature hpure harguments hindices hroot hpart =>
    exact harguments.foresees_stored houtlines hconsistent hsized hmodels hsignature hpure hindices
      hroot hpart hstatement hfit
  | dropped hsignature hpure harguments =>
    exact harguments.foresees_dropped houtlines hconsistent hsized hmodels hsignature hpure
      hstatement
  | effectful hsignature hpure hinputs hwritten hresult =>
    exact hinputs.foresees_effectful houtlines hconsistent hsized hmodels hsignature hpure hwritten
      hresult hstatement
  | operands hwrites hoperands =>
    exact hoperands.foresees_operands houtlines hconsistent hsized hmodels hwrites hstatement

end Numbered

variable {statement : Tree}

/-- An explained node is evaluated to the lanes that its type has in what its value stands for. -/
theorem Model.Explains.eq_lanes {id : NodeId} {value : Value} {later : Machine} {lanes : Lanes}
    (hexplains : model.Explains program code machine.slots id value)
    (hsized : program.Sized machine.slots)
    (hlanes : Walk.Answers (program.evaluate id) machine lanes later) :
    ∃ ty view partials, value.Has model.typing partials ty ∧ value.Stands model.meaning view ∧
      lanes = view.lanes ty := by
  obtain ⟨tree, view, partials, hcontains, rfl, hhas, hstands, hgives⟩ := hexplains
  have hdraws := houtlines.draws_of_contains hcontains
  have hheight := (hdraws.height_le (houtlines.nodup_of_contains hcontains)).trans (Nat.le_succ _)
  exact ⟨_, view, partials, hhas, hstands, houtlines.eq_lanes_of_gives hconsistent hsized hcontains
    hgives ((Program.evaluates_evaluate hdraws hheight _ _ _).mp hlanes).1⟩

/-- While a row of statements is numbered and executed up to one of them, the values of the operands
so far stand for what these gave. -/
theorem NumbersStatements.explains {statements before after : List Tree}
    (hnumbers : NumbersStatements program eligible state statements stop)
    (hstatements : statements ⊆ code.statements) (hnodup : (statements.flatMap Tree.ids).Nodup)
    (hnew : ∀ id ∈ statements.flatMap Tree.ids, state.numbering.value? id = none)
    (hfit : program.MasksFit)
    (hsized : program.Sized machine.slots) (hmodels : state.Models program code model machine.slots)
    (hsplit : statements = before ++ statement :: after)
    (hexecutes : program.ExecutesInOrder (before.map Tree.id) machine machine') :
    ∃ model' : Model, model'.Extends model ∧ ∀ earlier other later moment,
      before ++ [statement] = earlier ++ other :: later →
      program.ExecutesInOrder (earlier.map Tree.id) machine moment → program.Sized moment.slots ∧
        ∀ id ∈ (program.steady other).flatMap Tree.ids,
          ∀ value, stop.numbering.value? id = some value →
          model'.Explains program code moment.slots id value := by
  induction hnumbers generalizing before machine model with
  | nil => exact absurd hsplit.symm (by simp)
  | @cons state between stop first rest hfirst hrest ih =>
    obtain ⟨hstatement, hlater⟩ := List.cons_subset.mp hstatements
    rw [List.flatMap_cons, List.nodup_append'] at hnodup
    rw [List.flatMap_cons] at hnew
    obtain ⟨-, hnodup, hapart⟩ := hnodup
    obtain ⟨model₁, hextends₁, hforesees⟩ :=
      hfirst.foresees houtlines hconsistent hsized hmodels hstatement hfit
    have hexplains : ∀ id ∈ (program.steady first).flatMap Tree.ids,
        ∀ value, stop.numbering.value? id = some value →
        model₁.Explains program code machine.slots id value := by
      intro id hid value hvalue
      have hmem := program.steady_ids_subset first hid
      rw [hrest.value?_eq (hapart hmem)] at hvalue
      refine (hforesees.explains id hid value hvalue).resolve_left fun hold => ?_
      cases (hnew id (List.mem_append_left _ hmem)).symm.trans hold
    cases before with
    | nil =>
      obtain ⟨rfl, rfl⟩ := List.cons.inj hsplit
      refine ⟨model₁, hextends₁, fun earlier other later moment hplace hmoment => ?_⟩
      obtain ⟨rfl, rfl⟩ : earlier = [] ∧ other = first := by
        rcases List.singleton_eq_append_iff.mp hplace with ⟨rfl, hother⟩ | ⟨-, hother⟩
        · exact ⟨rfl, (List.cons.inj hother).1⟩
        · cases hother
      cases hmoment
      exact ⟨hsized, hexplains⟩
    | cons head before =>
      obtain ⟨rfl, hrow⟩ := List.cons.inj hsplit
      cases hexecutes with
      | @cons _ _ _ after _ _ hanswers hremaining =>
        obtain ⟨outcome, hperforms, -⟩ := (houtlines.executes first hstatement _ _ _).mp hanswers
        obtain ⟨hsized', model₂, hextends₂, hbetween⟩ := hforesees.models outcome _ hperforms
        have hnew' : ∀ id ∈ rest.flatMap Tree.ids, between.numbering.value? id = none :=
          fun id hid => by
            rw [hfirst.value?_eq fun hmem => hapart hmem hid, hnew id (List.mem_append_right _ hid)]
        obtain ⟨model', hextends', hrestExplains⟩ :=
          ih hlater hnodup hnew' hsized' hbetween hrow hremaining
        have hextends := hextends₂.trans hextends'
        refine ⟨model', hextends₁.trans hextends,
          fun earlier other later moment hplace hmoment => ?_⟩
        cases earlier with
        | nil =>
          obtain rfl := (List.cons.inj hplace).1
          cases hmoment
          exact ⟨hsized, fun id hid value hvalue => (hexplains id hid value hvalue).mono hextends⟩
        | cons head earlier =>
          obtain ⟨rfl, htail⟩ := List.cons.inj hplace
          cases hmoment with
          | cons hanswers' hmoment =>
            obtain ⟨-, rfl⟩ := hanswers.unique hanswers'
            exact hrestExplains earlier other later moment htail hmoment

/-- Two operands in a row of statements that is numbered from nothing have the same lanes if they
have the same value. -/
theorem NumbersStatements.lanes_eq {statements before after before' after' : List Tree}
    {statement' : Tree} (hnumbers : NumbersStatements program eligible {} statements stop)
    (hstatements : statements ⊆ code.statements) (hnodup : (statements.flatMap Tree.ids).Nodup)
    (hfit : program.MasksFit) (hsized : program.Sized machine.slots)
    (hsplit : statements = before ++ statement :: after)
    (hsplit' : statements = before' ++ statement' :: after')
    (hle : before.length ≤ before'.length) {moment moment' : Machine}
    (hexecutes : program.ExecutesInOrder (before.map Tree.id) machine moment)
    (hexecutes' : program.ExecutesInOrder (before'.map Tree.id) machine moment')
    {id id' : NodeId} {value : Value} (hid : id ∈ (program.steady statement).flatMap Tree.ids)
    (hid' : id' ∈ (program.steady statement').flatMap Tree.ids)
    (hvalue : stop.numbering.value? id = some value)
    (hvalue' : stop.numbering.value? id' = some value) {lanes lanes' : Lanes}
    {later later' : Machine} (hlanes : Walk.Answers (program.evaluate id) moment lanes later)
    (hlanes' : Walk.Answers (program.evaluate id') moment' lanes' later') : lanes = lanes' := by
  obtain ⟨model, -, hexplains⟩ := hnumbers.explains houtlines hconsistent hstatements hnodup
    (fun _ _ => rfl) hfit hsized (.nil machine.slots) hsplit' hexecutes'
  have hplace : ∃ rest, before' ++ [statement'] = before ++ statement :: rest := by
    rcases Nat.lt_or_eq_of_le hle with hlt | heq
    · obtain ⟨span, rfl, -⟩ := exists_span_of_lt (hsplit.symm.trans hsplit') hlt
      exact ⟨span ++ [statement'], by simp⟩
    · obtain ⟨rfl, hrest⟩ := List.append_inj (hsplit.symm.trans hsplit') heq
      exact ⟨[], by rw [(List.cons.inj hrest).1]⟩
  obtain ⟨rest, hplace⟩ := hplace
  obtain ⟨hsized₁, hexplained⟩ := hexplains _ _ _ _ hplace hexecutes
  obtain ⟨hsized₂, hexplained'⟩ := hexplains _ _ _ _ rfl hexecutes'
  obtain ⟨ty, view, partials, hhas, hstands, rfl⟩ :=
    (hexplained id hid value hvalue).eq_lanes houtlines hconsistent hsized₁ hlanes
  obtain ⟨ty', view', partials', hhas', hstands', rfl⟩ :=
    (hexplained' id' hid' value hvalue').eq_lanes houtlines hconsistent hsized₂ hlanes'
  rw [hhas.unique hhas', hstands.unique hstands']

end Statements

/-! ### Blocks -/

namespace Program

/-- The node stands in an argument that a call writes, or in the place for the result of a call that
writes arguments. -/
def InWritten (program : Program) (id : NodeId) : Prop :=
  ∃ call callee arguments result signature place, program.Reachable call ∧
    program.node call = .ok (.call callee arguments result) ∧
    program.signature callee = .ok signature ∧
    signature.isPure = false ∧
    ((∃ param, (param, place) ∈ signature.params.zip arguments ∧ param.mode.writes = true) ∨
      place ∈ result) ∧
    program.Below place id

theorem not_inWritten_of_forall {program : Program} {id : NodeId}
    (hcalls : ∀ node ∈ program.nodes, node.kind ≠ .call) :
    ¬ program.InWritten id := by
  rintro ⟨call, callee, arguments, result, _, _, -, hcall, -⟩
  exact hcalls _ (Array.mem_of_getElem? (node_eq_ok_iff.mp hcall)) rfl

/-- When a row of statements is executed from a machine, the node is evaluated to these lanes as its
statement has its turn. -/
def EvaluatedIn (program : Program) (statements : List NodeId) (machine : Machine) (id : NodeId)
    (lanes : Lanes) : Prop :=
  ∃ before statement after moment later, statements = before ++ statement :: after ∧
    program.ExecutesInOrder before machine moment ∧ program.Below statement id ∧
    Walk.Answers (program.evaluate id) moment lanes later

variable {program : Program} {code : Code} {statement : Tree} {id : NodeId}

/-- All operands of a statement are steady but what a call writes. -/
theorem mem_steady (hsound : program.Sound statement) (hdraws : program.Draws statement)
    (hreachable : program.Reachable statement.id) (hid : id ∈ statement.ids)
    (hne : id ≠ statement.id) (hunwritten : ¬ program.InWritten id) :
    id ∈ (program.steady statement).flatMap Tree.ids := by
  cases hsound with
  | call root callee arguments result signature hsignature hlength hwritten hresult =>
    rw [Tree.ids_mk, List.mem_cons] at hid
    have hid := hid.resolve_left hne
    rw [steady_call hsignature]
    split
    · exact hid
    · next hpure =>
      have hpure := Bool.eq_false_iff.mpr hpure
      obtain ⟨operand, hoperand, hmem⟩ := List.mem_flatMap.mp hid
      obtain ⟨below, hbelow, rfl⟩ := List.mem_map.mp hmem
      have hunder := (hdraws.child hoperand).below_of_mem_subtrees below hbelow
      rcases List.mem_append.mp hoperand with hargument | hplace
      · rw [← List.map_snd_zip hlength.ge] at hargument
        obtain ⟨⟨param, argument⟩, hpassed, rfl⟩ := List.mem_map.mp hargument
        by_cases hmode : param.mode = .input
        · refine List.mem_flatMap.mpr
            ⟨argument, List.mem_map.mpr ⟨(param, argument), ?_, rfl⟩, hmem⟩
          exact List.mem_filter.mpr ⟨hpassed, decide_eq_true hmode⟩
        · refine absurd ⟨root, callee, _, _, signature, argument.id, hreachable, hdraws.node_eq,
            hsignature, hpure, .inl ⟨param, ?_, ?_⟩, hunder⟩ hunwritten
          · rw [List.zip_map_right]
            exact List.mem_map_of_mem hpassed
          · exact ParamMode.writes_iff.mpr hmode
      · refine absurd ⟨root, callee, _, _, signature, operand.id, hreachable, hdraws.node_eq,
          hsignature, hpure, .inr ?_, hunder⟩ hunwritten
        exact Option.mem_map_of_mem _ (by simpa using hplace)
  | _ =>
    rw [Tree.ids_mk, List.mem_cons] at hid
    exact hid.resolve_left hne

/-- What is evaluated in a row of sound statements is a steady operand of one of them. -/
theorem EvaluatedIn.exists_steady {trees : List Tree} {machine : Machine} {lanes : Lanes}
    (hlanes : program.EvaluatedIn (trees.map Tree.id) machine id lanes)
    (houtlines : program.Outlines code)
    (htrees : trees ⊆ code.statements) (hunwritten : ¬ program.InWritten id) :
    ∃ before statement after moment later, trees = before ++ statement :: after ∧
      program.ExecutesInOrder (before.map Tree.id) machine moment ∧
      id ∈ (program.steady statement).flatMap Tree.ids ∧
      Walk.Answers (program.evaluate id) moment lanes later := by
  obtain ⟨_, _, _, moment, later, hsplit, hexecutes, hbelow, hlanes⟩ := hlanes
  obtain ⟨before, rest, rfl, rfl, hrest⟩ := List.map_eq_append_iff.mp hsplit
  obtain ⟨statement, after, rfl, rfl, rfl⟩ := List.map_eq_cons_iff.mp hrest
  have hstatement : statement ∈ code.statements := htrees (by simp)
  have hcontains := Code.Contains.of_statement hstatement
  have hdraws := houtlines.draws_of_contains hcontains
  have hsound := houtlines.sound _ hstatement
  obtain ⟨below, hmem, rfl⟩ := hdraws.exists_subtree_of_below hbelow
  have hne : below.id ≠ statement.id := by
    intro hsame
    have hheight := (hdraws.height_le (houtlines.nodup_of_contains hcontains)).trans (Nat.le_succ _)
    rw [hsame] at hlanes
    have hreading := ((evaluates_evaluate hdraws hheight _ _ _).mp hlanes).1
    cases hsound <;> simp [Tree.reading_mk, Node.reading] at hreading
  exact ⟨before, statement, after, moment, later, rfl, hexecutes, mem_steady hsound hdraws
    (houtlines.reachable_of_contains hcontains) (List.mem_map_of_mem hmem) hne hunwritten, hlanes⟩

end Program

namespace Graph

variable {program : Program} {config limits : Config} {graph : Graph} {block : BasicBlock}
  {statements : List NodeId}

/-- Nodes of a block that have the same value are evaluated to the same lanes whenever the block is
executed, if types fit together and every variable holds as many lanes as its type has. -/
theorem lanes_eq_of_numberStatements (hcheck : program.check = .ok ())
    (hconsistent : program.TypeConsistent) (hfit : program.MasksFit)
    (hbuild : Query.Answers (build program limits) graph) (hblock : block ∈ graph.blocks)
    (hstatements : block.statements program = .ok statements) {numbering : Numbering}
    (hnumbering : Query.Answers (program.numberStatements statements config) numbering)
    {machine : Machine} (hsized : program.Sized machine.slots) {first second : NodeId}
    (hfirst : ¬ program.InWritten first) (hsecond : ¬ program.InWritten second) {value : Value}
    (hvalue : numbering.value? first = some value) (hvalue' : numbering.value? second = some value)
    {lanes lanes' : Lanes} (hlanes : program.EvaluatedIn statements machine first lanes)
    (hlanes' : program.EvaluatedIn statements machine second lanes') : lanes = lanes' := by
  obtain ⟨code, houtlines, hbuilt⟩ := exists_built_of_build hcheck hbuild
  obtain ⟨rows, hids, hnodup, hdraws, hsound, hoperands⟩ :=
    exists_trees_of_block hcheck hbuild hblock hstatements
  have hrow := (hbuilt.depicts.holds block hblock).statements houtlines.frames
  obtain rfl := Except.ok.inj (hrow.symm.trans hstatements)
  obtain ⟨trees, htrees, hids'⟩ := hbuilt.depicts.exists_trees hblock
  obtain rfl := Program.Draws.unique_row
    (fun tree htree => houtlines.draws.statement tree (htrees htree)) hdraws (hids'.trans hids.symm)
  rw [← hids] at hnumbering hlanes hlanes'
  obtain ⟨stop, hnumbers, rfl, -⟩ :=
    Program.exists_numbers_of_numberStatements hdraws hsound hoperands hnumbering
  obtain ⟨before, statement, after, moment, _, hsplit, hexecutes, hid, hlanes⟩ :=
    hlanes.exists_steady houtlines htrees hfirst
  obtain ⟨before', statement', after', moment', _, hsplit', hexecutes', hid', hlanes'⟩ :=
    hlanes'.exists_steady houtlines htrees hsecond
  rcases Nat.le_total before.length before'.length with hle | hle
  · exact hnumbers.lanes_eq houtlines hconsistent htrees hnodup hfit hsized hsplit hsplit' hle
      hexecutes hexecutes' hid hid' hvalue hvalue' hlanes hlanes'
  · exact (hnumbers.lanes_eq houtlines hconsistent htrees hnodup hfit hsized hsplit' hsplit hle
      hexecutes' hexecutes hid' hid hvalue' hvalue hlanes' hlanes).symm

/-- A number is negated into a variable, which is then copied. -/
def negatedCopy : Program where
  nodes := #[.variable ⟨1⟩, .variable ⟨0⟩, .apply .neg [⟨1⟩] .float, .assign ⟨0⟩ ⟨2⟩ 0,
    .variable ⟨2⟩, .variable ⟨1⟩, .assign ⟨4⟩ ⟨5⟩ 0]
  vars := #[⟨"x", .float, .input⟩, ⟨"y", .float, .auto⟩, ⟨"z", .float, .auto⟩]
  body := [⟨3⟩, ⟨6⟩]

/-- The block of `negatedCopy`. -/
def negatedCopyBlock : BasicBlock where
  id := ⟨0⟩
  ranges := [⟨.root, ⟨3⟩, ⟨6⟩⟩]

/-- What is known of the block of `negatedCopy`; the number and its copy have one number. -/
def negatedCopyNumbering : Numbering where
  values := [(⟨5⟩, [⟨1⟩]), (⟨2⟩, [⟨1⟩]), (⟨1⟩, [⟨0⟩])]
  occurrences := [(⟨2⟩, ⟨1⟩)]
  allocated := 2

theorem typeConsistent_negatedCopy : negatedCopy.TypeConsistent :=
  Program.typeConsistent_of_typesFit (by decide)

theorem lanes_eq_of_numberStatements_negatedCopy :
    ∃ value lanes lanes', Query.Answers
      (negatedCopy.numberStatements [⟨3⟩, ⟨6⟩] { eligible := .all }) negatedCopyNumbering ∧
    negatedCopyNumbering.value? ⟨2⟩ = some value ∧ negatedCopyNumbering.value? ⟨5⟩ = some value ∧
    negatedCopy.EvaluatedIn [⟨3⟩, ⟨6⟩] { slots := #[[1.5], [0], [0]] } ⟨2⟩ lanes ∧
    negatedCopy.EvaluatedIn [⟨3⟩, ⟨6⟩] { slots := #[[1.5], [0], [0]] } ⟨5⟩ lanes' ∧
    lanes = lanes' := by
  have hbuild : Query.Answers (build negatedCopy { eligible := .all })
      ⟨#[some negatedCopyBlock], false⟩ := rfl
  have hnumbering : Query.Answers (negatedCopy.numberStatements [⟨3⟩, ⟨6⟩] { eligible := .all })
      negatedCopyNumbering := by
    change _ = _
    decide +kernel
  have hsized : negatedCopy.Sized #[[1.5], [0], [0]] := by decide
  have hfit : negatedCopy.MasksFit := by decide
  have hunwritten (id : NodeId) : ¬ negatedCopy.InWritten id :=
    Program.not_inWritten_of_forall (by decide)
  have hfirst : negatedCopy.EvaluatedIn [⟨3⟩, ⟨6⟩] { slots := #[[1.5], [0], [0]] } ⟨2⟩
      ((Operator.neg.apply [[1.5]]).resize 1) :=
    ⟨[], ⟨3⟩, [⟨6⟩], _, _, rfl, .nil _, .step (.refl _) rfl (by decide), rfl⟩
  have hsecond : negatedCopy.EvaluatedIn [⟨3⟩, ⟨6⟩] { slots := #[[1.5], [0], [0]] } ⟨5⟩
      (Lanes.write [0] 0 1 0 ((Operator.neg.apply [[1.5]]).resize 1)) :=
    ⟨[⟨3⟩], ⟨6⟩, [], _, _, rfl, .cons rfl (.nil _), .step (.refl _) rfl (by decide), rfl⟩
  exact ⟨_, _, _, hnumbering, rfl, rfl, hfirst, hsecond, lanes_eq_of_numberStatements rfl
      typeConsistent_negatedCopy hfit hbuild (by decide : negatedCopyBlock ∈ _) rfl
      hnumbering hsized (hunwritten _) (hunwritten _) rfl rfl hfirst hsecond⟩

/-- A vector of nine lanes is written under its full mask, which covers the first lane and the last
one. The vector and what was written to it are negated. -/
def nineLanes : Program where
  nodes := #[.variable ⟨1⟩, .variable ⟨0⟩, .assign ⟨0⟩ ⟨1⟩ 1, .variable ⟨2⟩, .variable ⟨1⟩,
    .apply .neg [⟨4⟩] (.vector .float 9), .assign ⟨3⟩ ⟨5⟩ 0, .variable ⟨3⟩, .variable ⟨0⟩,
    .apply .neg [⟨8⟩] (.vector .float 9), .assign ⟨7⟩ ⟨9⟩ 0]
  vars := #[⟨"x", .vector .float 9, .input⟩, ⟨"y", .vector .float 9, .auto⟩,
    ⟨"z", .vector .float 9, .auto⟩, ⟨"w", .vector .float 9, .auto⟩]
  body := [⟨2⟩, ⟨6⟩, ⟨10⟩]

/-- The block of `nineLanes`. -/
def nineLanesBlock : BasicBlock where
  id := ⟨0⟩
  ranges := [⟨.root, ⟨2⟩, ⟨10⟩⟩]

/-- What is known of the block of `nineLanes`; the vector has the number of what was written to
it. -/
def nineLanesNumbering : Numbering where
  values := [(⟨9⟩, [⟨1⟩]), (⟨8⟩, [⟨0⟩]), (⟨5⟩, [⟨1⟩]), (⟨4⟩, [⟨0⟩]), (⟨1⟩, [⟨0⟩])]
  occurrences := [(⟨5⟩, ⟨1⟩), (⟨9⟩, ⟨1⟩)]
  allocated := 2

theorem typeConsistent_nineLanes : nineLanes.TypeConsistent :=
  Program.typeConsistent_of_typesFit (by decide)

/-- With more than eight lanes, nodes that have the same value need not be evaluated to the same
lanes. -/
theorem lanes_ne_nineLanes :
    nineLanes.check = .ok () ∧ nineLanes.TypeConsistent ∧ ∃ graph statements value machine,
    Query.Answers (build nineLanes { eligible := .all }) graph ∧ nineLanesBlock ∈ graph.blocks ∧
    nineLanesBlock.statements nineLanes = .ok statements ∧
    Query.Answers (nineLanes.numberStatements statements { eligible := .all }) nineLanesNumbering ∧
    nineLanesNumbering.poisoned = false ∧ nineLanes.Sized machine.slots ∧
    ¬ nineLanes.InWritten ⟨4⟩ ∧ ¬ nineLanes.InWritten ⟨8⟩ ∧
    nineLanesNumbering.value? ⟨4⟩ = some value ∧ nineLanesNumbering.value? ⟨8⟩ = some value ∧
    nineLanes.EvaluatedIn statements machine ⟨4⟩ [1, 2, 2, 2, 2, 2, 2, 2, 1] ∧
    nineLanes.EvaluatedIn statements machine ⟨8⟩ [1, 1, 1, 1, 1, 1, 1, 1, 1] ∧
    ([1, 2, 2, 2, 2, 2, 2, 2, 1] : Lanes) ≠ [1, 1, 1, 1, 1, 1, 1, 1, 1] := by
  have hnumbering : Query.Answers (nineLanes.numberStatements [⟨2⟩, ⟨6⟩, ⟨10⟩] { eligible := .all })
      nineLanesNumbering := by
    change _ = _
    decide +kernel
  have hsized : nineLanes.Sized #[List.replicate 9 1, List.replicate 9 2, List.replicate 9 0,
        List.replicate 9 0] := by
    decide
  have hunwritten (id : NodeId) : ¬ nineLanes.InWritten id :=
    Program.not_inWritten_of_forall (by decide)
  have hfirst : nineLanes.Below ⟨6⟩ ⟨5⟩ := .step (.refl _) rfl (by decide)
  have hsecond : nineLanes.Below ⟨10⟩ ⟨9⟩ := .step (.refl _) rfl (by decide)
  exact ⟨rfl, typeConsistent_nineLanes, ⟨#[some nineLanesBlock], false⟩, [⟨2⟩, ⟨6⟩, ⟨10⟩], [⟨0⟩],
    { slots := #[List.replicate 9 1, List.replicate 9 2, List.replicate 9 0, List.replicate 9 0] },
    rfl, by decide, rfl, hnumbering, rfl, hsized, hunwritten _, hunwritten _, rfl, rfl,
    ⟨[⟨2⟩], ⟨6⟩, [⟨10⟩], _, _, rfl, .cons rfl (.nil _), .step hfirst rfl (by decide), rfl⟩,
    ⟨[⟨2⟩, ⟨6⟩], ⟨10⟩, [], _, _, rfl, .cons rfl (.cons rfl (.nil _)), .step hsecond rfl (by decide),
      rfl⟩, by decide⟩

end Graph

end ShaderIR
