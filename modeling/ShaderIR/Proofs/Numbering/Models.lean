import ShaderIR.Proofs.Numbering.Meanings
import ShaderIR.Proofs.Numbering.Passages

/-!
Numbering alongside an execution. A `Model` settles the types and the views of numbers.
`Numberer.Models` says that it fits what is known in the middle of a block and the lanes that the
variables hold at that moment, and every step of numbering extends the model so that it fits again:
`Numbers.models` for operands, `NumbersStatement.foresees` for a statement and what it does to the
machine.
-/

set_option autoImplicit false

namespace ShaderIR

/-- What numbers stand for: values of a type, and what is found where such a value is. -/
structure Model where
  typing : Typing
  meaning : Meaning

/-- More is settled. -/
structure Model.Extends (model' model : Model) : Prop where
  typing : model'.typing.Extends model.typing
  meaning : model'.meaning.Extends model.meaning

theorem Model.Extends.refl (model : Model) : model.Extends model :=
  ⟨.refl _, .refl _⟩

theorem Model.Extends.trans {model model' model'' : Model} (hfirst : model'.Extends model)
    (hsecond : model''.Extends model') : model''.Extends model :=
  ⟨hfirst.typing.trans hsecond.typing, hfirst.meaning.trans hsecond.meaning⟩

/-- A number stands for what its key computes. -/
def Key.Stands (model : Model) (partials : List ValueNumber) (key : Key)
    (number : ValueNumber) : Prop :=
  ∃ ty types views, model.typing number = some ty ∧
    List.Forall₂ (Value.Has model.typing partials) key.operands types ∧
    List.Forall₂ (Value.Stands model.meaning) key.operands views ∧
    model.meaning number = some (key.head.view ty types views)

theorem Key.Stands.mono {model model' : Model} {partials partials' : List ValueNumber} {key : Key}
    {number : ValueNumber} (hstands : key.Stands model partials number)
    (hextends : model'.Extends model) (hpartials : partials ⊆ partials') :
    key.Stands model' partials' number := by
  obtain ⟨ty, types, views, hty, htypes, hviews, hview⟩ := hstands
  exact ⟨ty, types, views, hextends.typing _ _ hty,
    htypes.imp fun _ _ hhas => hhas.mono hextends.typing hpartials,
    hviews.imp fun _ _ hstands => hstands.mono hextends.meaning, hextends.meaning _ _ hview⟩

/-- A value stands for a view of these lanes. -/
def Value.Shows (meaning : Meaning) (value : Value) (lanes : Lanes) : Prop :=
  ∃ view, value.Stands meaning view ∧ view.Covers lanes

theorem Value.Shows.mono {meaning meaning' : Meaning} {value : Value} {lanes : Lanes}
    (hshows : value.Shows meaning lanes) (hextends : meaning'.Extends meaning) :
    value.Shows meaning' lanes := by
  obtain ⟨view, hstands, hcovers⟩ := hshows
  exact ⟨view, hstands.mono hextends, hcovers⟩

/-- A model fits what is known in the middle of a block: each history has the type of its variable
and shows the lanes that the variable holds, and the numbers of keys stand for what the keys
compute. -/
structure Numberer.Models (program : Program) (code : Code) (model : Model) (slots : Array Lanes)
    (numberer : Numberer) : Prop where
  typed : numberer.Typed program code model.typing
  allocated : ∀ number view, model.meaning number = some view →
    number.index < numberer.numbering.allocated
  histories : ∀ id history, numberer.histories.lookup id = some history →
    history.Shows model.meaning (slots.getD id.index [])
  table : ∀ key number, (key, number) ∈ numberer.table →
    key.Stands model numberer.numbering.partials number

/-- The value of a node stands for the type of the node and for what the node gives. -/
def Model.Explains (model : Model) (program : Program) (code : Code) (slots : Array Lanes)
    (id : NodeId) (value : Value) : Prop :=
  ∃ tree view partials, code.Contains tree ∧ tree.id = id ∧
    value.Has model.typing partials (tree.ty? program) ∧ value.Stands model.meaning view ∧
    tree.Gives program slots view

theorem Model.Explains.mono {model model' : Model}
    {program : Program} {code : Code} {slots : Array Lanes}
    {id : NodeId} {value : Value} (hexplains : model.Explains program code slots id value)
    (hextends : model'.Extends model) : model'.Explains program code slots id value := by
  obtain ⟨tree, view, partials, hcontains, hid, hhas, hstands, hgives⟩ := hexplains
  exact ⟨tree, view, partials, hcontains, hid, hhas.mono hextends.typing (List.Subset.refl _),
    hstands.mono hextends.meaning, hgives⟩

/-! ### Steps of numbering -/

namespace Numberer.Models

variable {program : Program} {code : Code} {model : Model} {slots : Array Lanes}
  {numberer numberer' : Numberer}

theorem nil (slots : Array Lanes) :
    Models program code ⟨fun _ => none, fun _ => none⟩ slots {} where
  typed := typed_nil
  allocated := by simp
  histories := by simp
  table := by simp

/-- More is settled, and variables have been written. -/
theorem of_extends {model' : Model} {slots' : Array Lanes}
    (hmodels : numberer.Models program code model slots) (hextends : model'.Extends model)
    (htyped : numberer'.Typed program code model'.typing) (hallocated : ∀ number view,
      model'.meaning number = some view → number.index < numberer'.numbering.allocated)
    (hpartials : numberer.numbering.partials ⊆ numberer'.numbering.partials)
    (htable : numberer'.table = numberer.table)
    (hhistories : ∀ id history, numberer'.histories.lookup id = some history →
      numberer.histories.lookup id = some history ∧
      slots'.getD id.index [] = slots.getD id.index [] ∨
        history.Shows model'.meaning (slots'.getD id.index [])) :
    numberer'.Models program code model' slots' where
  typed := htyped
  allocated := hallocated
  histories id history hlookup := by
    rcases hhistories id history hlookup with ⟨hold, hsame⟩ | hnew
    · rw [hsame]
      exact (hmodels.histories id history hold).mono hextends.meaning
    · exact hnew
  table key number hentry := (hmodels.table key number (htable ▸ hentry)).mono hextends hpartials

theorem setValue (hmodels : numberer.Models program code model slots) (id : NodeId)
    (value : Value) : (numberer.setValue id value).Models program code model slots :=
  hmodels.of_extends (.refl _) (hmodels.typed.setValue id value) hmodels.allocated
    (List.Subset.refl _) rfl fun _ _ hlookup => .inl ⟨hlookup, rfl⟩

/-- A new number can stand for any view. -/
theorem exists_view (hmodels : numberer.Models program code model slots) (view : View) :
    ∃ meaning' : Meaning, meaning'.Extends model.meaning ∧ meaning' numberer.fresh.1 = some view ∧
      ∀ number view, meaning' number = some view →
        number.index < numberer.numbering.allocated + 1 := by
  refine ⟨Function.update model.meaning numberer.fresh.1 (some view), fun number old hold => ?_,
    Function.update_self .., fun number found hfound => ?_⟩
  · rw [Function.update_of_ne _ _ _, hold]
    rintro rfl
    exact Nat.lt_irrefl _ (hmodels.allocated _ _ hold)
  · by_cases hfresh : number = numberer.fresh.1
    · rw [hfresh]
      exact Nat.lt_succ_self _
    · rw [Function.update_of_ne hfresh] at hfound
      exact (hmodels.allocated _ _ hfound).trans (Nat.lt_succ_self _)

/-- A new number can stand for anything. -/
theorem fresh (hmodels : numberer.Models program code model slots) (ty : Option Ty) (view : View) :
    ∃ model' : Model, model'.Extends model ∧ model'.typing numberer.fresh.1 = some ty ∧
      model'.meaning numberer.fresh.1 = some view ∧
      numberer.fresh.2.Models program code model' slots := by
  obtain ⟨typing', htyping, hty, htyped⟩ := hmodels.typed.fresh ty
  obtain ⟨meaning', hmeaning, hview, hallocated⟩ := hmodels.exists_view view
  exact ⟨⟨typing', meaning'⟩, ⟨htyping, hmeaning⟩, hty, hview,
    hmodels.of_extends ⟨htyping, hmeaning⟩ htyped hallocated (List.Subset.refl _) rfl
      fun _ _ hlookup => .inl ⟨hlookup, rfl⟩⟩

/-- The writes to a variable are of its type and show its lanes. -/
theorem history (hmodels : numberer.Models program code model slots) (id : VarId) :
    ∃ model' : Model, model'.Extends model ∧
      (numberer.history id).2.Models program code model' slots ∧
      (numberer.history id).1.Has model'.typing numberer.numbering.partials (program.varTy? id) ∧
      (numberer.history id).1.Shows model'.meaning (slots.getD id.index []) := by
  obtain ⟨typing', htyping, htyped, hhas⟩ := hmodels.typed.history id
  rcases numberer.history_cases id with ⟨history, hlookup, hhistory⟩ | hhistory <;>
    rw [hhistory] at htyped hhas ⊢
  · exact ⟨⟨typing', model.meaning⟩, ⟨htyping, .refl _⟩,
      hmodels.of_extends ⟨htyping, .refl _⟩ htyped hmodels.allocated (List.Subset.refl _) rfl
        fun _ _ hlookup => .inl ⟨hlookup, rfl⟩, hhas, hmodels.histories id history hlookup⟩
  · obtain ⟨meaning', hmeaning, hview, hallocated⟩ :=
      hmodels.exists_view (.ofLanes (slots.getD id.index []))
    have hshows : Value.Shows meaning' [numberer.fresh.1] (slots.getD id.index []) :=
      ⟨_, .single hview, View.covers_ofLanes _⟩
    refine ⟨⟨typing', meaning'⟩, ⟨htyping, hmeaning⟩, hmodels.of_extends ⟨htyping, hmeaning⟩ htyped
      hallocated (List.Subset.refl _) rfl fun other history hlookup => ?_, hhas, hshows⟩
    rw [List.lookup_cons] at hlookup
    split at hlookup
    · next hsame =>
      obtain rfl := eq_of_beq hsame
      obtain rfl := Option.some.inj hlookup
      exact .inr hshows
    · exact .inl ⟨hlookup, rfl⟩

/-- A variable reads as a value of its type that shows its lanes. -/
theorem read (hmodels : numberer.Models program code model slots) (id : VarId) :
    ∃ model' : Model, model'.Extends model ∧ (numberer.read id).2.Models program code model' slots ∧
      (numberer.read id).1.Has model'.typing numberer.numbering.partials (program.varTy? id) ∧
      (numberer.read id).1.Shows model'.meaning (slots.getD id.index []) := by
  obtain ⟨model', hextends, hstop, hhas, view, hstands, hcovers⟩ := hmodels.history id
  have hlatest : (numberer.read id).1 =
      latest numberer.numbering.partials.contains (numberer.history id).1 := by
    rw [← partials_history id]
    rfl
  rw [hlatest]
  exact ⟨model', hextends, hstop, hhas.latest, view, hstands.latest, hcovers⟩

/-- A computation gets a number that stands for what it computes. -/
theorem numberOf (hmodels : numberer.Models program code model slots) {tree : Tree} {key : Key}
    (houtlines : program.Outlines code)
    (hfollow : program.TypesFollow) (hcontains : code.Contains tree)
    (hhead : tree.node.head? = some key.head) {types : List (Option Ty)} {views : List View}
    (htypes : List.Forall₂ (Value.Has model.typing numberer.numbering.partials) key.operands types)
    (hviews : List.Forall₂ (Value.Stands model.meaning) key.operands views)
    (hchildren : tree.node.isStatement = false → types = tree.children.map (Tree.ty? program)) :
    ∃ model' : Model, model'.Extends model ∧
      (numberer.numberOf key).2.Models program code model' slots ∧
      model'.typing (numberer.numberOf key).1 = some (tree.ty? program) ∧
      model'.meaning (numberer.numberOf key).1 =
        some (key.head.view (tree.ty? program) types views) := by
  have hhas : tree.node.isStatement = false → List.Forall₂ (fun value child =>
      Value.Has model.typing numberer.numbering.partials value (child.ty? program)) key.operands
        tree.children :=
    fun hoperand => List.forall₂_map_right_iff.mp (hchildren hoperand ▸ htypes)
  have hknown number (hentry : (key, number) ∈ numberer.table) :=
    hmodels.typed.eq_of_mem houtlines hfollow hcontains hhead hhas hentry
  obtain ⟨typing', htyping, htyped, hty⟩ := hmodels.typed.numberOf key hcontains hhead hhas hknown
  obtain ⟨number, hentry, hknows⟩ | ⟨-, hnew⟩ := numberer.numberOf_cases key
  · rw [hknows]
    obtain ⟨ty, types', views', hty', htypes', hviews', hview⟩ := hmodels.table key number hentry
    obtain rfl := Option.some.inj (hty'.symm.trans (hknown number hentry))
    obtain rfl : types' = types :=
      List.right_unique_forall₂' (fun _ _ _ hhas hhas' => hhas.unique hhas') htypes' htypes
    obtain rfl : views' = views :=
      List.right_unique_forall₂' (fun _ _ _ hstands hstands' => hstands.unique hstands')
        hviews' hviews
    exact ⟨model, .refl _, hmodels, hty', hview⟩
  · rw [hnew] at htyped hty ⊢
    obtain ⟨meaning', hmeaning, hview, hallocated⟩ :=
      hmodels.exists_view (key.head.view (tree.ty? program) types views)
    have hextends : Model.Extends ⟨typing', meaning'⟩ model := ⟨htyping, hmeaning⟩
    refine ⟨⟨typing', meaning'⟩, hextends, ⟨htyped, hallocated, fun id history hlookup =>
      (hmodels.histories id history hlookup).mono hmeaning, fun other number hentry => ?_⟩,
        hty, hview⟩
    obtain ⟨rfl, rfl⟩ | hold := mem_table_withKey.mp hentry
    · exact ⟨_, types, views, hty, htypes.imp fun _ _ hhas => hhas.mono htyping
        (List.Subset.refl _), hviews.imp fun _ _ hstands => hstands.mono hmeaning, hview⟩
    · exact (hmodels.table other number hold).mono hextends (List.Subset.refl _)

theorem noted (hmodels : numberer.Models program code model slots)
    {tree : Tree} {number : ValueNumber} (hcontains : code.Contains tree)
    (hnumber : model.typing number = some (tree.ty? program)) (eligible : NodeKinds) :
    (numberer.noted eligible tree number).Models program code model slots := by
  obtain ⟨occurrences, -, hnoted⟩ := numberer.exists_noted_eq eligible tree number
  have htyped := hmodels.typed.noted hcontains hnumber eligible
  rw [hnoted] at htyped ⊢
  exact hmodels.of_extends (.refl _) htyped hmodels.allocated (List.Subset.refl _) rfl
    fun _ _ hlookup => .inl ⟨hlookup, rfl⟩

/-- The slots after a write to one variable. -/
theorem writeWhole (hmodels : numberer.Models program code model slots)
    {root : VarId} {value : Value} {slots' : Array Lanes}
    (hhas : value.Has model.typing numberer.numbering.partials (program.varTy? root))
    (hshows : value.Shows model.meaning (slots'.getD root.index []))
    (hother : ∀ other ≠ root, slots'.getD other.index [] = slots.getD other.index []) :
    (numberer.writeWhole root value).Models program code model slots' := by
  refine hmodels.of_extends (.refl _) (hmodels.typed.writeWhole hhas) hmodels.allocated
    (List.Subset.refl _) rfl fun other history hlookup => ?_
  change ((root, (numberer.histories.lookup root).getD [] ++ value) :: numberer.histories).lookup
    other = _ at hlookup
  rw [List.lookup_cons] at hlookup
  split at hlookup
  · next hsame =>
    obtain rfl := eq_of_beq hsame
    obtain rfl := Option.some.inj hlookup
    obtain ⟨view, hstands, hcovers⟩ := hshows
    exact .inr ⟨view, hstands.append, hcovers⟩
  · next hapart => exact .inl ⟨hlookup, hother other (ne_of_beq_false hapart)⟩

theorem writePart (hmodels : numberer.Models program code model slots)
    {root : VarId} (value : Value) {slots' : Array Lanes}
    (hother : ∀ other ≠ root, slots'.getD other.index [] = slots.getD other.index []) :
    ∃ model' : Model, model'.Extends model ∧
      (numberer.writePart root value).Models program code model' slots' := by
  have htainted : (numberer.taint value).Models program code model slots :=
    hmodels.of_extends (.refl _) (hmodels.typed.of_extends (.refl _) hmodels.typed.allocated
      (List.subset_append_right _ _) rfl rfl fun _ _ => .inl) hmodels.allocated
      (List.subset_append_right _ _) rfl fun _ _ hlookup => .inl ⟨hlookup, rfl⟩
  obtain ⟨typing', htyping, htyped⟩ := hmodels.typed.writePart root value
  obtain ⟨model₁, hextends₁, hstate₁, -⟩ := htainted.history root
  obtain ⟨meaning', hmeaning, hview, hallocated⟩ :=
    hstate₁.exists_view (.ofLanes (slots'.getD root.index []))
  have hextends : Model.Extends ⟨typing', meaning'⟩ model :=
    ⟨htyping, hextends₁.meaning.trans hmeaning⟩
  have hkept : ((numberer.taint value).history root).2.table = numberer.table ∧
      ((numberer.taint value).history root).2.numbering.partials = value ++
        numberer.numbering.partials ∧
      ∀ other ≠ root, ((numberer.taint value).history root).2.histories.lookup other =
        numberer.histories.lookup other := by
    rcases (numberer.taint value).history_cases root
      with ⟨history, -, hhistory⟩ | hhistory <;> rw [hhistory]
    · exact ⟨rfl, rfl, fun _ _ => rfl⟩
    · exact ⟨rfl, rfl,
        fun other hapart => by rw [List.lookup_cons, beq_eq_false_iff_ne.mpr hapart]; rfl⟩
  obtain ⟨htable, hpartials, hlookups⟩ := hkept
  rw [writePart_eq] at htyped ⊢
  refine ⟨_, hextends, hmodels.of_extends hextends htyped hallocated ?_ htable
    fun other history hlookup => ?_⟩
  · change _ ⊆ _ :: ((numberer.taint value).history root).2.numbering.partials
    rw [hpartials]
    exact List.subset_cons_of_subset _ (List.subset_append_right _ _)
  · change ((root, _ ++ [_]) :: ((numberer.taint value).history root).2.histories).lookup other = _
      at hlookup
    rw [List.lookup_cons] at hlookup
    split at hlookup
    · next hsame =>
      obtain rfl := eq_of_beq hsame
      obtain rfl := Option.some.inj hlookup
      exact .inr ⟨_, (Value.Stands.single hview).append, View.covers_ofLanes _⟩
    · next hapart =>
      have hapart := ne_of_beq_false hapart
      exact .inl ⟨(hlookups other hapart).symm.trans hlookup, hother other hapart⟩

end Numberer.Models

/-! ### Operands -/

namespace Numberer

variable {numberer : Numberer} {other : NodeId} {found : Value}

theorem eq_or_of_value?_setValue {id : NodeId} {value : Value}
    (hvalue : (numberer.setValue id value).numbering.value? other = some found) :
    numberer.numbering.value? other = some found ∨ other = id ∧ found = value := by
  by_cases hsame : other = id
  · subst hsame
    rw [value?_setValue_self] at hvalue
    exact .inr ⟨rfl, (Option.some.inj hvalue).symm⟩
  · rw [value?_setValue_of_ne hsame] at hvalue
    exact .inl hvalue

theorem eq_or_of_value?_noted {eligible : NodeKinds} {tree : Tree} {number : ValueNumber}
    (hvalue : (numberer.noted eligible tree number).numbering.value? other = some found) :
    numberer.numbering.value? other = some found ∨ other = tree.id ∧ found = [number] := by
  obtain ⟨occurrences, -, hnoted⟩ := numberer.exists_noted_eq eligible tree number
  rw [hnoted] at hvalue
  exact eq_or_of_value?_setValue hvalue

end Numberer

section Numbering

variable {program : Program} {code : Code} {model : Model} {slots : Array Lanes}
  {eligible : NodeKinds} {state stop : Numberer}

variable (houtlines : program.Outlines code) (hconsistent : program.TypeConsistent)

include houtlines hconsistent

/-- Operands get values of their types that stand for what they give, and so do all the nodes in
them. -/
theorem Numbers.models {trees : List Tree} {values : List Value}
    (hnumbers : Numbers eligible state trees values stop)
    (hsized : program.Sized slots) (hcontains : ∀ tree ∈ trees, code.Contains tree)
    (hmodels : state.Models program code model slots) :
    ∃ model' : Model, model'.Extends model ∧ stop.Models program code model' slots ∧
      state.numbering.partials ⊆ stop.numbering.partials ∧
      List.Forall₂ (Value.Has model'.typing stop.numbering.partials) values
        (trees.map (Tree.ty? program)) ∧
      (∃ views, List.Forall₂ (Value.Stands model'.meaning) values views ∧
        List.Forall₂ (Tree.Gives program slots) trees views) ∧
      ∀ id value, stop.numbering.value? id = some value →
        state.numbering.value? id = some value ∨ model'.Explains program code slots id value := by
  induction hnumbers generalizing model with
  | nil =>
    exact ⟨model, .refl _, hmodels, List.Subset.refl _, .nil, ⟨[], .nil, .nil⟩, fun _ _ => .inl⟩
  | @read state stop id read children rest values hrest ih =>
    obtain ⟨hfirst, hlater⟩ := List.forall_mem_cons.mp hcontains
    obtain ⟨model₁, hextends₁, hstate, hhas, view, hstands, hcovers⟩ := hmodels.read read
    obtain ⟨model₂, hextends₂, hstop, hpartials, htypes, ⟨views, hviews, hgive⟩, hvalues⟩ :=
      ih hlater (hstate.setValue id _)
    have hsame : (state.read read).2.numbering.partials = state.numbering.partials :=
      Numberer.partials_history read
    have hpartials : state.numbering.partials ⊆ stop.numbering.partials := hsame ▸ hpartials
    have hty : Tree.ty? program ⟨id, .variable read, children⟩ = program.varTy? read := by
      rw [Tree.ty?_mk]
      rfl
    have hgives : Tree.Gives program slots ⟨id, .variable read, children⟩ view :=
      .of_variable id children hcovers
    refine ⟨model₂, hextends₁.trans hextends₂, hstop, hpartials,
      .cons (hty ▸ hhas.mono hextends₂.typing hpartials) htypes,
      ⟨_, .cons (hstands.mono hextends₂.meaning) hviews, .cons hgives hgive⟩,
      fun other value hvalue => ?_⟩
    refine (hvalues other value hvalue).elim (fun hset => ?_) .inr
    refine (Numberer.eq_or_of_value?_setValue hset).imp (fun hold => ?_) fun ⟨hid, heq⟩ => ?_
    · rwa [Numbering.value?, Numberer.values_read] at hold
    · exact Model.Explains.mono ⟨_, _, _, hfirst, hid.symm, heq ▸ hty ▸ hhas, heq ▸ hstands, hgives⟩
        hextends₂
  | @compute state between stop tree rest values key hhead hoperand hchildren hrest ih ih' =>
    obtain ⟨htree, hlater⟩ := List.forall_mem_cons.mp hcontains
    obtain ⟨model₁, hextends₁, hbetween, hpartials₁, htypes, ⟨views, hviews, hgive⟩, hvalues⟩ :=
      ih (fun child => htree.child) hmodels
    obtain ⟨model₂, hextends₂, hcounted, hty, hview⟩ := hbetween.numberOf houtlines
      hconsistent.toTypesFollow htree hhead htypes hviews fun _ => rfl
    obtain ⟨model₃, hextends₃, hstop, hpartials₃, htypes', ⟨views', hviews', hgive'⟩, hvalues'⟩ :=
      ih' hlater (hcounted.noted htree hty eligible)
    rw [Numberer.partials_noted, Numberer.partials_numberOf] at hpartials₃
    have hgives := houtlines.gives_of_head hconsistent hsized htree hhead hoperand hgive
    refine ⟨model₃, (hextends₁.trans hextends₂).trans hextends₃, hstop,
      List.Subset.trans hpartials₁ hpartials₃, .cons (.single (hextends₃.typing _ _ hty)) htypes',
      ⟨_, .cons (.single (hextends₃.meaning _ _ hview)) hviews', .cons hgives hgive'⟩,
      fun other value hvalue => ?_⟩
    refine (hvalues' other value hvalue).elim (fun hset => ?_) .inr
    rcases Numberer.eq_or_of_value?_noted hset with hold | ⟨hid, heq⟩
    · rw [Numbering.value?, Numberer.values_numberOf] at hold
      exact (hvalues other value hold).imp_right fun hexplains =>
        hexplains.mono (hextends₂.trans hextends₃)
    · exact .inr (.mono ⟨tree, _, [], htree, hid.symm, heq ▸ .single hty, heq ▸ .single hview,
          hgives⟩ hextends₃)

end Numbering

end ShaderIR
