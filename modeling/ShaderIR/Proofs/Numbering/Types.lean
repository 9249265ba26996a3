import ShaderIR.Proofs.Numbering.Clean
import ShaderIR.Proofs.Pass.Independence

/-!
Types of value numbers. Keys do not mention the types of what they stand for: these follow from the
operands when `Program.TypesFollow` says so of applied operators and texture operations, and when
whole variables are written with values of their own types. Then every number stands for values of
one type (`Numberer.Typed`, kept by every step of numbering), and the occurrences of a number agree
on it (`Graph.sameType_of_numberStatements`).
-/

set_option autoImplicit false

namespace ShaderIR

namespace Program

/-- Two nodes have the same type, or none of them has one. -/
def SameType (program : Program) (first second : NodeId) : Prop :=
  ∀ ty, program.typeOf first = .ok ty ↔ program.typeOf second = .ok ty

/-- The types of operators and texture operations follow from those of their operands, and what is
written to a whole variable has the type of the variable. -/
structure TypesFollow (program : Program) : Prop where
  applied : ∀ {id id' : NodeId} {op : Operator} {operands operands' : List NodeId} {ty ty' : Ty},
    program.Reachable id → program.Reachable id' → program.node id = .ok (.apply op operands ty) →
    program.node id' = .ok (.apply op operands' ty') →
    List.Forall₂ program.SameType operands operands' → ty = ty'
  sampled : ∀ {id id' : NodeId} {op : TextureOp} {channel : Option UInt8}
    {operands operands' : TextureOperands NodeId} {ty ty' : Ty},
    program.Reachable id → program.Reachable id' →
    program.node id = .ok (.texture op channel operands ty) →
    program.node id' = .ok (.texture op channel operands' ty') → operands.shape = operands'.shape →
    List.Forall₂ program.SameType operands.toList operands'.toList → ty = ty'
  assigned : ∀ {id target value : NodeId} {mask : UInt8}, program.Reachable id →
    program.node id = .ok (.assign target value mask) →
      program.isPartialWrite target mask = .ok false →
    program.SameType target value
  returned : ∀ {id target : NodeId} {callee : SignatureId} {arguments : List NodeId},
    program.Reachable id →
    program.node id = .ok (.call callee arguments (some target)) → program.CallsPurely id →
    program.isPartialWrite target 0 = .ok false → program.SameType target id

/-- The type that a variable is declared with. -/
def varTy? (program : Program) (id : VarId) : Option Ty :=
  program.vars[id.index]?.map Variable.ty

end Program

/-! ### The latest writes -/

namespace Numberer

/-- What a variable reads as are all its writes, or the last full one of them with those after
it. -/
theorem latest_cases (isPartial : ValueNumber → Bool) (history : Value) :
    latest isPartial history = history ∨ ∃ before number after,
      history = before ++ number :: after ∧
      isPartial number = false ∧ latest isPartial history = number :: after := by
  have hsplit := List.takeWhile_append_dropWhile (p := isPartial) (l := history.reverse)
  have hfull := List.head?_dropWhile_not isPartial history.reverse
  unfold latest
  generalize history.reverse.takeWhile isPartial = layers at hsplit ⊢
  generalize history.reverse.dropWhile isPartial = rest at hsplit hfull
  obtain rfl : history = rest.reverse ++ layers.reverse := by
    rw [← List.reverse_append, hsplit, List.reverse_reverse]
  cases rest with
  | nil => exact Or.inl (by simp)
  | cons number rest =>
    refine Or.inr ⟨rest.reverse, number, layers.reverse, by simp, by simpa using hfull, ?_⟩
    have hlength : (((number :: rest).reverse ++ layers.reverse).length - (layers.length + 1)) =
        rest.reverse.length := by
      simp only [List.length_append, List.length_reverse, List.length_cons]
      omega
    rw [hlength, List.reverse_cons, List.append_assoc, List.drop_left, List.singleton_append]

end Numberer

/-! ### Types of numbers -/

/-- The types that numbers stand for values of, as far as that is settled. -/
abbrev Typing :=
  ValueNumber → Option (Option Ty)

/-- More is settled. -/
def Typing.Extends (typing' typing : Typing) : Prop :=
  ∀ number ty, typing number = some ty → typing' number = some ty

theorem Typing.Extends.refl (typing : Typing) : typing.Extends typing :=
  fun _ _ => id

theorem Typing.Extends.trans {typing typing' typing'' : Typing} (hfirst : typing'.Extends typing)
    (hsecond : typing''.Extends typing') : typing''.Extends typing :=
  fun number ty hty => hsecond number ty (hfirst number ty hty)

/-- A value has the type of its first number, and of every other one that is no partial write. -/
def Value.Has (typing : Typing) (partials : List ValueNumber) (value : Value)
    (ty : Option Ty) : Prop :=
  ∃ first rest, value = first :: rest ∧ typing first = some ty ∧
    ∀ number ∈ rest, number ∉ partials → typing number = some ty

namespace Value.Has

variable {typing typing' : Typing} {partials partials' : List ValueNumber} {value value' : Value}
  {ty ty' : Option Ty}

theorem mono (hhas : value.Has typing partials ty) (hextends : typing'.Extends typing)
    (hpartials : partials ⊆ partials') : value.Has typing' partials' ty := by
  obtain ⟨first, rest, rfl, hfirst, hrest⟩ := hhas
  exact ⟨first, rest, rfl, hextends _ _ hfirst, fun number hmem hfull =>
    hextends _ _ (hrest number hmem fun hpartial => hfull (hpartials hpartial))⟩

theorem unique (hhas : value.Has typing partials ty) (hhas' : value.Has typing partials' ty') :
    ty = ty' := by
  obtain ⟨first, rest, rfl, hfirst, -⟩ := hhas
  obtain ⟨_, _, hsame, hfirst', -⟩ := hhas'
  obtain ⟨rfl, rfl⟩ := List.cons.inj hsame
  exact Option.some.inj (hfirst.symm.trans hfirst')

theorem single {number : ValueNumber} (hnumber : typing number = some ty) :
    Has typing partials [number] ty :=
  ⟨number, [], rfl, hnumber, by simp⟩

/-- Writes to a variable one after the other. -/
theorem append (hhas : value.Has typing partials ty)
    (hmore : ∀ number ∈ value', number ∉ partials → typing number = some ty) :
    Has typing partials (value ++ value') ty := by
  obtain ⟨first, rest, rfl, hfirst, hrest⟩ := hhas
  refine ⟨first, rest ++ value', rfl, hfirst, fun number hmem => ?_⟩
  rcases List.mem_append.mp hmem with hmem | hmem
  · exact hrest number hmem
  · exact hmore number hmem

theorem of_mem (hhas : value.Has typing partials ty) {number : ValueNumber} (hmem : number ∈ value)
    (hfull : number ∉ partials) : typing number = some ty := by
  obtain ⟨first, rest, rfl, hfirst, hrest⟩ := hhas
  rcases List.mem_cons.mp hmem with rfl | hmem
  · exact hfirst
  · exact hrest number hmem hfull

/-- A variable reads as a value of its type. -/
theorem latest (hhas : value.Has typing partials ty) :
    Has typing partials (Numberer.latest partials.contains value) ty := by
  rcases Numberer.latest_cases partials.contains value
    with hall | ⟨before, number, after, hsplit, hfull, hlatest⟩
  · rwa [hall]
  · have hfull : number ∉ partials := by simpa using hfull
    refine ⟨number, after, hlatest, hhas.of_mem (by simp [hsplit]) hfull, fun other hmem => ?_⟩
    exact hhas.of_mem (by simp [hsplit, hmem])

end Value.Has

/-- The numbers in use have types: what a variable was written is of its type, and so is what the
key of a computation says. -/
structure Numberer.Typed (program : Program) (code : Code) (typing : Typing) (numberer : Numberer) :
    Prop where
  allocated : ∀ number ty, typing number = some ty → number.index < numberer.numbering.allocated
  histories : ∀ id history, numberer.histories.lookup id = some history →
    history.Has typing numberer.numbering.partials (program.varTy? id)
  table : ∀ key number, (key, number) ∈ numberer.table → ∃ tree, code.Contains tree ∧
    tree.node.head? = some key.head ∧ typing number = some (tree.ty? program) ∧
    (tree.node.isStatement = false → List.Forall₂ (fun value child =>
      Value.Has typing numberer.numbering.partials value
        (child.ty? program)) key.operands tree.children)
  occurrences : ∀ occurrence ∈ numberer.numbering.occurrences, ∃ tree, code.Contains tree ∧
    tree.id = occurrence.1 ∧ typing occurrence.2 = some (tree.ty? program)

namespace Numberer

variable {program : Program} {code : Code} {typing typing' : Typing} {numberer numberer' : Numberer}

theorem typed_nil : Typed program code (fun _ => none) {} where
  allocated := by simp
  histories := by simp
  table := by simp
  occurrences := by simp

/-- More is settled, and variables have been written values of their types. -/
theorem Typed.of_extends (htyped : numberer.Typed program code typing)
    (hextends : typing'.Extends typing) (hallocated : ∀ number ty,
      typing' number = some ty → number.index < numberer'.numbering.allocated)
    (hpartials : numberer.numbering.partials ⊆ numberer'.numbering.partials)
    (htable : numberer'.table = numberer.table)
    (hoccurrences : numberer'.numbering.occurrences = numberer.numbering.occurrences)
    (hhistories : ∀ id history, numberer'.histories.lookup id = some history →
      numberer.histories.lookup id = some history ∨
        history.Has typing' numberer'.numbering.partials (program.varTy? id)) :
    numberer'.Typed program code typing' where
  allocated := hallocated
  histories id history hlookup := by
    rcases hhistories id history hlookup with hold | hnew
    · exact (htyped.histories id history hold).mono hextends hpartials
    · exact hnew
  table key number hentry := by
    obtain ⟨tree, hcontains, hhead, hty, hoperands⟩ := htyped.table key number (htable ▸ hentry)
    exact ⟨tree, hcontains, hhead, hextends _ _ hty, fun hoperand =>
      (hoperands hoperand).imp fun _ _ hhas => hhas.mono hextends hpartials⟩
  occurrences occurrence hmem := by
    obtain ⟨tree, hcontains, hid, hty⟩ := htyped.occurrences occurrence (hoccurrences ▸ hmem)
    exact ⟨tree, hcontains, hid, hextends _ _ hty⟩

theorem Typed.setValue (htyped : numberer.Typed program code typing) (id : NodeId) (value : Value) :
    (numberer.setValue id value).Typed program code typing :=
  htyped.of_extends (.refl _) htyped.allocated (List.Subset.refl _) rfl rfl fun _ _ => Or.inl

/-- A new number can stand for values of any type. -/
theorem Typed.fresh (htyped : numberer.Typed program code typing) (ty : Option Ty) :
    ∃ typing', typing'.Extends typing ∧ typing' numberer.fresh.1 = some ty ∧
      numberer.fresh.2.Typed program code typing' := by
  have hextends : Typing.Extends (Function.update typing numberer.fresh.1 (some ty)) typing := by
    intro number ty' hty
    rw [Function.update_of_ne _ _ _, hty]
    rintro rfl
    exact Nat.lt_irrefl _ (htyped.allocated _ _ hty)
  refine ⟨_, hextends, Function.update_self .., htyped.of_extends hextends
    (fun number ty' hty => ?_) (List.Subset.refl _) rfl rfl fun _ _ => Or.inl⟩
  change number.index < numberer.numbering.allocated + 1
  by_cases hfresh : number = numberer.fresh.1
  · rw [hfresh]
    exact Nat.lt_succ_self _
  · rw [Function.update_of_ne hfresh] at hty
    exact (htyped.allocated _ _ hty).trans (Nat.lt_succ_self _)

/-- The writes to a variable are of its type. -/
theorem Typed.history (htyped : numberer.Typed program code typing) (id : VarId) :
    ∃ typing', typing'.Extends typing ∧ (numberer.history id).2.Typed program code typing' ∧
      (numberer.history id).1.Has typing' numberer.numbering.partials (program.varTy? id) := by
  unfold Numberer.history
  split
  · next first rest hlookup =>
    exact ⟨typing, .refl _, htyped, htyped.histories id _ hlookup⟩
  · obtain ⟨typing', hextends, hnumber, hfresh⟩ := htyped.fresh (program.varTy? id)
    have hentry :
        Value.Has typing' numberer.numbering.partials [numberer.fresh.1] (program.varTy? id) :=
      .single hnumber
    refine ⟨typing', hextends, hfresh.of_extends (.refl _) hfresh.allocated
      (List.Subset.refl _) rfl rfl fun other history hlookup => ?_, hentry⟩
    rw [List.lookup_cons] at hlookup
    split at hlookup
    · next hsame =>
      obtain rfl := Option.some.inj hlookup
      exact Or.inr (eq_of_beq hsame ▸ hentry)
    · exact Or.inl hlookup

@[simp] theorem partials_history (id : VarId) :
    (numberer.history id).2.numbering.partials = numberer.numbering.partials := by
  unfold history
  split <;> rfl

@[simp] theorem partials_numberOf (key : Key) :
    (numberer.numberOf key).2.numbering.partials = numberer.numbering.partials := by
  unfold numberOf
  split <;> rfl

@[simp] theorem partials_noted (eligible : NodeKinds) (tree : Tree) (number : ValueNumber) :
    (numberer.noted eligible tree number).numbering.partials = numberer.numbering.partials := by
  unfold noted
  split <;> rfl

/-- A variable reads as a value of its type. -/
theorem Typed.read (htyped : numberer.Typed program code typing) (id : VarId) :
    ∃ typing', typing'.Extends typing ∧ (numberer.read id).2.Typed program code typing' ∧
      (numberer.read id).1.Has typing' (numberer.read id).2.numbering.partials
        (program.varTy? id) := by
  obtain ⟨typing', hextends, hstate, hhas⟩ := htyped.history id
  refine ⟨typing', hextends, hstate, ?_⟩
  change Value.Has typing' (numberer.history id).2.numbering.partials (latest
    (numberer.history id).2.numbering.partials.contains (numberer.history id).1) _
  rw [partials_history]
  exact hhas.latest

/-- A whole variable is written with a value of its type. -/
theorem Typed.writeWhole (htyped : numberer.Typed program code typing) {id : VarId} {value : Value}
    (hvalue : value.Has typing numberer.numbering.partials (program.varTy? id)) :
    (numberer.writeWhole id value).Typed program code typing := by
  refine htyped.of_extends (.refl _) htyped.allocated (List.Subset.refl _) rfl rfl
    fun other history hlookup => ?_
  change ((id, (numberer.histories.lookup id).getD [] ++ value) :: numberer.histories).lookup
    other = _ at hlookup
  rw [List.lookup_cons] at hlookup
  split at hlookup
  · next hsame =>
    obtain rfl := eq_of_beq hsame
    obtain rfl := Option.some.inj hlookup
    refine Or.inr ?_
    cases hold : numberer.histories.lookup other with
    | none => exact hvalue
    | some history =>
      exact (htyped.histories other history hold).append fun number hmem hfull =>
        hvalue.of_mem hmem hfull
  · exact Or.inl hlookup

/-- A part of a variable is written. -/
theorem Typed.writePart (htyped : numberer.Typed program code typing) (id : VarId) (value : Value) :
    ∃ typing', typing'.Extends typing ∧
      (numberer.writePart id value).Typed program code typing' := by
  have htainted : Typed program code typing
      { numberer with numbering.partials := value ++ numberer.numbering.partials } :=
    htyped.of_extends (.refl _) htyped.allocated (List.subset_append_right _ _) rfl rfl
      fun _ _ => Or.inl
  obtain ⟨typing', hextends, hstate, hhas⟩ := htainted.history id
  refine ⟨typing', hextends, hstate.of_extends (.refl _)
    (fun number ty hty => (hstate.allocated number ty hty).trans (Nat.lt_succ_self _)) ?_ rfl rfl
    fun other history hlookup => ?_⟩
  · exact List.subset_cons_of_subset _ (List.Subset.refl _)
  · change ((id, _ ++ [_]) :: _).lookup other = some history at hlookup
    rw [List.lookup_cons] at hlookup
    split at hlookup
    · next hsame =>
      obtain rfl := eq_of_beq hsame
      obtain rfl := Option.some.inj hlookup
      rw [← partials_history] at hhas
      exact Or.inr ((hhas.mono (.refl _) (List.subset_cons_of_subset _
        (List.Subset.refl _))).append fun number hmem hfull =>
          absurd (List.mem_singleton.mp hmem ▸ List.mem_cons_self) hfull)
    · exact Or.inl hlookup

/-- A computation gets a number of its type. -/
theorem Typed.numberOf (htyped : numberer.Typed program code typing) {tree : Tree} (key : Key)
    (hcontains : code.Contains tree) (hhead : tree.node.head? = some key.head)
    (hoperands : tree.node.isStatement = false → List.Forall₂ (fun value child =>
      Value.Has typing numberer.numbering.partials value
        (child.ty? program)) key.operands tree.children)
    (hknown : ∀ number, (key, number) ∈ numberer.table →
      typing number = some (tree.ty? program)) :
    ∃ typing', typing'.Extends typing ∧ (numberer.numberOf key).2.Typed program code typing' ∧
      typing' (numberer.numberOf key).1 = some (tree.ty? program) := by
  obtain ⟨number, hentry, hknows⟩ | ⟨-, hnew⟩ := numberer.numberOf_cases key
  · rw [hknows]
    exact ⟨typing, .refl _, htyped, hknown number hentry⟩
  · rw [hnew]
    obtain ⟨typing', hextends, hnumber, hfresh⟩ := htyped.fresh (tree.ty? program)
    refine ⟨typing', hextends, ⟨hfresh.allocated, hfresh.histories, fun other number hentry => ?_,
      hfresh.occurrences⟩, hnumber⟩
    obtain ⟨rfl, rfl⟩ | hentry := mem_table_withKey.mp hentry
    · exact ⟨tree, hcontains, hhead, hnumber, fun hoperand =>
        (hoperands hoperand).imp fun _ _ hhas => hhas.mono hextends (List.Subset.refl _)⟩
    · exact hfresh.table other number hentry

/-- A node is given a number of its type. -/
theorem Typed.noted (htyped : numberer.Typed program code typing)
    {tree : Tree} {number : ValueNumber}
    (hcontains : code.Contains tree) (hnumber : typing number = some (tree.ty? program))
    (eligible : NodeKinds) : (numberer.noted eligible tree number).Typed program code typing := by
  unfold Numberer.noted
  refine Typed.setValue ?_ _ _
  split
  · refine ⟨htyped.allocated, htyped.histories, htyped.table, fun occurrence hmem => ?_⟩
    rcases List.mem_append.mp hmem with hmem | hmem
    · exact htyped.occurrences occurrence hmem
    · obtain rfl := List.mem_singleton.mp hmem
      exact ⟨tree, hcontains, rfl, hnumber⟩
  · exact htyped

/-- A variable is written, with a value of its type if all of it is written. -/
theorem Typed.write (htyped : numberer.Typed program code typing)
    (part : Bool) {root : VarId} {value : Value}
    (hvalue : part = false → value.Has typing numberer.numbering.partials (program.varTy? root)) :
    ∃ typing', typing'.Extends typing ∧
      (numberer.write part root value).Typed program code typing' := by
  unfold Numberer.write
  cases part with
  | false => exact ⟨typing, .refl _, htyped.writeWhole (hvalue rfl)⟩
  | true => exact htyped.writePart root value

end Numberer

/-! ### Types of computations -/

section Code

variable {program : Program} {code : Code} {typing : Typing} {eligible : NodeKinds}

namespace Program.Outlines

variable (houtlines : program.Outlines code)

include houtlines

theorem sameType_iff {tree tree' : Tree}
    (hcontains : code.Contains tree) (hcontains' : code.Contains tree') :
    program.SameType tree.id tree'.id ↔ tree.ty? program = tree'.ty? program := by
  unfold SameType
  simp only [(houtlines.draws_of_contains hcontains).typeOf_eq_ok_iff
    (houtlines.nodup_of_contains hcontains),
    (houtlines.draws_of_contains hcontains').typeOf_eq_ok_iff
      (houtlines.nodup_of_contains hcontains')]
  exact ⟨Option.ext, fun hsame ty => by rw [hsame]⟩

/-- Computations with the same head have the same type if their operands do. -/
theorem ty?_eq_of_head (hfollow : program.TypesFollow) {tree tree' : Tree}
    (hcontains : code.Contains tree) (hcontains' : code.Contains tree') {head : Head}
    (hhead : tree.node.head? = some head) (hhead' : tree'.node.head? = some head)
    (hoperands : tree.node.isStatement = false → List.Forall₂ (fun child child' =>
      child.ty? program = child'.ty? program) tree.children tree'.children) :
    tree.ty? program = tree'.ty? program := by
  have hreachable := houtlines.reachable_of_contains hcontains
  have hreachable' := houtlines.reachable_of_contains hcontains'
  have hdraws := houtlines.draws_of_contains hcontains
  have hdraws' := houtlines.draws_of_contains hcontains'
  have hsame : tree.node.isStatement = false →
      List.Forall₂ program.SameType tree.node.children tree'.node.children := by
    intro hoperand
    rw [hdraws.children_eq, hdraws'.children_eq, List.forall₂_map_left_iff,
      List.forall₂_map_right_iff]
    have hpairs := (List.forall₂_and_left ..).mpr ⟨fun child hchild => hcontains.child hchild,
      ((List.forall₂_and_left ..).mpr ⟨fun child hchild => hcontains'.child hchild,
        (hoperands hoperand).flip⟩).flip⟩
    exact hpairs.imp fun _ _ ⟨hchild, hchild', htypes⟩ =>
      (houtlines.sameType_iff hchild hchild').mpr htypes
  obtain ⟨id, node, children⟩ := tree
  obtain ⟨id', node', children'⟩ := tree'
  rw [Tree.ty?_mk, Tree.ty?_mk]
  have hnode : program.node id = .ok node := hdraws.node_eq
  have hnode' : program.node id' = .ok node' := hdraws'.node_eq
  cases node <;> cases node'
    <;> simp only [Node.head?, Option.some.injEq, reduceCtorEq] at hhead hhead' <;> subst hhead
      <;> simp only [Head.constant.injEq, Head.field.injEq, Head.swizzle.injEq, Head.apply.injEq,
      Head.texture.injEq, Head.call.injEq, reduceCtorEq] at hhead'
  case constant.constant => rw [hhead']; rfl
  case index.index =>
    obtain _ | ⟨hbase, _⟩ := hoperands rfl
    · rfl
    · rw [List.map_cons, List.map_cons, Node.ty?, Node.ty?, hbase]
  case field.field =>
    subst hhead'
    obtain _ | ⟨hrecord, _⟩ := hoperands rfl
    · rfl
    · rw [List.map_cons, List.map_cons, Node.ty?, Node.ty?, hrecord]
  case swizzle.swizzle =>
    subst hhead'
    obtain _ | ⟨hvalue, _⟩ := hoperands rfl
    · rfl
    · rw [List.map_cons, List.map_cons, Node.ty?, Node.ty?, hvalue]
  case apply.apply =>
    subst hhead'
    exact congrArg some (hfollow.applied hreachable hreachable' hnode hnode' (hsame rfl))
  case texture.texture =>
    obtain ⟨rfl, rfl, hshape⟩ := hhead'
    exact congrArg some (hfollow.sampled hreachable hreachable' hnode hnode'
      (TextureOperands.shape_eq_of_packedShape hshape.symm) (hsame rfl))
  case call.call =>
    subst hhead'
    rfl

end Program.Outlines

/-! ### Steps of numbering -/

/-- A number that stands for a computation already is of its type. -/
theorem Numberer.Typed.eq_of_mem {numberer : Numberer} (houtlines : program.Outlines code)
    (hfollow : program.TypesFollow) (htyped : numberer.Typed program code typing) {tree : Tree}
    {key : Key} (hcontains : code.Contains tree) (hhead : tree.node.head? = some key.head)
    (hoperands : tree.node.isStatement = false → List.Forall₂ (fun value child =>
      Value.Has typing numberer.numbering.partials value
        (child.ty? program)) key.operands tree.children)
    {number : ValueNumber} (hentry : (key, number) ∈ numberer.table) :
    typing number = some (tree.ty? program) := by
  obtain ⟨known, hknown, hhead', hty, hoperands'⟩ := htyped.table key number hentry
  have hstatement : known.node.isStatement = tree.node.isStatement :=
    Node.isStatement_eq_of_head? (hhead'.trans hhead.symm) hhead'
  rw [hty, houtlines.ty?_eq_of_head hfollow hknown hcontains hhead' hhead fun hoperand => ?_]
  have hpairs := hoperands' hoperand
  have hpairs' := hoperands (hstatement ▸ hoperand)
  revert hpairs hpairs'
  generalize key.operands = values
  generalize known.children = children
  generalize tree.children = children'
  intro hpairs
  induction hpairs generalizing children' with
  | nil =>
    intro hpairs'
    cases hpairs'
    exact .nil
  | cons hfirst _ ih =>
    intro hpairs'
    obtain ⟨child', rest', hfirst', hrest', rfl⟩ := List.forall₂_cons_left_iff.mp hpairs'
    exact .cons (hfirst.unique hfirst') (ih rest' hrest')

/-- Operands have values of their types. -/
theorem Numbers.typed {state stop : Numberer} {trees : List Tree} {values : List Value}
    (hnumbers : Numbers eligible state trees values stop) (houtlines : program.Outlines code)
    (hfollow : program.TypesFollow) (hcontains : ∀ tree ∈ trees, code.Contains tree)
    (htyped : state.Typed program code typing) :
    ∃ typing', typing'.Extends typing ∧ stop.Typed program code typing' ∧
      state.numbering.partials ⊆ stop.numbering.partials ∧ List.Forall₂ (fun value tree =>
        Value.Has typing' stop.numbering.partials value (tree.ty? program)) values trees := by
  induction hnumbers generalizing typing with
  | nil => exact ⟨typing, .refl _, htyped, List.Subset.refl _, .nil⟩
  | @read state stop id read children rest values hrest ih =>
    obtain ⟨-, hlater⟩ := List.forall_mem_cons.mp hcontains
    obtain ⟨typing₁, hextends₁, hstate, hvalue⟩ := htyped.read read
    obtain ⟨typing₂, hextends₂, hstop, hpartials, hvalues⟩ := ih hlater (hstate.setValue id _)
    have hsame : (state.read read).2.numbering.partials = state.numbering.partials :=
      Numberer.partials_history read
    refine ⟨typing₂, hextends₁.trans hextends₂, hstop, hsame ▸ hpartials, .cons ?_ hvalues⟩
    rw [Tree.ty?_mk]
    exact hvalue.mono hextends₂ hpartials
  | @compute state between stop tree rest values key hhead hoperand hchildren hrest ih ih' =>
    obtain ⟨htree, hlater⟩ := List.forall_mem_cons.mp hcontains
    obtain ⟨typing₁, hextends₁, hbetween, hpartials₁, hoperands⟩ :=
      ih (fun child => htree.child) htyped
    obtain ⟨typing₂, hextends₂, hcounted, hnumber⟩ :=
      hbetween.numberOf key htree hhead (fun _ => hoperands)
      fun number => hbetween.eq_of_mem houtlines hfollow htree hhead fun _ => hoperands
    obtain ⟨typing₃, hextends₃, hstop, hpartials₃, hvalues⟩ :=
      ih' hlater (hcounted.noted htree hnumber eligible)
    rw [Numberer.partials_noted, Numberer.partials_numberOf] at hpartials₃
    exact ⟨typing₃, (hextends₁.trans hextends₂).trans hextends₃, hstop,
      List.Subset.trans hpartials₁ hpartials₃, .cons (.single (hextends₃ _ _ hnumber)) hvalues⟩

/-- A place that is written as a whole is a variable. -/
theorem Program.Draws.eq_variable_of_whole {target : Tree} (hdraws : program.Draws target)
    {root : VarId} (hroot : target.root? = some root) {mask : UInt8}
    (hwhole : program.isPartialWrite target.id mask = .ok false) :
    target.node = .variable root ∧ target.ty? program = program.varTy? root := by
  obtain ⟨id, node, children⟩ := target
  obtain ⟨found, hfound, hwhole⟩ := bind_eq_ok_iff.mp hwhole
  obtain rfl : node = found := Except.ok.inj (hdraws.node_eq.symm.trans hfound)
  rw [Tree.root?, Tree.fold_mk, ← Tree.root?] at hroot
  rw [Tree.ty?_mk]
  cases node with
  | «variable» written =>
    obtain rfl : written = root := Option.some.inj hroot
    exact ⟨rfl, rfl⟩
  | _ => cases hwhole

/-- The unknown values that a call writes have the types of what they are written to. -/
theorem Overwrites.typed {state stop : Numberer} {targets : List Tree}
    (hwrites : Overwrites program eligible state targets stop) (houtlines : program.Outlines code)
    (hfollow : program.TypesFollow) (hcontains : ∀ target ∈ targets, ∀ index ∈ target.indices,
      code.Contains index) (htyped : state.Typed program code typing) :
    ∃ typing', typing'.Extends typing ∧ stop.Typed program code typing' := by
  induction hwrites generalizing typing with
  | nil => exact ⟨typing, .refl _, htyped⟩
  | @cons state between stop target rest values root part hindices hroot hpart hrest ih =>
    obtain ⟨htarget, hlater⟩ := List.forall_mem_cons.mp hcontains
    obtain ⟨typing₁, hextends₁, hnumber, hfresh⟩ := htyped.fresh (program.varTy? root)
    obtain ⟨typing₂, hextends₂, hbetween, -, -⟩ := hindices.typed houtlines hfollow htarget hfresh
    obtain ⟨typing₃, hextends₃, hwritten⟩ := hbetween.write part fun _ =>
      Value.Has.single (hextends₂ _ _ hnumber)
    obtain ⟨typing₄, hextends₄, hstop⟩ := ih hlater hwritten
    exact ⟨typing₄, ((hextends₁.trans hextends₂).trans hextends₃).trans hextends₄, hstop⟩

/-- The indices in a place are parts of it. -/
theorem Code.Contains.indices {target : Tree} (hcontains : code.Contains target) :
    ∀ index ∈ target.indices, code.Contains index := by
  induction target using Tree.induction with
  | step id node children ih =>
    intro index hindex
    unfold Tree.indices at hindex
    split at hindex
    · next heq =>
      obtain ⟨rfl, rfl, rfl⟩ := Tree.mk.inj heq
      rcases List.mem_cons.mp hindex with rfl | hindex
      · exact hcontains.child (by simp)
      · exact ih _ (by simp) (hcontains.child (by simp)) index hindex
    · next heq =>
      obtain ⟨rfl, rfl, rfl⟩ := Tree.mk.inj heq
      exact ih _ (by simp) (hcontains.child (by simp)) index hindex
    · cases hindex

/-- A statement leaves numbers of types. -/
theorem NumbersStatement.typed {state stop : Numberer} {statement : Tree}
    (hnumbers : NumbersStatement program eligible state statement stop)
    (houtlines : program.Outlines code) (hfollow : program.TypesFollow)
    (hstatement : statement ∈ code.statements) (htyped : state.Typed program code typing) :
    ∃ typing', typing'.Extends typing ∧ stop.Typed program code typing' := by
  have hcontains := Code.Contains.of_statement hstatement
  have hreachable := houtlines.reachable_of_contains hcontains
  have hnode := (houtlines.draws_of_contains hcontains).node_eq
  cases hnumbers with
  | @assign valued stop id target value mask stored indices root part hvalue hindices hroot hpart =>
    have htarget : code.Contains target := hcontains.child (by simp)
    have hvalued : code.Contains value := hcontains.child (by simp)
    obtain ⟨typing₁, hextends₁, hstate₁, -, hvalues⟩ := hvalue.typed houtlines hfollow
      (by simpa using hvalued) htyped
    obtain ⟨typing₂, hextends₂, hstate₂, hpartials, -⟩ :=
      hindices.typed houtlines hfollow htarget.indices hstate₁
    obtain ⟨typing₃, hextends₃, hstop⟩ := hstate₂.write part (fun hwhole => show
      stored.Has _ _ (program.varTy? root) by
        subst hwhole
        have htypes := (houtlines.sameType_iff htarget hvalued).mp
          (hfollow.assigned hreachable hnode hpart)
        rw [← ((houtlines.draws_of_contains htarget).eq_variable_of_whole hroot hpart).2, htypes]
        exact (List.forall₂_cons.mp hvalues).1.mono hextends₂ hpartials)
    exact ⟨typing₃, (hextends₁.trans hextends₂).trans hextends₃, hstop⟩
  | @stored called stop id callee signature arguments target values indices root part hsignature
      hpure harguments hindices hroot hpart =>
    have htarget : code.Contains target := hcontains.child (by simp)
    obtain ⟨typing₁, hextends₁, hcalled, -, -⟩ := harguments.typed houtlines hfollow
      (fun argument hmem => hcontains.child (List.mem_append_left _ hmem)) htyped
    obtain ⟨typing₂, hextends₂, hcounted, hnumber⟩ := hcalled.numberOf (.call callee values)
      hcontains rfl nofun fun number => hcalled.eq_of_mem houtlines hfollow hcontains rfl nofun
    obtain ⟨typing₃, hextends₃, hstate₃, hpartials, -⟩ :=
      hindices.typed houtlines hfollow htarget.indices (hcounted.noted hcontains hnumber eligible)
    obtain ⟨typing₄, hextends₄, hstop⟩ := hstate₃.write part (fun hwhole => show
      Value.Has _ _ [(called.numberOf (.call callee values)).1] (program.varTy? root) by
        subst hwhole
        have hpurely : program.CallsPurely id := fun _ _ _ hcall => by
          obtain ⟨rfl, -⟩ := Node.call.inj (Except.ok.inj (hnode.symm.trans hcall))
          exact ⟨signature, hsignature, hpure⟩
        have htypes := (houtlines.sameType_iff htarget hcontains).mp
          (hfollow.returned hreachable hnode hpurely hpart)
        rw [← ((houtlines.draws_of_contains htarget).eq_variable_of_whole hroot hpart).2, htypes]
        exact .single (hextends₃ _ _ hnumber))
    exact ⟨typing₄, ((hextends₁.trans hextends₂).trans hextends₃).trans hextends₄, hstop⟩
  | @dropped called id callee signature arguments values hsignature hpure harguments =>
    obtain ⟨typing₁, hextends₁, hcalled, -, -⟩ := harguments.typed houtlines hfollow
      (fun argument => hcontains.child) htyped
    obtain ⟨typing₂, hextends₂, hcounted, -⟩ := hcalled.numberOf (.call callee values) hcontains
      rfl nofun fun number => hcalled.eq_of_mem houtlines hfollow hcontains rfl nofun
    exact ⟨typing₂, hextends₁.trans hextends₂, hcounted.setValue _ _⟩
  | @effectful called overwritten _ id callee signature arguments result values hsignature hpure
      hinputs hwritten hresult =>
    have hpassed : ∀ passed ∈ signature.params.zip arguments, code.Contains passed.2 :=
      fun passed hmem =>
      hcontains.child (List.mem_append_left _ (List.of_mem_zip hmem).2)
    have hchosen : ∀ test : Param × Tree → Bool,
        ∀ argument ∈ ((signature.params.zip arguments).filter test).map Prod.snd,
          code.Contains argument := by
      intro test argument hmem
      obtain ⟨passed, hchosen, rfl⟩ := List.mem_map.mp hmem
      exact hpassed passed (List.mem_of_mem_filter hchosen)
    obtain ⟨typing₁, hextends₁, hcalled, -, -⟩ := hinputs.typed houtlines hfollow (hchosen _) htyped
    obtain ⟨typing₂, hextends₂, hoverwritten⟩ := hwritten.typed houtlines hfollow
      (fun target hmem => (hchosen _ target hmem).indices) hcalled
    obtain ⟨typing₃, hextends₃, -, hfresh⟩ := hoverwritten.fresh none
    obtain ⟨typing₄, hextends₄, hstop⟩ := hresult.typed houtlines hfollow (fun target hmem =>
        (hcontains.child (List.mem_append_right _ hmem)).indices) (hfresh.setValue id _)
    exact ⟨typing₄, ((hextends₁.trans hextends₂).trans hextends₃).trans hextends₄, hstop⟩
  | @operands _ _ values hwrites hoperands =>
    obtain ⟨typing₁, hextends₁, hstop, -, -⟩ := hoperands.typed houtlines hfollow
      (fun operand => hcontains.child) htyped
    exact ⟨typing₁, hextends₁, hstop⟩

/-- Statements one after the other leave numbers of types. -/
theorem NumbersStatements.typed {state stop : Numberer} {statements : List Tree}
    (hnumbers : NumbersStatements program eligible state statements stop)
    (houtlines : program.Outlines code)
    (hfollow : program.TypesFollow) (hstatements : statements ⊆ code.statements)
    (htyped : state.Typed program code typing) : ∃ typing', stop.Typed program code typing' := by
  induction hnumbers generalizing typing with
  | nil => exact ⟨typing, htyped⟩
  | cons hfirst _ ih =>
    obtain ⟨hstatement, hrest⟩ := List.cons_subset.mp hstatements
    obtain ⟨_, -, hbetween⟩ := hfirst.typed houtlines hfollow hstatement htyped
    exact ih hrest hbetween

end Code

namespace Graph

variable {program : Program} {config limits : Config} {graph : Graph}

/-- Occurrences of one number in a block have the same type if types follow from operands. -/
theorem sameType_of_numberStatements (hcheck : program.check = .ok ())
    (hfollow : program.TypesFollow) (hbuild : Query.Answers (build program limits) graph)
    {block : BasicBlock} (hblock : block ∈ graph.blocks) {statements : List NodeId}
    (hstatements : block.statements program = .ok statements) {numbering : Numbering}
    (hnumbering : Query.Answers (program.numberStatements statements config) numbering)
    {first second : NodeId} {number : ValueNumber}
    (hfirst : (first, number) ∈ numbering.occurrences)
    (hsecond : (second, number) ∈ numbering.occurrences) : program.SameType first second := by
  obtain ⟨code, houtlines, hbuilt⟩ := exists_built_of_build hcheck hbuild
  have hrow := (hbuilt.depicts.holds block hblock).statements houtlines.frames
  obtain rfl := Except.ok.inj (hrow.symm.trans hstatements)
  obtain ⟨trees, htrees, hids⟩ := hbuilt.depicts.exists_trees hblock
  rw [← hids] at hnumbering
  obtain ⟨stop, hnumbers, rfl, -⟩ := Program.exists_numbers_of_numberStatements
    (fun tree htree => houtlines.draws.statement tree (htrees htree))
    (fun tree htree => houtlines.sound tree (htrees htree))
    (fun tree htree => houtlines.operands tree (htrees htree)) hnumbering
  obtain ⟨typing, htyped⟩ := hnumbers.typed houtlines hfollow htrees Numberer.typed_nil
  obtain ⟨tree, hcontains, rfl, hty⟩ := htyped.occurrences _ hfirst
  obtain ⟨tree', hcontains', rfl, hty'⟩ := htyped.occurrences _ hsecond
  exact (houtlines.sameType_iff hcontains hcontains').mpr (Option.some.inj (hty.symm.trans hty'))

/-- One number negated twice, the second time into a variable of some type, with a result of that
type. -/
def negatedTwice (ty : Ty) : Program where
  nodes := #[.variable ⟨1⟩, .variable ⟨0⟩, .apply .neg [⟨1⟩] .float, .assign ⟨0⟩ ⟨2⟩ 0,
    .variable ⟨2⟩, .variable ⟨0⟩, .apply .neg [⟨5⟩] ty, .assign ⟨4⟩ ⟨6⟩ 0]
  vars := #[⟨"x", .float, .auto⟩, ⟨"y", .float, .auto⟩, ⟨"z", ty, .auto⟩]
  body := [⟨3⟩, ⟨7⟩]

/-- What is known of the block of `negatedTwice`; the negations have one number. -/
def negatedTwiceNumbering : Numbering where
  values := [(⟨6⟩, [⟨1⟩]), (⟨5⟩, [⟨0⟩]), (⟨2⟩, [⟨1⟩]), (⟨1⟩, [⟨0⟩])]
  occurrences := [(⟨2⟩, ⟨1⟩), (⟨6⟩, ⟨1⟩)]
  allocated := 2

/-- The block of `negatedTwice`. -/
def negatedTwiceBlock : BasicBlock where
  id := ⟨0⟩
  ranges := [⟨.root, ⟨3⟩, ⟨7⟩⟩]

theorem typesFollow_negatedTwice : (negatedTwice .float).TypesFollow := by
  have hmem : ∀ {id node}, (negatedTwice .float).node id = .ok node →
      node ∈ (negatedTwice .float).nodes.toList := fun hnode =>
    Array.mem_toList_iff.mpr (Array.mem_of_getElem? (Program.node_eq_ok_iff.mp hnode))
  simp only [negatedTwice, List.mem_cons, List.not_mem_nil, or_false] at hmem
  refine ⟨fun _ _ hnode hnode' _ => ?_, fun _ _ hnode => ?_, fun _ hnode _ => ?_, fun _ hnode => ?_⟩
  · have hty := hmem hnode
    have hty' := hmem hnode'
    simp only [reduceCtorEq, Node.apply.injEq, false_or, or_false] at hty hty'
    rcases hty with ⟨-, -, rfl⟩ | ⟨-, -, rfl⟩ <;> rcases hty' with ⟨-, -, rfl⟩ | ⟨-, -, rfl⟩ <;> rfl
  · simpa using hmem hnode
  · have hassign := hmem hnode
    simp only [reduceCtorEq, Node.assign.injEq, false_or] at hassign
    rcases hassign with ⟨rfl, rfl, rfl⟩ | ⟨rfl, rfl, rfl⟩ <;> exact fun ty => Iff.rfl
  · simpa using hmem hnode

theorem sameType_of_numberStatements_negatedTwice : ∃ graph,
    Query.Answers (build (negatedTwice .float) { eligible := .all }) graph ∧
    negatedTwiceBlock ∈ graph.blocks ∧ 1 < negatedTwiceNumbering.redundancy ⟨1⟩ ∧
    (negatedTwice .float).SameType ⟨2⟩ ⟨6⟩ := by
  have hbuild : Query.Answers (build (negatedTwice .float) { eligible := .all })
      ⟨#[some negatedTwiceBlock], false⟩ := rfl
  have hnumbering :
      ((negatedTwice .float).numberStatements [⟨3⟩, ⟨7⟩] { eligible := .expression }).run =
      .ok (.ok negatedTwiceNumbering) := by decide +kernel
  exact ⟨_, hbuild, by decide, by decide, sameType_of_numberStatements rfl typesFollow_negatedTwice
    hbuild (by decide : negatedTwiceBlock ∈ _) rfl hnumbering
    (by decide : (⟨2⟩, ⟨1⟩) ∈ negatedTwiceNumbering.occurrences)
    (by decide : (⟨6⟩, ⟨1⟩) ∈ negatedTwiceNumbering.occurrences)⟩

/-- Without the condition on types they do not: nothing else keeps a computation from having any
type. -/
theorem not_sameType_negatedTwice :
    (negatedTwice (.vector .float 2)).check = .ok () ∧ ∃ graph,
    Query.Answers (build (negatedTwice (.vector .float 2)) { eligible := .all }) graph ∧
    negatedTwiceBlock ∈ graph.blocks ∧
    negatedTwiceBlock.statements (negatedTwice (.vector .float 2)) = .ok [⟨3⟩, ⟨7⟩] ∧
    Query.Answers ((negatedTwice (.vector .float 2)).numberStatements [⟨3⟩, ⟨7⟩]
      { eligible := .expression }) negatedTwiceNumbering ∧
    (⟨2⟩, ⟨1⟩) ∈ negatedTwiceNumbering.occurrences ∧
    (⟨6⟩, ⟨1⟩) ∈ negatedTwiceNumbering.occurrences ∧
    1 < negatedTwiceNumbering.redundancy ⟨1⟩ ∧
    ¬ (negatedTwice (.vector .float 2)).SameType ⟨2⟩ ⟨6⟩ := by
  have hbuild : Query.Answers (build (negatedTwice (.vector .float 2)) { eligible := .all })
      ⟨#[some negatedTwiceBlock], false⟩ := rfl
  have hnumbering : ((negatedTwice (.vector .float 2)).numberStatements [⟨3⟩, ⟨7⟩]
      { eligible := .expression }).run = .ok (.ok negatedTwiceNumbering) := by decide +kernel
  refine ⟨rfl, _, hbuild, by decide, rfl, hnumbering, by decide, by decide, by decide,
    fun hsame => ?_⟩
  have htypes : (negatedTwice (.vector .float 2)).typeOf ⟨6⟩ = .ok .float := (hsame .float).mp rfl
  cases htypes

end Graph

end ShaderIR
