import ShaderIR.Program.Typing
import ShaderIR.Proofs.Answers
import ShaderIR.Proofs.Node.Children
import ShaderIR.Proofs.Outline.Basic
import Mathlib.Data.List.Forall2

/-!
Types of operands as a function of trees. `Tree.ty?` is the type of an operand when the variables
and signatures of a program are given; `Program.Draws.ty?_of_typeOf` says that following the
references gives this type. A tree keeps its type when the program gets more variables
(`Tree.ty?_mono`), and a node keeps it when its children are replaced by others of the same types.
-/

set_option autoImplicit false

namespace ShaderIR

/-- The type of a node, given those of its children. -/
def Node.ty? (program : Program) (node : Node) (children : List (Option Ty)) : Option Ty :=
  match node, children with
  | .constant value, _ => some value.ty
  | .variable read, _ => program.vars[read.index]?.map Variable.ty
  | .index .., base :: _ => base.bind Ty.element?
  | .field _ number, record :: _ => record.bind fun ty => (ty.field? number).map Prod.snd
  | .apply _ _ ty, _ => some ty
  | .texture _ _ _ ty, _ => some ty
  | .swizzle _ mask, value :: _ => (value.bind Ty.scalar?).bind fun scalar =>
      (Ty.vectorOf scalar (UInt8.ofNat mask.length)).toOption
  | .call callee _ _, _ => program.signatures[callee.index]?.map Signature.returnTy
  | .assign .., _ | .branch .., _ | .loop .., _ | .ret .., _ | .discard .., _ => some .void
  | _, _ => none

/-- The type of an operand. -/
def Tree.ty? (program : Program) : Tree → Option Ty :=
  fold (Node.ty? program)

theorem Tree.ty?_mk (program : Program) (id : NodeId) (node : Node) (children : List Tree) :
    ty? program ⟨id, node, children⟩ = node.ty? program (children.map (ty? program)) :=
  fold_mk _ id node children

/-- A node keeps its type when its children keep theirs and the program gets more variables. -/
theorem Node.ty?_mono {program other : Program} {node node' : Node} (halike : node.Alike node')
    {children children' : List (Option Ty)}
    (hchildren : List.Forall₂ (fun child child' => ∀ ty, child = some ty → child' = some ty)
      children children') (hvars : ∀ (index : Nat) declared, program.vars[index]? = some declared →
      other.vars[index]? = some declared)
    (hsignatures : other.signatures = program.signatures) {ty : Ty}
    (hty : node.ty? program children = some ty) : node'.ty? other children' = some ty := by
  cases halike with
  | «variable» read =>
    obtain ⟨declared, hdeclared, rfl⟩ := Option.map_eq_some_iff.mp hty
    rw [Node.ty?, hvars _ _ hdeclared, Option.map_some]
  | index | field =>
    cases hchildren with
    | nil => cases hty
    | cons hfirst _ =>
      obtain ⟨firstTy, hfirstTy, hty⟩ := Option.bind_eq_some_iff.mp hty
      rw [Node.ty?, hfirst _ hfirstTy, Option.bind_some, hty]
  | swizzle =>
    cases hchildren with
    | nil => cases hty
    | cons hfirst _ =>
      obtain ⟨scalar, hscalar, hty⟩ := Option.bind_eq_some_iff.mp hty
      obtain ⟨firstTy, hfirstTy, hscalar⟩ := Option.bind_eq_some_iff.mp hscalar
      rw [Node.ty?, hfirst _ hfirstTy, Option.bind_some, hscalar, Option.bind_some, hty]
  | call => rwa [Node.ty?, hsignatures]
  | _ => exact hty

namespace Program

variable {program other : Program}

theorem Draws.ty?_of_typeWithin {tree : Tree} (hdraws : program.Draws tree) {steps : Nat} {ty : Ty}
    (hty : program.typeWithin steps tree.id = .ok ty) : tree.ty? program = some ty := by
  induction steps generalizing tree ty with
  | zero => cases hty
  | succ steps ih =>
    obtain ⟨id, node, children⟩ := tree
    have hchildren := hdraws.children_eq
    rw [typeWithin] at hty
    obtain ⟨_, hnode, hty⟩ := bind_eq_ok_iff.mp hty
    rw [hdraws.node_eq] at hnode
    obtain rfl := Except.ok.inj hnode
    rw [Tree.ty?_mk]
    cases node with
    | constant | apply | texture | assign | branch | loop | ret | discard =>
      rw [← Except.ok.inj hty]
      rfl
    | «variable» read =>
      obtain ⟨declared, hdeclared, hty⟩ := bind_eq_ok_iff.mp hty
      rw [Node.ty?, variableOf_eq_ok_iff.mp hdeclared, Option.map_some, Except.ok.inj hty]
    | index base position =>
      obtain ⟨base, position, rfl, rfl, rfl⟩ := Tree.exists_pair_of_ids hchildren
      obtain ⟨baseTy, hbase, hty⟩ := bind_eq_ok_iff.mp hty
      rw [List.map_cons, Node.ty?, ih (hdraws.child List.mem_cons_self) hbase, Option.bind_some]
      split at hty
      · next element helement => rw [helement, Except.ok.inj hty]
      · cases hty
    | field record number =>
      obtain ⟨record, rfl, rfl⟩ := Tree.exists_single_of_ids hchildren
      obtain ⟨recordTy, hrecord, hty⟩ := bind_eq_ok_iff.mp hty
      rw [List.map_cons, Node.ty?, ih (hdraws.child List.mem_cons_self) hrecord, Option.bind_some]
      split at hty
      · next hfield => rw [hfield, Option.map_some, Except.ok.inj hty]
      · cases hty
    | swizzle value mask =>
      obtain ⟨value, rfl, rfl⟩ := Tree.exists_single_of_ids hchildren
      obtain ⟨valueTy, hvalue, hty⟩ := bind_eq_ok_iff.mp hty
      rw [List.map_cons, Node.ty?, ih (hdraws.child List.mem_cons_self) hvalue, Option.bind_some]
      split at hty
      · next scalar hscalar => rw [hscalar, Option.bind_some, hty, Except.toOption]
      · cases hty
    | call callee arguments result =>
      obtain ⟨signature, hsignature, hty⟩ := bind_eq_ok_iff.mp hty
      rw [Node.ty?, fetch_eq_ok_iff.mp hsignature, Option.map_some, Except.ok.inj hty]

theorem Draws.ty?_of_typeOf {tree : Tree} (hdraws : program.Draws tree) {ty : Ty}
    (hty : program.typeOf tree.id = .ok ty) : tree.ty? program = some ty :=
  hdraws.ty?_of_typeWithin hty

theorem Draws.typeWithin_of_ty? {tree : Tree} (hdraws : program.Draws tree) {steps : Nat}
    (hheight : tree.height ≤ steps) {ty : Ty} (hty : tree.ty? program = some ty) :
    program.typeWithin steps tree.id = .ok ty := by
  induction steps generalizing tree ty with
  | zero => exact absurd tree.height_pos (by omega)
  | succ steps ih =>
    obtain ⟨id, node, children⟩ := tree
    have hids := hdraws.children_eq
    have hchild : ∀ child ∈ children, ∀ childTy, child.ty? program = some childTy →
        program.typeWithin steps child.id = .ok childTy := fun child hmem _ =>
      ih (hdraws.child hmem) (Tree.height_mk_le_iff.mp hheight child hmem)
    rw [Tree.ty?_mk] at hty
    refine bind_eq_ok_iff.mpr ⟨node, hdraws.node_eq, ?_⟩
    cases node with
    | constant | apply | texture | assign | branch | loop | ret | discard =>
      exact congrArg Except.ok (Option.some.inj hty)
    | «variable» read =>
      obtain ⟨declared, hdeclared, rfl⟩ := Option.map_eq_some_iff.mp hty
      exact bind_eq_ok_iff.mpr ⟨declared, variableOf_eq_ok_iff.mpr hdeclared, rfl⟩
    | index base position =>
      obtain ⟨base, position, rfl, rfl, rfl⟩ := Tree.exists_pair_of_ids hids
      obtain ⟨baseTy, hbase, helement⟩ := Option.bind_eq_some_iff.mp hty
      refine bind_eq_ok_iff.mpr ⟨baseTy, hchild base (by simp) _ hbase, ?_⟩
      rw [helement]
      rfl
    | field record number =>
      obtain ⟨record, rfl, rfl⟩ := Tree.exists_single_of_ids hids
      obtain ⟨recordTy, hrecord, hfield⟩ := Option.bind_eq_some_iff.mp hty
      obtain ⟨⟨name, found⟩, hfound, rfl⟩ := Option.map_eq_some_iff.mp hfield
      refine bind_eq_ok_iff.mpr ⟨recordTy, hchild record (by simp) _ hrecord, ?_⟩
      rw [hfound]
      rfl
    | swizzle value mask =>
      obtain ⟨value, rfl, rfl⟩ := Tree.exists_single_of_ids hids
      obtain ⟨scalar, hscalar, hvector⟩ := Option.bind_eq_some_iff.mp hty
      obtain ⟨valueTy, hvalue, hscalar⟩ := Option.bind_eq_some_iff.mp hscalar
      refine bind_eq_ok_iff.mpr ⟨valueTy, hchild value (by simp) _ hvalue, ?_⟩
      rw [hscalar]
      dsimp only
      revert hvector
      cases Ty.vectorOf scalar (UInt8.ofNat mask.length) with
      | error cause => rintro ⟨⟩
      | ok found => exact fun hfound => congrArg Except.ok (Option.some.inj hfound)
    | call callee arguments result =>
      obtain ⟨signature, hsignature, rfl⟩ := Option.map_eq_some_iff.mp hty
      exact bind_eq_ok_iff.mpr ⟨signature, fetch_eq_ok_iff.mpr hsignature, rfl⟩

/-- In a tree without repetitions, following the references gives just the type of the tree. -/
theorem Draws.typeOf_eq_ok_iff {tree : Tree} (hdraws : program.Draws tree) (hnodup : tree.ids.Nodup)
    {ty : Ty} : program.typeOf tree.id = .ok ty ↔ tree.ty? program = some ty :=
  ⟨hdraws.ty?_of_typeOf, hdraws.typeWithin_of_ty? ((hdraws.height_le hnodup).trans (Nat.le_succ _))⟩

end Program

namespace Tree

variable {program other : Program}

/-- A tree keeps its type when the program gets more variables. -/
theorem ty?_mono (hvars : ∀ (index : Nat) declared, program.vars[index]? = some declared →
      other.vars[index]? = some declared) (hsignatures : other.signatures = program.signatures)
    {tree : Tree} {ty : Ty} (hty : tree.ty? program = some ty) : tree.ty? other = some ty := by
  induction tree using Tree.induction generalizing ty with
  | step id node children ih =>
    rw [ty?_mk] at hty ⊢
    refine Node.ty?_mono (.refl node) ?_ hvars hsignatures hty
    rw [List.forall₂_map_left_iff, List.forall₂_map_right_iff, List.forall₂_same]
    exact fun child hchild ty => ih child hchild

end Tree

end ShaderIR
