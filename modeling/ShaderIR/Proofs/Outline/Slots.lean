import ShaderIR.Proofs.Outline.Order
import Mathlib.Data.List.Perm.Basic

/-!
Where nodes are referred to. A `Slot` is a place in a statement list or among the children of a
node, and `Program.Fills` says that something reachable refers to a node there. In a program with an
outline, what can be reached is what the outline contains (`Program.Outlines.exists_of_reachable`),
and every reachable node fills exactly one slot (`Program.Outlines.existsUnique_slot`).
-/

set_option autoImplicit false

namespace ShaderIR

/-- A place that holds a reference to a node. -/
inductive Slot
  | listed (ref : ListRef) (place : Nat)
  | operand (owner : NodeId) (place : Nat)
deriving DecidableEq

/-- A node is referred to in a slot of something reachable. -/
inductive Program.Fills (program : Program) (id : NodeId) : Slot → Prop
  | listed {ref : ListRef} {place : Nat} {statements : List NodeId}
    (hlists : program.Lists ref statements)
    (hid : statements[place]? = some id) : Fills program id (.listed ref place)
  | operand {owner : NodeId} {place : Nat} {node : Node} (howner : program.Reachable owner)
    (hnode : program.node owner = .ok node) (hid : node.children[place]? = some id) :
    Fills program id (.operand owner place)

/-! ### What a code contains -/

theorem Node.lists_of_operand {node : Node} (hoperand : node.isStatement = false) (id : NodeId) :
    node.lists id = [] := by
  cases node <;> first | rfl | cases hoperand

/-- A tree is a part of a statement of a code. -/
def Code.Contains (code : Code) (tree : Tree) : Prop :=
  ∃ statement ∈ code.statements, tree ∈ statement.subtrees

section

variable {program : Program} {code : Code}

theorem Code.Contains.child {tree child : Tree} (hcontains : code.Contains tree)
    (hchild : child ∈ tree.children) : code.Contains child := by
  obtain ⟨statement, hstatement, htree⟩ := hcontains
  exact ⟨statement, hstatement, Tree.subtrees_subset_of_mem htree
    (Tree.mem_subtrees_of_mem_children hchild child.mem_subtrees_self)⟩

theorem Code.Contains.of_statement {statement : Tree} (hstatement : statement ∈ code.statements) :
    code.Contains statement :=
  ⟨statement, hstatement, statement.mem_subtrees_self⟩

namespace Program.Outlines

variable (houtlines : program.Outlines code)

include houtlines

theorem draws_of_contains {tree : Tree} (hcontains : code.Contains tree) : program.Draws tree := by
  obtain ⟨statement, hstatement, htree⟩ := hcontains
  exact (houtlines.draws.statement statement hstatement).subtree tree htree

theorem reachable_of_contains {tree : Tree} (hcontains : code.Contains tree) :
    program.Reachable tree.id := by
  obtain ⟨statement, hstatement, htree⟩ := hcontains
  exact houtlines.reachable statement hstatement tree htree

theorem nodup_of_contains {tree : Tree} (hcontains : code.Contains tree) : tree.ids.Nodup := by
  obtain ⟨statement, hstatement, htree⟩ := hcontains
  have hstatementNodup := (List.nodup_flatMap.mp houtlines.nodup).1 statement hstatement
  exact hstatementNodup.sublist (Tree.ids_sublist_of_mem htree)

/-- Statements are no operands. -/
theorem mem_statements_of_isStatement {tree : Tree} (hcontains : code.Contains tree)
    (hstatement : tree.node.isStatement = true) : tree ∈ code.statements := by
  obtain ⟨statement, hmem, htree⟩ := hcontains
  rcases Tree.eq_or_mem_of_mem_subtrees htree with rfl | ⟨operand, hoperand, htree⟩
  · exact hmem
  · have hoperand := (houtlines.operands statement hmem operand hoperand tree htree).operand
    exact absurd (hoperand.symm.trans hstatement) Bool.false_ne_true

/-- Lists belong to statements. -/
theorem mem_statements_of_lists {tree : Tree} (hcontains : code.Contains tree) {ref : ListRef}
    (href : ref ∈ tree.node.lists tree.id) : tree ∈ code.statements := by
  refine houtlines.mem_statements_of_isStatement hcontains
    (Bool.eq_true_of_not_eq_false fun hoperand => ?_)
  rw [Node.lists_of_operand hoperand] at href
  cases href

/-- What can be reached is what the outline contains. -/
theorem exists_of_reachable {id : NodeId} (hreachable : program.Reachable id) :
    ∃ tree, code.Contains tree ∧ tree.id = id := by
  have hlisted {id : NodeId} (hid : id ∈ code.order) :
      ∃ tree, code.Contains tree ∧ tree.id = id := by
    obtain ⟨statement, hstatement, rfl⟩ := List.mem_map.mp hid
    exact ⟨statement, .of_statement hstatement, rfl⟩
  induction hreachable with
  | root hid => exact hlisted (code.heads_subset_order (houtlines.body ▸ hid))
  | child _ hnode hid ih =>
    obtain ⟨tree, hcontains, rfl⟩ := ih
    have hdraws := houtlines.draws_of_contains hcontains
    obtain rfl := Except.ok.inj (hdraws.node_eq.symm.trans hnode)
    rw [hdraws.children_eq] at hid
    obtain ⟨child, hchild, rfl⟩ := List.mem_map.mp hid
    exact ⟨child, hcontains.child hchild, rfl⟩
  | @nested owner id node ref statements _ hnode href hlist hid ih =>
    obtain ⟨tree, hcontains, rfl⟩ := ih
    obtain rfl := Except.ok.inj ((houtlines.draws_of_contains hcontains).node_eq.symm.trans hnode)
    have howner :=
      List.mem_map_of_mem (f := Tree.id) (houtlines.mem_statements_of_lists hcontains href)
    have hbody := houtlines.frames.framed.mem_bodies howner hnode href
    obtain rfl := Except.ok.inj (hlist.symm.trans (list_of_mem_lists hnode href))
    have hentry : _ ∈ code.lists .root := List.mem_cons_of_mem _ hbody
    exact hlisted (Code.mem_order_of_mem_lists hentry hid)

/-- Two parts of a code with one root are the same. -/
theorem eq_of_id {tree tree' : Tree} (hcontains : code.Contains tree)
    (hcontains' : code.Contains tree') (hid : tree.id = tree'.id) : tree = tree' :=
  (houtlines.draws_of_contains hcontains).unique (houtlines.draws_of_contains hcontains') hid

end Program.Outlines

end

/-! ### Slots -/

/-- The slots of the nodes of a tree, each with the id that it holds. -/
def Tree.slots (tree : Tree) : List (Slot × NodeId) :=
  tree.subtrees.flatMap fun owner =>
    owner.children.zipIdx.map fun child => (.operand owner.id child.2, child.1.id)

theorem Tree.mem_slots {tree owner child : Tree} {place : Nat} (howner : owner ∈ tree.subtrees)
    (hchild : owner.children[place]? = some child) :
    (.operand owner.id place, child.id) ∈ tree.slots :=
  List.mem_flatMap.mpr ⟨owner, howner, List.mem_map.mpr
    ⟨(child, place), List.mk_mem_zipIdx_iff_getElem?.mpr hchild, rfl⟩⟩

/-- The slots of a tree hold all of its nodes except the root. -/
theorem Tree.perm_slots (tree : Tree) : (tree.id :: tree.slots.map Prod.snd).Perm tree.ids := by
  induction tree using Tree.induction with
  | step id node children ih =>
    have hslots : (slots ⟨id, node, children⟩).map Prod.snd =
        children.map Tree.id ++ children.flatMap fun child => child.slots.map Prod.snd := by
      have howned : (children.zipIdx.map fun child => child.1.id) = children.map Tree.id := by
        nth_rewrite 2 [← children.zipIdx_map_fst 0]
        rw [List.map_map]
        rfl
      simp only [slots, subtrees_mk, List.flatMap_cons, List.flatMap_assoc, List.map_append,
        List.map_map, List.map_flatMap, Function.comp_def, howned]
    rw [hslots, ids_mk]
    refine ((List.map_append_flatMap_perm _ _ _).trans ?_).cons id
    exact List.Perm.flatMap_left _ ih

/-- The statements of a code and the slots of its trees hold all of its nodes. -/
theorem Code.perm_slots (code : Code) :
    (code.order ++ (code.statements.flatMap Tree.slots).map Prod.snd).Perm code.ids := by
  rw [Code.order, List.map_flatMap]
  exact (List.map_append_flatMap_perm _ _ _).trans
    (List.Perm.flatMap_left _ fun tree _ => tree.perm_slots)

namespace Program

variable {program : Program} {code : Code} {id : NodeId}

theorem Lists.getElem_unique (houtlines : program.Outlines code)
    {ref ref' : ListRef} {statements statements' : List NodeId} {place place' : Nat}
    (hlists : program.Lists ref statements) (hlists' : program.Lists ref' statements')
    (hid : statements[place]? = some id) (hid' : statements'[place']? = some id) :
    ref = ref' ∧ place = place' := by
  have hlists := hlists.mem_lists houtlines
  obtain ⟨rfl, rfl⟩ := Prod.mk.inj (Code.eq_of_mem_lists houtlines.nodup_order hlists
    (hlists'.mem_lists houtlines) (List.mem_of_getElem? hid) (List.mem_of_getElem? hid'))
  have hnodup := Code.nodup_of_mem_lists houtlines.nodup_order hlists
  obtain ⟨hlt, -⟩ := List.getElem?_eq_some_iff.mp hid
  exact ⟨rfl, (List.getElem?_inj hlt hnodup).mp (hid.trans hid'.symm)⟩

/-- A slot among the children of a node is one of the slots of the outline. -/
theorem Outlines.mem_slots (houtlines : program.Outlines code) {owner : NodeId} {place : Nat}
    (hfills : program.Fills id (.operand owner place)) :
    (.operand owner place, id) ∈ code.statements.flatMap Tree.slots := by
  cases hfills with | operand howner hnode hid
  obtain ⟨tree, hcontains, rfl⟩ := houtlines.exists_of_reachable howner
  have hdraws := houtlines.draws_of_contains hcontains
  obtain rfl := Except.ok.inj (hdraws.node_eq.symm.trans hnode)
  rw [hdraws.children_eq, List.getElem?_map] at hid
  obtain ⟨child, hchild, rfl⟩ := Option.map_eq_some_iff.mp hid
  obtain ⟨statement, hstatement, htree⟩ := hcontains
  exact List.mem_flatMap.mpr ⟨statement, hstatement, Tree.mem_slots htree hchild⟩

/-- What stands in a list is no operand of anything. -/
theorem Outlines.not_operand_of_mem_order (houtlines : program.Outlines code)
    (hid : id ∈ code.order) {owner : NodeId}
    {place : Nat} : ¬ program.Fills id (.operand owner place) := fun hfills =>
  List.disjoint_of_nodup_append (code.perm_slots.nodup_iff.mpr houtlines.nodup) hid
    (List.mem_map_of_mem (f := Prod.snd) (houtlines.mem_slots hfills))

/-- The owner of a list stands in a list itself, so its list is one of the statement lists. -/
theorem Outlines.lists_of_fills (houtlines : program.Outlines code) {owner : NodeId} {node : Node}
    {ref : ListRef} {statements : List NodeId} {slot : Slot} (hfills : program.Fills owner slot)
    (howner : program.Reachable owner) (hnode : program.node owner = .ok node)
    (href : ref ∈ node.lists owner) (hlist : program.list ref = .ok statements) :
    program.Lists ref statements := by
  cases hfills with
  | listed hlists hmem => exact .nested hlists (List.mem_of_getElem? hmem) hnode href hlist
  | operand howner' hnode' hmem =>
    obtain ⟨tree, hcontains, rfl⟩ := houtlines.exists_of_reachable howner
    obtain rfl := Except.ok.inj ((houtlines.draws_of_contains hcontains).node_eq.symm.trans hnode)
    have hlisted :=
      List.mem_map_of_mem (f := Tree.id) (houtlines.mem_statements_of_lists hcontains href)
    exact absurd (.operand howner' hnode' hmem) (houtlines.not_operand_of_mem_order hlisted)

/-- Every reachable node is referred to. -/
theorem Outlines.exists_slot (houtlines : program.Outlines code)
    (hreachable : program.Reachable id) :
    ∃ slot, program.Fills id slot := by
  have hplace {statements : List NodeId} {id : NodeId} (hid : id ∈ statements) :
      ∃ place : Nat, statements[place]? = some id := List.mem_iff_getElem?.mp hid
  induction hreachable with
  | root hid =>
    obtain ⟨place, hid⟩ := hplace hid
    exact ⟨_, .listed .root hid⟩
  | child howner hnode hid =>
    obtain ⟨place, hid⟩ := hplace hid
    exact ⟨_, .operand howner hnode hid⟩
  | nested howner hnode href hlist hid ih =>
    obtain ⟨place, hid⟩ := hplace hid
    obtain ⟨slot, hslot⟩ := ih
    exact ⟨_, .listed (houtlines.lists_of_fills hslot howner hnode href hlist) hid⟩

/-- Every reachable node is referred to exactly once. -/
theorem Outlines.existsUnique_slot (houtlines : program.Outlines code)
    (hreachable : program.Reachable id) :
    ∃! slot, program.Fills id slot := by
  have hlisted {ref : ListRef} {place : Nat} (hfills : program.Fills id (.listed ref place)) :
      id ∈ code.order := by
    obtain ⟨hlists, hid⟩ := hfills
    exact Code.mem_order_of_mem_lists (hlists.mem_lists houtlines) (List.mem_of_getElem? hid)
  have hunique : ∀ slot slot', program.Fills id slot → program.Fills id slot' → slot = slot' := by
    intro slot slot' hfills hfills'
    cases slot with
    | listed ref place =>
      cases slot' with
      | listed ref' place' =>
        obtain ⟨hlists, hid⟩ := hfills
        obtain ⟨hlists', hid'⟩ := hfills'
        obtain ⟨rfl, rfl⟩ := hlists.getElem_unique houtlines hlists' hid hid'
        rfl
      | operand => exact absurd hfills' (houtlines.not_operand_of_mem_order (hlisted hfills))
    | operand owner place =>
      cases slot' with
      | listed => exact absurd hfills (houtlines.not_operand_of_mem_order (hlisted hfills'))
      | operand owner' place' =>
        have hnodup := code.perm_slots.nodup_iff.mpr houtlines.nodup
        have hsame := List.inj_on_of_nodup_map hnodup.of_append_right (houtlines.mem_slots hfills)
          (houtlines.mem_slots hfills') rfl
        exact (Prod.mk.inj hsame).1
  obtain ⟨slot, hslot⟩ := houtlines.exists_slot hreachable
  exact ⟨slot, hslot, fun other hother => hunique other slot hother hslot⟩

end Program

end ShaderIR
