import ShaderIR.Proofs.Node.Children
import ShaderIR.Proofs.Outline.Basic

/-!
Statement lists after a change of the arena. `Program.list_setNode_of_alike` says that a node may be
overwritten by one that owns the same lists, and `Program.list_setList_self` and
`Program.list_setList_of_ne` what the lists are after one of them has been replaced.
-/

set_option autoImplicit false

namespace ShaderIR

theorem Node.Alike.bodyAt_eq {node node' : Node} (halike : node.Alike node') (ref : ListRef) :
    node.bodyAt ref = node'.bodyAt ref := by
  cases halike <;> cases ref <;> rfl

namespace Node

theorem lists_withBody (node : Node) (ref : ListRef) (statements : List NodeId) (id : NodeId) :
    (node.withBody ref statements).lists id = node.lists id := by
  unfold withBody
  split <;> rfl

theorem bodyAt_withBody_self {node : Node} {ref : ListRef} {owner : NodeId}
    (href : ref ∈ node.lists owner) (statements : List NodeId) :
    (node.withBody ref statements).bodyAt ref = statements := by
  cases node with
  | branch =>
    simp only [lists, List.mem_cons, List.not_mem_nil, or_false] at href
    rcases href with rfl | rfl <;> rfl
  | loop =>
    obtain rfl := List.mem_singleton.mp href
    rfl
  | _ => simp [lists] at href

theorem bodyAt_withBody_of_ne {node : Node} {ref other : ListRef} {owner : NodeId}
    (href : ref ∈ node.lists owner) (hother : other ∈ node.lists owner) (hne : other ≠ ref)
    (statements : List NodeId) :
    (node.withBody ref statements).bodyAt other = node.bodyAt other := by
  cases node with
  | branch =>
    simp only [lists, List.mem_cons, List.not_mem_nil, or_false] at href hother
    rcases href with rfl | rfl <;> rcases hother with rfl | rfl
    · exact absurd rfl hne
    · rfl
    · rfl
    · exact absurd rfl hne
  | loop =>
    obtain rfl := List.mem_singleton.mp href
    obtain rfl := List.mem_singleton.mp hother
    exact absurd rfl hne
  | _ => simp [lists] at href

end Node

namespace Program

variable {program program' : Program} {ref other : ListRef} {statements replaced : List NodeId}

/-- A list that exists is the root list or belongs to a node. -/
theorem exists_owner_of_list (hlist : program.list ref = .ok statements) :
    ref = .root ∧ program.body = statements ∨ ∃ owner node, program.node owner = .ok node ∧
      ref ∈ node.lists owner ∧ node.bodyAt ref = statements := by
  unfold list at hlist
  split at hlist
  · exact Or.inl ⟨rfl, Except.ok.inj hlist⟩
  all_goals
    next owner =>
    cases hnode : program.node owner with
    | error cause =>
      rw [hnode] at hlist
      cases hlist
    | ok node =>
      rw [hnode] at hlist
      cases node <;> cases hlist
      exact Or.inr ⟨owner, _, hnode, by simp [Node.lists], rfl⟩

theorem list_setNode_of_alike {id : NodeId} {node node' : Node} (hnode : program.node id = .ok node)
    (halike : node.Alike node') (hlist : program.list ref = .ok statements) :
    (program.setNode id node').list ref = .ok statements := by
  rcases exists_owner_of_list hlist with ⟨rfl, rfl⟩ | ⟨owner, found, hfound, href, rfl⟩
  · rfl
  · by_cases howner : owner = id
    · subst howner
      obtain rfl := Except.ok.inj (hnode.symm.trans hfound)
      rw [halike.bodyAt_eq]
      exact list_of_mem_lists (node_setNode_self _ _ (lt_size_of_node hnode))
        (halike.lists_eq _ ▸ href)
    · exact list_of_mem_lists ((node_setNode_of_ne _ _ howner).trans hfound) href

theorem list_withNode (hlist : program.list ref = .ok statements) (node : Node) :
    (program.withNode node).list ref = .ok statements := by
  rcases exists_owner_of_list hlist with ⟨rfl, rfl⟩ | ⟨owner, found, hfound, href, rfl⟩
  · rfl
  · exact list_of_mem_lists ((node_withNode_of_lt _ _ (lt_size_of_node hfound)).trans hfound) href

/-- Replacing a list that exists overwrites the node that owns it. -/
theorem exists_of_setList (hset : program.setList ref replaced = .ok program')
    (hlist : program.list ref = .ok statements) :
    ref = .root ∧ program' = { program with body := replaced } ∨ ∃ owner node,
      program.node owner = .ok node ∧ ref ∈ node.lists owner ∧
        program' = program.setNode owner (node.withBody ref replaced) := by
  rcases exists_owner_of_list hlist with ⟨rfl, -⟩ | ⟨owner, node, hnode, href, -⟩
  · exact Or.inl ⟨rfl, (Except.ok.inj hset).symm⟩
  · exact Or.inr ⟨owner, node, hnode, href,
      (Except.ok.inj ((setList_of_mem_lists hnode href replaced).symm.trans hset)).symm⟩

theorem exists_setList (hlist : program.list ref = .ok statements) (replaced : List NodeId) :
    ∃ program', program.setList ref replaced = .ok program' := by
  rcases exists_owner_of_list hlist with ⟨rfl, -⟩ | ⟨owner, node, hnode, href, -⟩
  · exact ⟨_, rfl⟩
  · exact ⟨_, setList_of_mem_lists hnode href replaced⟩

theorem list_setList_self (hset : program.setList ref replaced = .ok program')
    (hlist : program.list ref = .ok statements) : program'.list ref = .ok replaced := by
  rcases exists_of_setList hset hlist with ⟨rfl, rfl⟩ | ⟨owner, node, hnode, href, rfl⟩
  · rfl
  · rw [list_of_mem_lists (node_setNode_self _ _ (lt_size_of_node hnode))
      ((Node.lists_withBody ..).symm ▸ href), Node.bodyAt_withBody_self href]

theorem list_setList_of_ne (hset : program.setList ref replaced = .ok program')
    (hlist : program.list ref = .ok statements) (hne : other ≠ ref) {found : List NodeId}
    (hother : program.list other = .ok found) : program'.list other = .ok found := by
  rcases exists_of_setList hset hlist with ⟨rfl, rfl⟩ | ⟨owner, node, hnode, href, rfl⟩
  · rcases exists_owner_of_list hother with ⟨rfl, -⟩ | ⟨owner, node, hnode, hmem, rfl⟩
    · exact absurd rfl hne
    · exact list_of_mem_lists hnode hmem
  · rcases exists_owner_of_list hother with ⟨rfl, rfl⟩ | ⟨owner', node', hnode', hmem, rfl⟩
    · rfl
    · by_cases howner : owner' = owner
      · subst howner
        obtain rfl := Except.ok.inj (hnode.symm.trans hnode')
        rw [list_of_mem_lists (node_setNode_self _ _ (lt_size_of_node hnode))
          ((Node.lists_withBody ..).symm ▸ hmem), Node.bodyAt_withBody_of_ne href hmem hne]
      · exact list_of_mem_lists ((node_setNode_of_ne _ _ howner).trans hnode') hmem

end Program

end ShaderIR
