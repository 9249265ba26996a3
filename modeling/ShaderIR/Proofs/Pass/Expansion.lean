import Mathlib.Logic.Function.Basic
import ShaderIR.Proofs.Graph.Expansion
import ShaderIR.Proofs.Pass.Depth

/-!
Programs in which rows of statements stand for single ones. `Program.RowFor` says what a row looks
like that a pass puts in the place of a statement, and `Program.Expanded` that a program came about
when statements of another one were replaced by such rows. Replacing one more statement keeps this
(`Program.Expanded.replace`), and the statement lists of such a program are those of a code with
rows in the same places (`Program.Expanded.exists_frames`). `Program.Spares` says that only certain
nodes are not what they were.
-/

set_option autoImplicit false

namespace ShaderIR

/-- A node without the statements of the lists that it owns. -/
def Node.bare : Node → Node
  | .branch condition _ _ => .branch condition [] []
  | .loop _ => .loop []
  | node => node

theorem Node.bare_withBody (node : Node) (ref : ListRef) (statements : List NodeId) :
    (node.withBody ref statements).bare = node.bare := by
  unfold withBody
  split <;> rfl

namespace Program

variable {origin program program' program'' : Program} {code : Code} {row : NodeId → List NodeId}
  {id : NodeId}

/-- A program without the statements of its lists. -/
def bare (program : Program) : Program :=
  { program with nodes := program.nodes.map Node.bare, body := [] }

theorem node_bare_eq_ok_iff {id : NodeId} {found : Node} :
    program.bare.node id = .ok found ↔ ∃ node, program.node id = .ok node ∧ node.bare = found := by
  simp only [node_eq_ok_iff, bare, Array.getElem?_map, Option.map_eq_some_iff]

theorem bare_setNode {id : NodeId} {node node' : Node} (hnode : program.node id = .ok node)
    (hsame : node'.bare = node.bare) : (program.setNode id node').bare = program.bare := by
  obtain ⟨hlt, hget⟩ := Array.getElem?_eq_some_iff.mp (node_eq_ok_iff.mp hnode)
  have hnodes :
      (program.nodes.setIfInBounds id.index node').map Node.bare = program.nodes.map Node.bare := by
    refine Array.ext (by simp) fun index hleft hright => ?_
    by_cases hindex : id.index = index
    · subst hindex
      simp [hget, hsame]
    · rw [Array.getElem_map, Array.getElem_map,
        Array.getElem_setIfInBounds_ne (by simpa using hright) hindex]
  exact congrArg (fun nodes => { program with nodes, body := [] }) hnodes

theorem bare_setList {ref : ListRef} {statements : List NodeId}
    (hset : program.setList ref statements = .ok program') :
    program'.bare = program.bare := by
  cases ref with
  | root =>
    obtain rfl := Except.ok.inj hset
    rfl
  | thenBody owner | elseBody owner | loopBody owner =>
    obtain ⟨node, hnode, hset⟩ := bind_eq_ok_iff.mp hset
    split at hset
    · obtain rfl := Except.ok.inj hset
      exact bare_setNode hnode rfl
    · cases hset

/-- The statements of a row stand for a statement: all others are new, and it comes last unless it
is a call. -/
structure RowFor (origin program : Program) (id : NodeId) (row : List NodeId) : Prop where
  nodup : row.Nodup
  new : ∀ statement ∈ row, statement = id ∨
    origin.nodes.size ≤ statement.index ∧ program.WritesWhole statement
  ends : row.getLast? = some id ∨
    row ≠ [] ∧ ∃ callee arguments result, origin.node id = .ok (.call callee arguments result)

theorem rowFor_singleton (origin program : Program) (id : NodeId) :
    origin.RowFor program id [id] where
  nodup := List.nodup_singleton _
  new _ hmem := Or.inl (List.mem_singleton.mp hmem)
  ends := Or.inl rfl

namespace RowFor

variable {statements : List NodeId} (hrow : origin.RowFor program id statements)

include hrow

theorem ne_nil : statements ≠ [] := by
  rcases hrow.ends with hlast | ⟨hne, -⟩
  · rintro rfl
    cases hlast
  · exact hne

theorem trans (htrims : program.Trims program') : origin.RowFor program' id statements where
  nodup := hrow.nodup
  new statement hmem := (hrow.new statement hmem).imp_right (And.imp_right htrims.writesWhole)
  ends := hrow.ends

theorem lt_size (hid : id.index < program.nodes.size) : ∀ statement ∈ statements,
    statement.index < program.nodes.size := by
  intro statement hmem
  rcases hrow.new statement hmem with rfl | ⟨-, target, value, hnode⟩
  · exact hid
  · exact lt_size_of_node hnode

/-- A row for a statement of a later program stands for it in an earlier one as well. -/
theorem since {origin₀ : Program} (htrims : origin₀.Trims origin)
    (hid : id.index < origin₀.nodes.size) :
    origin₀.RowFor program id statements where
  nodup := hrow.nodup
  new statement hmem := (hrow.new statement hmem).imp_right (And.imp_left htrims.size.trans)
  ends := by
    refine hrow.ends.imp_right (And.imp_right ?_)
    rintro ⟨callee, arguments, result, hnode⟩
    obtain ⟨node, horigin⟩ := exists_node_of_lt hid
    obtain ⟨found, hfound, hresembles, -⟩ := htrims.node id node horigin
    obtain rfl := Except.ok.inj (hfound.symm.trans hnode)
    cases hresembles with
    | alike halike => cases halike; exact ⟨_, _, _, horigin⟩

/-- A statement that still stands for itself gets a row, and no statement comes twice among all
rows. -/
theorem nodup_update {ids : List NodeId} {row : NodeId → List NodeId} (hids : ids.Nodup)
    (hnodup : (ids.flatMap row).Nodup) (hid : id ∈ ids) (hself : row id = [id])
    (hold : ∀ other ∈ ids, ∀ statement ∈ row other, statement.index < origin.nodes.size) :
    (ids.flatMap (Function.update row id statements)).Nodup := by
  -- a statement of the new row is the old one or newer than all others
  have hapart {other : NodeId} (hother : other ∈ ids) (hne : other ≠ id) :
      (row other).Disjoint statements := by
    intro statement hstatement hnew
    rcases hrow.new statement hnew with rfl | ⟨hnew, -⟩
    · exact hne (eq_of_mem_flatMap hnodup hother hid hstatement (by simp [hself]))
    · exact absurd (hold other hother statement hstatement) (Nat.not_lt.mpr hnew)
  refine List.nodup_flatMap.mpr ⟨fun statement hstatement => ?_,
    hids.pairwise_of_forall_ne fun first hfirst second hsecond hne => ?_⟩
  · by_cases hsame : statement = id
    · rw [hsame, Function.update_self]
      exact hrow.nodup
    · rw [Function.update_of_ne hsame]
      exact (List.nodup_flatMap.mp hnodup).1 statement hstatement
  · change List.Disjoint _ _
    by_cases hsame : first = id
    · rw [hsame, Function.update_self, Function.update_of_ne (hsame ▸ hne.symm)]
      exact (hapart hsecond (hsame ▸ hne.symm)).symm
    · rw [Function.update_of_ne hsame]
      by_cases hsame' : second = id
      · rw [hsame', Function.update_self]
        exact hapart hfirst hsame
      · rw [Function.update_of_ne hsame']
        exact fun _ hleft hright => hne (eq_of_mem_flatMap hnodup hfirst hsecond hleft hright)

/-- A statement that is no call stands at the end of its row. -/
theorem exists_concat {node : Node} (hnode : origin.node id = .ok node)
    (hcall : ∀ callee arguments result, node ≠ .call callee arguments result) : ∃ earlier,
      statements = earlier ++ [id] ∧ ∀ statement ∈ earlier, program.WritesWhole statement := by
  rcases hrow.ends with hlast | ⟨-, callee, arguments, result, hfound⟩
  · obtain ⟨earlier, rfl⟩ := List.getLast?_eq_some_iff.mp hlast
    refine ⟨earlier, rfl, fun statement hmem => ?_⟩
    rcases hrow.new statement (List.mem_append_left _ hmem) with rfl | ⟨-, hwrites⟩
    · exact absurd (List.mem_singleton_self _)
        (fun hself => (List.nodup_append'.mp hrow.nodup).2.2 hmem hself)
    · exact hwrites
  · exact absurd (Except.ok.inj (hnode.symm.trans hfound)) (hcall _ _ _)

end RowFor

/-- Statements of a program have been replaced by rows of statements; nothing has become deeper. -/
structure Expanded (origin : Program) (code : Code) (row : NodeId → List NodeId)
    (program : Program) : Prop where
  trims : origin.Trims program
  lists : ∀ entry ∈ code.lists .root, program.list entry.1 = .ok (entry.2.flatMap row)
  nodup : (code.order.flatMap row).Nodup
  rows : ∀ statement ∈ code.order, origin.RowFor program statement (row statement)

theorem expanded_self (hframes : origin.Frames code) :
    origin.Expanded code (fun id => [id]) origin where
  trims := .refl origin
  lists entry hentry := by rw [List.flatMap_singleton', hframes.list_of_mem_lists hentry]
  nodup := by rw [List.flatMap_singleton']; exact hframes.nodup_order
  rows _ _ := rowFor_singleton ..

/-- Statements that own no lists stand in front of a code. -/
theorem exists_steps {statements : List NodeId}
    (hstatements : ∀ statement ∈ statements, ∃ node, program.node statement = .ok node ∧
      node.lists statement = []) : ∃ steps : List Tree, statements = steps.map Tree.id ∧
        ∀ rest, program.FramesCode rest → program.FramesCode (Code.prepend steps rest) := by
  induction statements with
  | nil => exact ⟨[], rfl, fun _ => id⟩
  | cons first rest ih =>
    obtain ⟨⟨node, hnode, hlists⟩, hrest⟩ := List.forall_mem_cons.mp hstatements
    obtain ⟨steps, rfl, hprepend⟩ := ih hrest
    exact ⟨⟨first, node, []⟩ :: steps, rfl,
      fun code hcode => .step hnode hlists (hprepend code hcode)⟩

namespace Expanded

variable (hexpanded : origin.Expanded code row program)

include hexpanded

/-! ### The code of an expanded program -/

/-- The statements of the row of a control statement, but for itself, own no lists. -/
theorem exists_control {node : Node} (hid : id ∈ code.order) (hnode : origin.node id = .ok node)
    (hcall : ∀ callee arguments result, node ≠ .call callee arguments result) :
    ∃ node' steps, program.node id = .ok node' ∧ node.Resembles node' ∧
      row id = steps.map Tree.id ++ [id] ∧
        ∀ rest, program.FramesCode rest → program.FramesCode (Code.prepend steps rest) := by
  obtain ⟨node', hnode', hresembles, -⟩ := hexpanded.trims.node id node hnode
  obtain ⟨earlier, hrow, hwrites⟩ := (hexpanded.rows id hid).exists_concat hnode hcall
  obtain ⟨steps, rfl, hprepend⟩ := exists_steps fun statement hmem => by
    obtain ⟨target, value, hassign⟩ := hwrites statement hmem
    exact ⟨_, hassign, rfl⟩
  exact ⟨node', steps, hnode', hresembles, hrow, hprepend⟩

theorem exists_expands {part : Code} (hframed : origin.FramesCode part)
    (horder : part.order ⊆ code.order) (hbodies : part.bodies ⊆ code.bodies) :
    ∃ part', program.FramesCode part' ∧ part.Expands row part' := by
  have hlist {ref : ListRef} {statements : List NodeId} (hmem : (ref, statements) ∈ part.bodies) :
      program.list ref = .ok (statements.flatMap row) :=
    hexpanded.lists _ (List.mem_cons_of_mem _ (hbodies hmem))
  induction hframed with
  | nil => exact ⟨.nil, .nil, .nil⟩
  | @step statement rest hstatement hlists _ ih =>
    rw [Code.order_step, List.cons_subset] at horder
    obtain ⟨rest', hrest, hexpands⟩ := ih horder.2 hbodies hlist
    have hrow := hexpanded.rows _ horder.1
    obtain ⟨steps, hsteps, hprepend⟩ := exists_steps fun other hmem => by
      rcases hrow.new other hmem with rfl | ⟨-, target, value, hassign⟩
      · obtain ⟨node', hnode', hresembles, -⟩ := hexpanded.trims.node _ _ hstatement
        exact ⟨node', hnode', hresembles.lists_eq _ ▸ hlists⟩
      · exact ⟨_, hassign, rfl⟩
    have hne : steps ≠ [] := by
      rintro rfl
      exact hrow.ne_nil hsteps
    exact ⟨_, hprepend _ hrest, .step hsteps hne hexpands⟩
  | @branch statement condition thenBody elseBody rest hstatement hnode _ _ _ ihthen ihelse ih =>
    simp only [Code.order_branch, Code.bodies, List.cons_subset, List.append_subset]
      at horder hbodies
    obtain ⟨thenBody', hthen, hexpandsThen⟩ :=
      ihthen horder.2.1.1 hbodies.1.1.2 fun hmem => hlist (by simp [Code.bodies, hmem])
    obtain ⟨elseBody', helse, hexpandsElse⟩ :=
      ihelse horder.2.1.2 hbodies.1.2.2 fun hmem => hlist (by simp [Code.bodies, hmem])
    obtain ⟨rest', hrest, hexpands⟩ :=
      ih horder.2.2 hbodies.2 fun hmem => hlist (by simp [Code.bodies, hmem])
    rw [hnode] at hstatement
    obtain ⟨node', steps, hnode', hresembles, hrow, hprepend⟩ :=
      hexpanded.exists_control horder.1 hstatement (by simp)
    obtain ⟨condition', first, second, rfl⟩ := hresembles.exists_branch
    have hfirst : thenBody'.heads = first := hexpandsThen.heads_eq.trans
      (Except.ok.inj ((hlist (by simp [Code.bodies])).symm.trans (list_thenBody hnode')))
    have hsecond : elseBody'.heads = second := hexpandsElse.heads_eq.trans
      (Except.ok.inj ((hlist (by simp [Code.bodies])).symm.trans (list_elseBody hnode')))
    subst hfirst hsecond
    have hbranch : program.FramesCode (.branch ⟨statement.id, _, []⟩ thenBody' elseBody' rest') :=
      .branch hnode' rfl hthen helse hrest
    exact ⟨_, hprepend _ hbranch, .branch hrow rfl hexpandsThen hexpandsElse hexpands⟩
  | @loop statement body rest hstatement hnode _ _ ihbody ih =>
    simp only [Code.order_loop, Code.bodies, List.cons_subset, List.append_subset] at horder hbodies
    obtain ⟨body', hbody, hexpandsBody⟩ :=
      ihbody horder.2.1 hbodies.1.2 fun hmem => hlist (by simp [Code.bodies, hmem])
    obtain ⟨rest', hrest, hexpands⟩ :=
      ih horder.2.2 hbodies.2 fun hmem => hlist (by simp [Code.bodies, hmem])
    rw [hnode] at hstatement
    obtain ⟨node', steps, hnode', hresembles, hrow, hprepend⟩ :=
      hexpanded.exists_control horder.1 hstatement (by simp)
    obtain ⟨first, rfl⟩ := hresembles.exists_loop
    have hfirst : body'.heads = first := hexpandsBody.heads_eq.trans
      (Except.ok.inj ((hlist (by simp [Code.bodies])).symm.trans (list_loopBody hnode')))
    subst hfirst
    have hloop : program.FramesCode (.loop ⟨statement.id, _, []⟩ body' rest') :=
      .loop hnode' rfl hbody hrest
    exact ⟨_, hprepend _ hloop, .loop hrow rfl hexpandsBody hexpands⟩

/-- The statement lists of an expanded program are those of a code with rows in the same places. -/
theorem exists_frames (hframes : origin.Frames code) :
    ∃ code', program.Frames code' ∧ code.Expands row code' := by
  obtain ⟨code', hframed, hexpands⟩ :=
    hexpanded.exists_expands hframes.framed (List.Subset.refl _) (List.Subset.refl _)
  refine ⟨code', ⟨hframed, ?_, ?_⟩, hexpands⟩
  · rw [hexpands.heads_eq]
    exact Except.ok.inj (hexpanded.lists (.root, code.heads) List.mem_cons_self)
  · rw [hexpands.order_eq]
    exact hexpanded.nodup

/-! ### One more statement -/

theorem lt_size (hframes : origin.Frames code) (hid : id ∈ code.order) {statement : NodeId}
    (hmem : statement ∈ row id) : statement.index < program.nodes.size :=
  (hexpanded.rows id hid).lt_size ((hframes.framed.lt_size hid).trans_le hexpanded.trims.size)
    statement hmem

variable {replaced : List NodeId}

/-- A row of the program after an edit stands for a statement of the program before all edits. -/
theorem rowFor (hframes : origin.Frames code) (hid : id ∈ code.order)
    (hrow : program.RowFor program' id replaced) : origin.RowFor program' id replaced :=
  hrow.since hexpanded.trims (hframes.framed.lt_size hid)

/-- The program after a statement that still stood for itself has been replaced by a row. -/
theorem replace (hframes : origin.Frames code) (hself : row id = [id])
    {entry : ListRef × List NodeId} (hentry : entry ∈ code.lists .root) {before after : List NodeId}
    (hlist : entry.2 = before ++ id :: after) (htrims : program.Trims program')
    (hkept : ∀ ref statements, program.list ref = .ok statements →
      program'.list ref = .ok statements) (hrow : program.RowFor program' id replaced)
    (hset : program'.setList entry.1 (before.flatMap row ++ replaced ++ after.flatMap row) =
      .ok program'') : origin.Expanded code (Function.update row id replaced) program'' := by
  have hmem : id ∈ entry.2 := by simp [hlist]
  have hid : id ∈ code.order := Code.mem_order_of_mem_lists hentry hmem
  have hold := hkept _ _ (hexpanded.lists entry hentry)
  have htrims' := htrims.trans (trims_setList hset hold)
  have hself' {statements : List NodeId} (hnot : id ∉ statements) :
      statements.flatMap (Function.update row id replaced) = statements.flatMap row :=
    List.flatMap_congr fun statement hstatement =>
      Function.update_of_ne (ne_of_mem_of_not_mem hstatement hnot) _ _
  refine ⟨hexpanded.trims.trans htrims', fun other hother => ?_,
    hrow.nodup_update hframes.nodup_order hexpanded.nodup hid hself fun other hother _ =>
      hexpanded.lt_size hframes hother, fun statement hstatement => ?_⟩
  · by_cases hsame : other.1 = entry.1
    · obtain rfl : other = entry := Prod.ext hsame (Except.ok.inj
        ((hframes.list_of_mem_lists hother).symm.trans (hsame ▸ hframes.list_of_mem_lists hentry)))
      have hnodup := Code.nodup_of_mem_lists hframes.nodup_order hother
      rw [hlist, List.nodup_append', List.nodup_cons, List.disjoint_cons_right] at hnodup
      rw [list_setList_self hset hold, hlist, List.flatMap_append, List.flatMap_cons,
        hself' hnodup.2.2.1, hself' hnodup.2.1.1, Function.update_self, List.append_assoc]
    · rw [list_setList_of_ne hset hold hsame (hkept _ _ (hexpanded.lists other hother)),
        hself' fun hmem' =>
          hsame (congrArg Prod.fst
            (Code.eq_of_mem_lists hframes.nodup_order hother hentry hmem' hmem))]
  · by_cases hsame : statement = id
    · rw [hsame, Function.update_self]
      exact (hexpanded.rowFor hframes hid hrow).trans (trims_setList hset hold)
    · rw [Function.update_of_ne hsame]
      exact (hexpanded.rows statement hstatement).trans htrims'

end Expanded

/-! ### Nodes that are what they were -/

/-- All nodes that have not been `reached` are what they were, but for the lists that they own. -/
def Spares (origin : Program) (reached : NodeId → Prop) (program : Program) : Prop :=
  ∀ id node, origin.node id = .ok node → ¬ reached id → ∃ node', program.node id = .ok node' ∧
    node'.bare = node.bare

theorem spares_self (origin : Program) (reached : NodeId → Prop) : origin.Spares reached origin :=
  fun _ node hnode _ => ⟨node, hnode, rfl⟩

theorem Spares.mono {reached reached' : NodeId → Prop} (hspares : origin.Spares reached program)
    (hreached : ∀ id, reached id → reached' id) : origin.Spares reached' program :=
  fun id node hnode hnot => hspares id node hnode fun h => hnot (hreached id h)

theorem Spares.trans {reached reached' : NodeId → Prop} (hfirst : origin.Spares reached program)
    (hsecond : program.Spares reached' program') :
    origin.Spares (fun id => reached id ∨ reached' id) program' := by
  intro id node hnode hnot
  obtain ⟨node', hnode', hsame⟩ := hfirst id node hnode fun hreached => hnot (Or.inl hreached)
  obtain ⟨node'', hnode'', hsame'⟩ := hsecond id node' hnode' fun hreached => hnot (Or.inr hreached)
  exact ⟨node'', hnode'', hsame'.trans hsame⟩

theorem spares_setList {ref : ListRef} {statements replaced : List NodeId}
    (hset : program.setList ref replaced = .ok program') (hlist : program.list ref = .ok statements)
    (reached : NodeId → Prop) : program.Spares reached program' := by
  rcases exists_of_setList hset hlist with ⟨-, rfl⟩ | ⟨owner, node, hnode, -, rfl⟩
  · exact fun _ node hnode _ => ⟨node, hnode, rfl⟩
  · intro id found hfound _
    by_cases hid : id = owner
    · subst hid
      obtain rfl := Except.ok.inj (hnode.symm.trans hfound)
      exact ⟨_, node_setNode_self _ _ (lt_size_of_node hnode), node.bare_withBody ..⟩
    · exact ⟨found, (node_setNode_of_ne _ _ hid).trans hfound, rfl⟩

/-- Whatever edits make of the program, what stands below one of these nodes is one of them as well,
or a read of a variable. -/
def Encloses (origin : Program) (covers : NodeId → Prop) : Prop :=
  ∀ program, origin.Trims program → ∀ id node, covers id → program.node id = .ok node →
    ∀ child ∈ node.children, covers child ∨ program.Reads child

end Program

end ShaderIR
