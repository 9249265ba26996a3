import ShaderIR.Proofs.Outline.Passing
import ShaderIR.Proofs.Pass.Expansion
import ShaderIR.Proofs.Pass.SharingEdits

/-!
Trees without lists. While statements of a program are edited, the lists that control statements own
change under them, so that the tree of such a statement is known up to these lists only
(`Tree.bare`). A program without its lists (`Program.bare`) draws the trees without theirs, and
`Program.Yields.append` adds up what has come up in it.
-/

set_option autoImplicit false

namespace ShaderIR

/-! ### Trees without lists -/

theorem Node.children_bare (node : Node) : node.bare.children = node.children := by
  cases node <;> rfl

theorem Node.bare_eq_of_isStatement {node : Node} (hoperand : node.isStatement = false) :
    node.bare = node := by
  cases node <;> first | rfl | cases hoperand

/-- A tree without the statements of the lists that its root owns. -/
def Tree.bare (tree : Tree) : Tree :=
  ⟨tree.id, tree.node.bare, tree.children⟩

namespace Tree

@[simp] theorem bare_id (tree : Tree) : tree.bare.id = tree.id :=
  rfl

@[simp] theorem bare_children (tree : Tree) : tree.bare.children = tree.children :=
  rfl

@[simp] theorem ids_bare (tree : Tree) : tree.bare.ids = tree.ids := by
  obtain ⟨id, node, children⟩ := tree
  rw [bare, ids_mk, ids_mk]

@[simp] theorem flatMap_ids_bare (trees : List Tree) :
    (trees.map bare).flatMap ids = trees.flatMap ids := by
  simp [List.flatMap_map]

theorem id_eq_of_bare_eq {tree tree' : Tree} (hsame : tree.bare = tree'.bare) :
    tree.id = tree'.id := by
  rw [← tree.bare_id, hsame, tree'.bare_id]

/-- Trees that are the same without lists are the same, or control statements. -/
theorem eq_or_of_bare_eq {tree tree' : Tree} (hsame : tree.bare = tree'.bare) : tree = tree' ∨
    (∃ id condition thenBody elseBody thenBody' elseBody' children,
      tree = ⟨id, .branch condition thenBody elseBody, children⟩ ∧
        tree' = ⟨id, .branch condition thenBody' elseBody', children⟩) ∨
    ∃ id body body' children, tree = ⟨id, .loop body, children⟩ ∧
      tree' = ⟨id, .loop body', children⟩ := by
  obtain ⟨id, node, children⟩ := tree
  obtain ⟨id', node', children'⟩ := tree'
  obtain ⟨rfl, hnode, rfl⟩ := Tree.mk.inj hsame
  cases node <;> cases node' <;> simp_all [Node.bare]

theorem withChildren_bare_eq {tree tree' : Tree}
    (hsame : tree.bare = tree'.bare) (children : List Tree) :
    (tree.withChildren children).bare = (tree'.withChildren children).bare := by
  rcases eq_or_of_bare_eq hsame with rfl | ⟨_, _, _, _, _, _, _, rfl, rfl⟩ | ⟨_, _, _, _, rfl, rfl⟩
  · rfl
  · cases children <;> rfl
  · rfl

end Tree

namespace Program

variable {program program' other : Program} {tree tree' statement : Tree}

theorem node_bare (program : Program) (id : NodeId) :
    program.bare.node id = (program.node id).map Node.bare := by
  simp only [Program.node, Program.bare, fetch, Array.getElem?_map, Array.size_map]
  cases program.nodes[id.index]? <;> rfl

theorem Draws.bare_of_operand (hdraws : program.Draws tree) (hoperand : other.SoundOperand tree) :
    program.bare.Draws tree := by
  induction hdraws with
  | intro hnode hchildren _ ih =>
    obtain ⟨hroot, hbelow⟩ := Tree.forall_subtrees_mk.mp hoperand
    exact .intro (node_bare_eq_ok_iff.mpr ⟨_, hnode, Node.bare_eq_of_isStatement hroot.operand⟩)
      hchildren fun child hchild => ih child hchild (hbelow child hchild)

theorem Draws.of_bare_of_operand (hdraws : program.bare.Draws tree)
    (hoperand : other.SoundOperand tree) :
    program.Draws tree := by
  induction hdraws with
  | @intro id node children hnode hchildren _ ih =>
    obtain ⟨hroot, hbelow⟩ := Tree.forall_subtrees_mk.mp hoperand
    obtain ⟨found, hfound, rfl⟩ := node_bare_eq_ok_iff.mp hnode
    have hstatement : found.isStatement = false := by
      have := hroot.operand
      cases found <;> first | rfl | exact this
    rw [Node.bare_eq_of_isStatement hstatement] at hchildren ⊢
    exact .intro hfound hchildren fun child hchild => ih child hchild (hbelow child hchild)

/-- A statement is drawn without its lists where it is drawn. -/
theorem Draws.bare (hdraws : program.Draws statement)
    (hoperands : ∀ operand ∈ statement.children, other.SoundOperand operand) :
    program.bare.Draws statement.bare :=
  .intro (node_bare_eq_ok_iff.mpr ⟨_, hdraws.node_eq, rfl⟩)
    ((Node.children_bare _).trans hdraws.children_eq)
    fun operand hoperand => (hdraws.child hoperand).bare_of_operand (hoperands operand hoperand)

/-- Where a statement is drawn without its lists, it is drawn with some lists. -/
theorem Draws.exists_of_bare (hdraws : program.bare.Draws statement.bare)
    (hoperands : ∀ operand ∈ statement.children, other.SoundOperand operand) :
    ∃ drawn, program.Draws drawn ∧ drawn.bare = statement.bare := by
  obtain ⟨node, hnode, hsame⟩ := node_bare_eq_ok_iff.mp hdraws.node_eq
  have hchildren := hdraws.children_eq
  rw [← hsame, Node.children_bare] at hchildren
  exact ⟨⟨statement.id, node, statement.children⟩, .intro hnode hchildren fun operand hoperand =>
    (hdraws.child hoperand).of_bare_of_operand (hoperands operand hoperand),
    congrArg (Tree.mk statement.id · statement.children) hsame⟩

theorem Sound.of_bare_eq (hsound : program.Sound tree) (hsame : tree.bare = tree'.bare) :
    program.Sound tree' := by
  rcases Tree.eq_or_of_bare_eq hsame
    with rfl | ⟨_, _, _, _, _, _, _, rfl, rfl⟩ | ⟨_, _, _, _, rfl, rfl⟩
  · exact hsound
  · cases hsound
    exact .branch ..
  · cases hsound
    exact .loop ..

theorem Suits.of_bare_eq (hsuits : program.Suits tree) (hsame : tree.bare = tree'.bare) :
    program.Suits tree' := by
  rcases Tree.eq_or_of_bare_eq hsame
    with rfl | ⟨_, _, _, _, _, _, children, rfl, rfl⟩ | ⟨_, _, _, _, rfl, rfl⟩
  · exact hsuits
  · rcases children with _ | ⟨_, _ | _⟩ <;> exact hsuits
  · trivial

theorem SoundStatement.of_bare_eq (hsound : program.SoundStatement tree)
    (hsame : tree.bare = tree'.bare) :
    program.SoundStatement tree' :=
  ⟨hsound.sound.of_bare_eq hsame, (congrArg Tree.children hsame) ▸ hsound.operands⟩

theorem SoundStatement.mono (hsound : program.SoundStatement tree)
    (hvars : program.vars.size ≤ program'.vars.size)
    (hsignatures : program'.signatures = program.signatures) :
    program'.SoundStatement tree where
  sound := hsound.sound.congr hsignatures
  operands operand hoperand below hbelow :=
    let hnode := hsound.operands operand hoperand below hbelow
    ⟨hnode.operand, fun read hread => (hnode.variable_lt read hread).trans_le hvars, hnode.arity⟩

namespace Yields

variable {program'' : Program} {old old' : List NodeId} {trees trees' : List Tree}

/-- Trees that have come up without the lists of their roots. -/
theorem bare (hyields : program.Yields program' old trees)
    (hoperands : ∀ tree ∈ trees, ∀ operand ∈ tree.children, other.SoundOperand operand) :
    program.bare.Yields program'.bare old (trees.map Tree.bare) where
  size_le := by simpa [Program.bare] using hyields.size_le
  frame id hlt hid := by
    rw [node_bare, node_bare, hyields.frame id (by simpa [Program.bare] using hlt) hid]
  vars := hyields.vars
  signatures := hyields.signatures
  draws tree htree := by
    obtain ⟨tree, hmem, rfl⟩ := List.mem_map.mp htree
    exact (hyields.draws tree hmem).bare (hoperands tree hmem)
  nodup := by
    rw [Tree.flatMap_ids_bare]
    exact hyields.nodup
  fresh id hid := by
    rw [Tree.flatMap_ids_bare] at hid
    simpa [Program.bare] using hyields.fresh id hid

/-- Trees that are left alone. -/
theorem of_separate (hseparate : program.Separate trees) :
    program.Yields program (trees.flatMap Tree.ids) trees := by
  simpa using (Grows.of_draws hseparate.draws hseparate.nodup).yields

/-- Trees that are not touched stay. -/
theorem separate (hyields : program.Yields program' old trees) (hseparate : program.Separate trees')
    (hdisjoint : (trees'.flatMap Tree.ids).Disjoint old) : program'.Separate trees' where
  draws tree htree := (hseparate.draws tree htree).congr fun id hid =>
    hyields.frame id ((hseparate.draws tree htree).lt_size hid) fun hmem =>
      hdisjoint (List.mem_flatMap.mpr ⟨tree, htree, hid⟩) hmem
  nodup := hseparate.nodup

/-- Trees that come up one after the other. -/
theorem append (hfirst : program.Yields program' old trees)
    (hsecond : program'.Yields program'' old' trees')
    (hdisjoint : old.Disjoint old') (hlt : ∀ id ∈ old', id.index < program.nodes.size) :
    program.Yields program'' (old ++ old') (trees ++ trees') := by
  -- nodes that have come up first are not touched later
  have hapart : ∀ id ∈ trees.flatMap Tree.ids, id ∉ old' := by
    intro id hid hid'
    rcases hfirst.fresh id hid with hmem | hnew
    · exact hdisjoint hmem hid'
    · exact absurd (hlt id hid') (by omega)
  have hkept : program''.Separate trees := hsecond.separate ⟨hfirst.draws, hfirst.nodup⟩ hapart
  refine ⟨hfirst.size_le.trans hsecond.size_le, fun id hid hmem => ?_,
    fun index declared hdeclared => hsecond.vars index declared
      (hfirst.vars index declared hdeclared), hsecond.signatures.trans hfirst.signatures,
    List.forall_mem_append.mpr ⟨hkept.draws, hsecond.draws⟩, ?_, fun id hid => ?_⟩
  · rw [List.mem_append, not_or] at hmem
    rw [hsecond.frame id (hid.trans_le hfirst.size_le) hmem.2, hfirst.frame id hid hmem.1]
  · rw [List.flatMap_append]
    refine List.Nodup.append hfirst.nodup hsecond.nodup fun id hid hid' => ?_
    rcases hsecond.fresh id hid' with hmem | hnew
    · exact hapart id hid hmem
    · exact absurd (hfirst.lt_size hid) (by omega)
  · rw [List.flatMap_append, List.mem_append] at hid
    rw [List.mem_append]
    rcases hid with hid | hid
    · exact (hfirst.fresh id hid).imp_left Or.inl
    · exact (hsecond.fresh id hid).imp Or.inr hfirst.size_le.trans

end Yields

end Program

end ShaderIR
