import ShaderIR.Numbering.Block
import ShaderIR.Proofs.Answers
import ShaderIR.Proofs.Outline.Checked
import ShaderIR.Proofs.Pass.Expansion

/-!
What numbering reads. The numbering of statements depends on their trees, on the variables in them
and on the signatures of the program, and on nothing else (`Program.numberStatements_congr`); in
particular not on the lists that the statements own.
-/

set_option autoImplicit false

namespace ShaderIR

/-! ### Rows of requests -/

section Rows

variable {α β : Type} {m : Type → Type} [Monad m] [LawfulMonad m] {step step' : α → m β}

theorem mapM_congr {items : List α} (hstep : ∀ item ∈ items, step item = step' item) :
    items.mapM step = items.mapM step' := by
  induction items with
  | nil => rw [List.mapM_nil, List.mapM_nil]
  | cons first rest ih =>
    obtain ⟨hfirst, hrest⟩ := List.forall_mem_cons.mp hstep
    rw [List.mapM_cons, List.mapM_cons, hfirst, ih hrest]

end Rows

theorem forM_congr {α : Type} {m : Type → Type} [Monad m] {step step' : α → m PUnit}
    {items : List α} (hstep : ∀ item ∈ items, step item = step' item) :
    items.forM step = items.forM step' := by
  induction items with
  | nil => rfl
  | cons first rest ih =>
    obtain ⟨hfirst, hrest⟩ := List.forall_mem_cons.mp hstep
    change (step first >>= fun _ => rest.forM step) = step' first >>= fun _ => rest.forM step'
    rw [hfirst, ih hrest]

theorem Walk.liftM_ok_bind {ε σ α β : Type} (value : α) (next : α → Walk ε σ β) :
    (liftM (Except.ok value : Except Crash α) : Walk ε σ α) >>= next = next value :=
  rfl

namespace Node

variable {node node' : Node}

theorem eq_or_of_bare (hbare : node'.bare = node.bare) : node' = node ∨
    (∃ condition thenBody elseBody thenBody' elseBody', node = .branch condition thenBody elseBody ∧
      node' = .branch condition thenBody' elseBody') ∨
    ∃ body body', node = .loop body ∧ node' = .loop body' := by
  unfold bare at hbare
  split at hbare <;> split at hbare <;> grind

theorem eq_of_bare (hoperand : node.isStatement = false) (hbare : node'.bare = node.bare) :
    node' = node := by
  rcases eq_or_of_bare hbare with hsame | ⟨_, _, _, _, _, rfl, -⟩ | ⟨_, _, rfl, -⟩
  · exact hsame
  · cases hoperand
  · cases hoperand

theorem lists_eq_of_bare (hbare : node'.bare = node.bare) (id : NodeId) :
    node'.lists id = node.lists id := by
  rcases eq_or_of_bare hbare with rfl | ⟨_, _, _, _, _, rfl, rfl⟩ | ⟨_, _, rfl, rfl⟩ <;> rfl

end Node

namespace Program

variable {program program' : Program} {eligible : NodeKinds} {config : Config} {tree : Tree}

/-! ### Operands -/

theorem numberExpression_congr (hdraws : program.Draws tree)
    (hsame : ∀ id ∈ tree.ids, program'.node id = program.node id) (budget : Nat) :
    program'.numberExpression eligible budget tree.id =
      program.numberExpression eligible budget tree.id := by
  induction budget generalizing tree with
  | zero => rfl
  | succ budget ih =>
    have hchild : ∀ id ∈ tree.node.children, program'.numberExpression eligible budget id =
          program.numberExpression eligible budget id := by
      rw [hdraws.children_eq, List.forall_mem_map]
      exact fun child hchild => ih (hdraws.child hchild) fun id hid =>
        hsame id (Tree.ids_subset_of_mem_children hchild hid)
    unfold numberExpression
    rw [hsame tree.id tree.id_mem_ids, hdraws.node_eq, Walk.liftM_ok_bind, Walk.liftM_ok_bind]
    generalize tree.node = node at hchild
    cases node with
    | index base place =>
      simp only [Node.children, List.forall_mem_cons] at hchild
      dsimp only
      rw [hchild.1, hchild.2.1]
    | field record _ | swizzle record _ =>
      dsimp only
      rw [hchild record List.mem_cons_self]
    | apply op operands ty =>
      simp only [Node.children] at hchild
      dsimp only
      rw [mapM_congr hchild]
    | texture op channel operands ty =>
      simp only [Node.children] at hchild
      dsimp only
      rw [mapM_congr hchild]
    | _ => rfl

theorem numberPlace_congr (hdraws : program.Draws tree)
    (hsame : ∀ id ∈ tree.ids, program'.node id = program.node id) (budget : Nat) :
    program'.numberPlace eligible budget tree.id = program.numberPlace eligible budget tree.id := by
  induction budget generalizing tree with
  | zero => rfl
  | succ budget ih =>
    have hchild : ∀ id ∈ tree.node.children,
        program'.numberExpression eligible budget id = program.numberExpression eligible budget id ∧
          program'.numberPlace eligible budget id = program.numberPlace eligible budget id := by
      rw [hdraws.children_eq, List.forall_mem_map]
      intro child hchild
      have hbelow : ∀ id ∈ child.ids, program'.node id = program.node id := fun id hid =>
        hsame id (Tree.ids_subset_of_mem_children hchild hid)
      exact ⟨numberExpression_congr (hdraws.child hchild) hbelow budget,
        ih (hdraws.child hchild) hbelow⟩
    unfold numberPlace
    rw [hsame tree.id tree.id_mem_ids, hdraws.node_eq, Walk.liftM_ok_bind, Walk.liftM_ok_bind]
    generalize tree.node = node at hchild
    cases node with
    | index base place =>
      simp only [Node.children, List.forall_mem_cons] at hchild
      dsimp only
      rw [hchild.1.2, hchild.2.1.1]
    | field record _ =>
      dsimp only
      rw [(hchild record List.mem_cons_self).2]
    | _ => rfl

/-- The programs number an operand alike, as a value and as a place that is written to. -/
structure NumbersAlike (program program' : Program) (config : Config) (id : NodeId) : Prop where
  value : program'.numberExpression config.eligible config.maxDepth id =
    program.numberExpression config.eligible config.maxDepth id
  store : ∀ mask value,
    program'.numberStore config id mask value = program.numberStore config id mask value

theorem numbersAlike_of_draws (hdeclared : ∀ id found, program.variableOf id = .ok found →
      program'.variableOf id = .ok found)
    (hdraws : program.Draws tree) (hsound : program.SoundOperand tree)
    (hsame : ∀ id ∈ tree.ids, program'.node id = program.node id) :
    program.NumbersAlike program' config tree.id where
  value := numberExpression_congr hdraws hsame _
  store mask value := by
    have hpartial : program'.isPartialWrite tree.id mask = program.isPartialWrite tree.id mask := by
      rw [isPartialWrite, isPartialWrite, hsame tree.id tree.id_mem_ids, hdraws.node_eq]
      cases hnode : tree.node with
      | «variable» written =>
        have hlt := (hsound tree tree.mem_subtrees_self).variable_lt written hnode
        obtain ⟨found, hfound⟩ : ∃ found, program.variableOf written = .ok found :=
          ⟨_, variableOf_eq_ok_iff.mpr (Array.getElem?_eq_getElem hlt)⟩
        change (program'.variableOf written >>= _) = program.variableOf written >>= _
        rw [hdeclared written found hfound, hfound]
      | _ => rfl
    rw [numberStore, numberStore, numberPlace_congr hdraws hsame, hpartial]

/-! ### Statements -/

variable {id : NodeId}

theorem numberPureCall_congr {node : Node} {callee : SignatureId} {arguments : List NodeId}
    {result : Option NodeId}
    (harguments : ∀ argument ∈ arguments, program.NumbersAlike program' config argument)
    (hresult : ∀ target ∈ result, program.NumbersAlike program' config target) :
    program'.numberPureCall config id node callee arguments result =
      program.numberPureCall config id node callee arguments result := by
  unfold numberPureCall
  rw [mapM_congr fun argument hargument => (harguments argument hargument).value]
  cases result with
  | none => rfl
  | some target =>
    dsimp only
    simp only [(hresult target rfl).store]

theorem numberEffectfulCall_congr {passed : List (Param × NodeId)} {result : Option NodeId}
    (hpassed : ∀ entry ∈ passed, program.NumbersAlike program' config entry.2)
    (hresult : ∀ target ∈ result, program.NumbersAlike program' config target) :
    program'.numberEffectfulCall config id passed result =
      program.numberEffectfulCall config id passed result := by
  unfold numberEffectfulCall
  congr 1
  · refine forM_congr fun entry hentry => ?_
    dsimp only
    rw [(hpassed entry hentry).value]
  · funext _
    congr 1
    · refine forM_congr fun entry hentry => ?_
      dsimp only
      simp only [(hpassed entry hentry).store]
    · cases result with
      | none => rfl
      | some target => simp only [(hresult target rfl).store]

/-- Numbering of a statement does not read the lists that it owns. -/
theorem numberStatement_congr (hsignatures : program'.signatures = program.signatures)
    {node node' : Node} (hnode : program.node id = .ok node)
    (hnode' : program'.node id = .ok node') (hbare : node'.bare = node.bare)
    (hchildren : ∀ child ∈ node.children, program.NumbersAlike program' config child) :
    program'.numberStatement config id = program.numberStatement config id := by
  unfold numberStatement
  rw [hnode, hnode', Walk.liftM_ok_bind, Walk.liftM_ok_bind]
  rcases Node.eq_or_of_bare hbare with rfl | ⟨condition, _, _, _, _, rfl, rfl⟩ | ⟨_, _, rfl, rfl⟩
  · cases node' with
    | assign target value mask =>
      simp only [Node.children, List.forall_mem_cons] at hchildren
      dsimp only
      rw [hchildren.1.value]
      simp only [hchildren.2.1.store]
    | call callee arguments result =>
      simp only [Node.children, List.forall_mem_append, Option.mem_toList] at hchildren
      have hsignature : program'.signature callee = program.signature callee := by
        rw [signature, signature, hsignatures]
      have heffectful (signature : Signature) :
          program'.numberEffectfulCall config id (signature.params.zip arguments) result =
            program.numberEffectfulCall config id (signature.params.zip arguments) result :=
        numberEffectfulCall_congr
          (fun entry hentry => hchildren.1 entry.2 (List.of_mem_zip hentry).2) hchildren.2
      dsimp only
      rw [hsignature]
      simp only [numberPureCall_congr hchildren.1 hchildren.2, heffectful]
    | branch condition _ _ =>
      dsimp only
      rw [(hchildren condition List.mem_cons_self).value]
    | ret operand | discard operand =>
      dsimp only
      exact forM_congr fun operand hoperand => by rw [(hchildren operand hoperand).value]
    | _ => rfl
  · dsimp only
    rw [(hchildren condition List.mem_cons_self).value]
  · rfl

/-- The numbering of statements depends on their trees, on the variables in them and on the
signatures, and on nothing else. -/
theorem numberStatements_congr (hsignatures : program'.signatures = program.signatures)
    (hdeclared : ∀ id found, program.variableOf id = .ok found → program'.variableOf id = .ok found)
    {statements : List Tree} (hdraws : ∀ statement ∈ statements, program.Draws statement)
    (hsound : ∀ statement ∈ statements, ∀ operand ∈ statement.children,
      program.SoundOperand operand) (hsame : ∀ statement ∈ statements, ∀ below ∈ statement.subtrees,
      ∃ node', program'.node below.id = .ok node' ∧ node'.bare = below.node.bare)
    (config : Config) : program'.numberStatements (statements.map Tree.id) config =
      program.numberStatements (statements.map Tree.id) config := by
  have hsteps : (statements.map Tree.id).forM (program'.numberStatement config) =
      (statements.map Tree.id).forM (program.numberStatement config) := by
    refine forM_congr ?_
    rw [List.forall_mem_map]
    intro statement hstatement
    have hdraw := hdraws statement hstatement
    obtain ⟨node', hnode', hbare⟩ :=
      hsame statement hstatement statement statement.mem_subtrees_self
    refine numberStatement_congr hsignatures hdraw.node_eq hnode' hbare ?_
    rw [hdraw.children_eq, List.forall_mem_map]
    intro child hchild
    have hoperand := hsound statement hstatement child hchild
    refine numbersAlike_of_draws hdeclared (hdraw.child hchild) hoperand fun id hid => ?_
    obtain ⟨below, hbelow, rfl⟩ := List.mem_map.mp hid
    have hmem := Tree.mem_subtrees_of_mem_children hchild hbelow
    obtain ⟨node', hnode', hbare⟩ := hsame statement hstatement below hmem
    rw [hnode', (hdraw.subtree below hmem).node_eq,
      Node.eq_of_bare (hoperand below hbelow).operand hbare]
  rw [numberStatements, numberStatements, hsteps]

end Program

end ShaderIR
