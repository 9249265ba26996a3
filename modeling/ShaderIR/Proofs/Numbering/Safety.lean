import ShaderIR.Proofs.Graph.Acceptance
import ShaderIR.Proofs.Numbering.Clean
import ShaderIR.Proofs.Crashes

/-!
Numbering of checked programs. What the check lets stand in some place, numbering expects there: in
the blocks of a graph that was built for a program that passes the check, numbering crashes only if
it has no number left, fails for depth only, and poisons nothing (`Graph.numberedCleanly_of_build`).
-/

set_option autoImplicit false

namespace ShaderIR

namespace Program

variable {program : Program} {config : Config} {eligible : NodeKinds} {start : Numberer}

/-- The walk crashes only if there is no number left. -/
abbrev NumbersSafely {α : Type} (walk : NumberingWalk α) (start : Numberer) : Prop :=
  Walk.ReturnsUnless walk start (· = .idsExhausted)

theorem numbersSafely_handOut {α : Type} {step : Numberer → α × Numberer} :
    NumbersSafely (NumberingWalk.handOut step) start :=
  NumberingWalk.returns_handOut rfl

/-! ### Operands -/

theorem numbersSafely_recordNumber {id : NodeId} {node : Node} {number : ValueNumber} :
    NumbersSafely (recordNumber eligible id node number) start := by
  unfold recordNumber
  split <;> simp

theorem numbersSafely_numberExpression {budget : Nat} {tree : Tree} (hdraws : program.Draws tree) :
    NumbersSafely (program.numberExpression eligible budget tree.id) start := by
  induction budget generalizing tree start with
  | zero => exact Walk.returns_throw
  | succ budget ih =>
    obtain ⟨root, node, children⟩ := tree
    have hchild : ∀ child ∈ node.children, ∀ state,
        NumbersSafely (program.numberExpression eligible budget child) state := by
      intro child hmem state
      rw [hdraws.children_eq] at hmem
      obtain ⟨below, hbelow, rfl⟩ := List.mem_map.mp hmem
      exact ih (hdraws.child hbelow)
    have hfinish {key : Key} {state : Numberer} : NumbersSafely (do
        let number ← NumberingWalk.handOut fun numberer => numberer.numberOf key
        recordNumber eligible root node number : NumberingWalk Value) state :=
      Walk.ReturnsUnless.bind numbersSafely_handOut fun _ _ _ => numbersSafely_recordNumber
    unfold numberExpression
    refine Walk.ReturnsUnless.bind (Walk.returns_liftCrash_of_eq hdraws.node_eq)
      fun found _ hanswer => ?_
    obtain ⟨hfound, rfl⟩ := Walk.answers_liftCrash.mp hanswer
    obtain rfl : node = found := Except.ok.inj (hdraws.node_eq.symm.trans hfound)
    cases node with
    | constant value => exact hfinish
    | «variable» read =>
      exact Walk.ReturnsUnless.bind numbersSafely_handOut fun _ _ _ =>
        Walk.ReturnsUnless.bind Walk.returns_modify fun _ _ _ =>
        Walk.returns_pure
    | index base place =>
      refine Walk.ReturnsUnless.bind (hchild base (by simp [Node.children]) _) fun _ _ _ => ?_
      exact Walk.ReturnsUnless.bind (hchild place (by simp [Node.children]) _) fun _ _ _ => hfinish
    | field record number =>
      exact Walk.ReturnsUnless.bind (hchild record (by simp [Node.children]) _) fun _ _ _ => hfinish
    | swizzle value mask =>
      exact Walk.ReturnsUnless.bind (hchild value (by simp [Node.children]) _) fun _ _ _ => hfinish
    | apply op operands ty =>
      exact Walk.ReturnsUnless.bind (Walk.returns_mapM_of_forall hchild) fun _ _ _ => hfinish
    | texture op channel operands ty =>
      exact Walk.ReturnsUnless.bind (Walk.returns_mapM_of_forall hchild) fun _ _ _ => hfinish
    | _ => exact Walk.returns_throw

theorem numbersSafely_numberPlace {budget : Nat} {tree : Tree} (hdraws : program.Draws tree) :
    NumbersSafely (program.numberPlace eligible budget tree.id) start := by
  induction budget generalizing tree start with
  | zero => exact Walk.returns_throw
  | succ budget ih =>
    obtain ⟨root, node, children⟩ := tree
    have hids := hdraws.children_eq
    unfold numberPlace
    refine Walk.ReturnsUnless.bind (Walk.returns_liftCrash_of_eq hdraws.node_eq)
      fun found _ hanswer => ?_
    obtain ⟨hfound, rfl⟩ := Walk.answers_liftCrash.mp hanswer
    obtain rfl : node = found := Except.ok.inj (hdraws.node_eq.symm.trans hfound)
    cases node with
    | «variable» written => exact Walk.returns_pure
    | index base place =>
      obtain ⟨base, place, rfl, rfl, rfl⟩ := Tree.exists_pair_of_ids hids
      exact Walk.ReturnsUnless.bind (numbersSafely_numberExpression (hdraws.child (by simp)))
        fun _ _ _ =>
        ih (hdraws.child (by simp))
    | field record number =>
      obtain ⟨record, rfl, rfl⟩ := Tree.exists_single_of_ids hids
      exact ih (hdraws.child (by simp))
    | _ => exact Walk.returns_throw

/-- Of the nodes of a program, only unknown variables have no answer to whether a write covers all
of them. -/
theorem exists_isPartialWrite {target : Tree}
    (hdraws : program.Draws target) (hsound : program.SoundOperand target)
    (mask : UInt8) : ∃ part, program.isPartialWrite target.id mask = .ok part := by
  unfold isPartialWrite
  rw [hdraws.node_eq]
  cases hnode : target.node with
  | «variable» written =>
    have hlt := (hsound _ target.mem_subtrees_self).variable_lt written hnode
    have hdeclared : program.variableOf written = .ok program.vars[written.index] :=
      variableOf_eq_ok_iff.mpr (Array.getElem?_eq_getElem hlt)
    exact ⟨_, bind_eq_ok_iff.mpr ⟨_, rfl, bind_eq_ok_iff.mpr ⟨_, hdeclared, rfl⟩⟩⟩
  | _ => exact ⟨true, rfl⟩

theorem numbersSafely_numberStore {target : Tree} (hdraws : program.Draws target)
    (hsound : program.SoundOperand target) {mask : UInt8} {value : Value} :
    NumbersSafely (program.numberStore config target.id mask value) start := by
  unfold numberStore
  obtain ⟨_, hpart⟩ := exists_isPartialWrite hdraws hsound mask
  refine Walk.ReturnsUnless.bind (numbersSafely_numberPlace hdraws) fun written _ _ => ?_
  refine Walk.ReturnsUnless.bind (Walk.returns_liftCrash_of_eq hpart) fun part _ _ => ?_
  split
  · exact numbersSafely_handOut
  · exact Walk.returns_modify

/-! ### Statements -/

theorem numbersSafely_numberPureCall {id : NodeId} {node : Node}
    {callee : SignatureId} {arguments : List Tree} {result : Option Tree}
    (hoperands : ∀ operand ∈ arguments ++ result.toList,
      program.Draws operand ∧ program.SoundOperand operand) :
    NumbersSafely (program.numberPureCall config id node callee (arguments.map Tree.id)
      (result.map Tree.id)) start := by
  rw [List.forall_mem_append] at hoperands
  unfold numberPureCall
  refine Walk.ReturnsUnless.bind (Walk.returns_mapM_of_forall fun argument hmem state => ?_)
    fun _ _ _ => ?_
  · obtain ⟨argument, hargument, rfl⟩ := List.mem_map.mp hmem
    exact numbersSafely_numberExpression (hoperands.1 argument hargument).1
  refine Walk.ReturnsUnless.bind numbersSafely_handOut fun _ _ _ => ?_
  cases result with
  | none => exact Walk.returns_modify
  | some target =>
    obtain ⟨hdraws, hsound⟩ := hoperands.2 target (by simp)
    exact Walk.ReturnsUnless.bind numbersSafely_recordNumber fun _ _ _ =>
      numbersSafely_numberStore hdraws hsound

theorem numbersSafely_numberEffectfulCall {id : NodeId}
    {params : List Param} {arguments : List Tree} {result : Option Tree}
    (hoperands : ∀ operand ∈ arguments ++ result.toList,
      program.Draws operand ∧ program.SoundOperand operand) :
    NumbersSafely (program.numberEffectfulCall config id (params.zip (arguments.map Tree.id))
      (result.map Tree.id)) start := by
  rw [List.forall_mem_append] at hoperands
  have hpassed : ∀ passed ∈ params.zip (arguments.map Tree.id), ∃ argument, argument.id = passed.2 ∧
      program.Draws argument ∧ program.SoundOperand argument := by
    intro passed hmem
    obtain ⟨argument, hargument, hsame⟩ := List.mem_map.mp (List.of_mem_zip hmem).2
    exact ⟨argument, hsame, hoperands.1 argument hargument⟩
  unfold numberEffectfulCall
  refine Walk.ReturnsUnless.bind (Walk.returns_forM_of_forall fun passed hmem state => ?_)
    fun _ _ _ => ?_
  · obtain ⟨argument, hsame, hdraws, -⟩ := hpassed passed hmem
    dsimp only
    split
    · exact Walk.ReturnsUnless.bind (hsame ▸ numbersSafely_numberExpression hdraws) fun _ _ _ =>
        Walk.returns_pure
    · exact Walk.returns_pure
  refine Walk.ReturnsUnless.bind (Walk.returns_forM_of_forall fun passed hmem state => ?_)
    fun _ _ _ => ?_
  · obtain ⟨argument, hsame, hdraws, hsound⟩ := hpassed passed hmem
    dsimp only
    split
    · exact Walk.ReturnsUnless.bind numbersSafely_handOut fun _ _ _ =>
        hsame ▸ numbersSafely_numberStore hdraws hsound
    · exact Walk.returns_pure
  refine Walk.ReturnsUnless.bind numbersSafely_handOut fun _ _ _ => ?_
  refine Walk.ReturnsUnless.bind Walk.returns_modify fun _ _ _ => ?_
  cases result with
  | none => exact Walk.returns_pure
  | some target =>
    obtain ⟨hdraws, hsound⟩ := hoperands.2 target (by simp)
    exact Walk.ReturnsUnless.bind numbersSafely_handOut fun _ _ _ =>
      numbersSafely_numberStore hdraws hsound

theorem numbersSafely_numberStatement {statement : Tree}
    (hdraws : program.Draws statement) (hsound : program.Sound statement)
    (hoperands : ∀ operand ∈ statement.children, program.SoundOperand operand) :
    NumbersSafely (program.numberStatement config statement.id) start := by
  have hexpression : ∀ operand ∈ statement.children, ∀ state,
      NumbersSafely (program.numberExpression config.eligible config.maxDepth operand.id) state :=
    fun operand hmem _ => numbersSafely_numberExpression (hdraws.child hmem)
  have hstore : ∀ target ∈ statement.children, ∀ (mask : UInt8) (value : Value) (state : Numberer),
      NumbersSafely (program.numberStore config target.id mask value) state :=
    fun target hmem _ _ _ => numbersSafely_numberStore (hdraws.child hmem) (hoperands target hmem)
  have hreads {operand : Tree} (hmem : operand ∈ statement.children) (state : Numberer) :
      NumbersSafely (do
        let _ ← program.numberExpression config.eligible config.maxDepth operand.id :
            NumberingWalk Unit) state :=
      Walk.ReturnsUnless.bind (hexpression operand hmem state) fun _ _ _ => Walk.returns_pure
  unfold numberStatement
  refine Walk.ReturnsUnless.bind (Walk.returns_liftCrash_of_eq hdraws.node_eq)
    fun found _ hanswer => ?_
  obtain ⟨hfound, rfl⟩ := Walk.answers_liftCrash.mp hanswer
  obtain rfl : statement.node = found := Except.ok.inj (hdraws.node_eq.symm.trans hfound)
  cases hsound with
  | assign id target value mask hplace =>
    exact Walk.ReturnsUnless.bind (hexpression value (by simp) _) fun _ _ _ =>
      hstore target (by simp) _ _ _
  | call id callee arguments result signature hsignature hlength hwritten hresult =>
    have hbelow : ∀ operand ∈ arguments ++ result.toList,
        program.Draws operand ∧ program.SoundOperand operand :=
      fun operand hmem => ⟨hdraws.child hmem, hoperands operand hmem⟩
    refine Walk.ReturnsUnless.bind (Walk.returns_liftCrash_of_eq hsignature) fun _ _ _ => ?_
    split
    · exact numbersSafely_numberPureCall hbelow
    · exact numbersSafely_numberEffectfulCall hbelow
  | branch id condition thenBody elseBody => exact hreads (by simp) _
  | loop id body => exact Walk.returns_pure
  | ret id operand | discard id operand =>
    cases operand with
    | none => exact Walk.returns_pure
    | some operand =>
      exact Walk.ReturnsUnless.bind (hreads (by simp) _) fun _ _ _ => Walk.returns_pure

/-- Numbering a row of sound statements poisons nothing, fails for depth only, and crashes only if
there is no number left. -/
theorem outcome_of_numberStatements {statements : List Tree}
    (hdraws : ∀ statement ∈ statements, program.Draws statement)
    (hsound : ∀ statement ∈ statements, program.Sound statement)
    (hoperands : ∀ statement ∈ statements, ∀ operand ∈ statement.children,
      program.SoundOperand operand) (config : Config) :
    (∃ numbering,
      Query.Answers (program.numberStatements (statements.map Tree.id) config) numbering ∧
        numbering.poisoned = false) ∨
      Query.Fails (program.numberStatements (statements.map Tree.id) config)
        (.tooDeep config.maxDepth) ∨
        (program.numberStatements (statements.map Tree.id) config).run = .error .idsExhausted := by
  have hsafe :
      NumbersSafely ((statements.map Tree.id).forM (program.numberStatement config)) {} := by
    refine Walk.returns_forM_of_forall fun id hmem state => ?_
    obtain ⟨statement, hstatement, rfl⟩ := List.mem_map.mp hmem
    exact numbersSafely_numberStatement (hdraws _ hstatement) (hsound _ hstatement)
      (hoperands _ hstatement)
  have hclean {numbering : Numbering} (hanswers : Query.Answers
        (program.numberStatements (statements.map Tree.id) config) numbering) :
      numbering.poisoned = false :=
    (exists_numbers_of_numberStatements hdraws hsound hoperands hanswers).choose_spec.2.2.1
  rcases hrun : ((statements.map Tree.id).forM
    (program.numberStatement config) : NumberingWalk Unit).runFrom {} with
    cause | ⟨fault | answer, stop⟩
  · obtain rfl := hsafe cause hrun
    refine Or.inr (Or.inr ?_)
    unfold numberStatements
    dsimp only
    rw [hrun]
    rfl
  · cases fault with
    | tooDeep =>
      exact Or.inr (Or.inl (Query.fails_bind.mpr
        (Or.inr ⟨_, Query.answers_liftCrash.mpr hrun, Query.fails_throw.mpr rfl⟩)))
    | malformed id =>
      have hanswers : Query.Answers (program.numberStatements (statements.map Tree.id) config)
          { stop.numbering with poisoned := true } :=
        Query.answers_bind.mpr ⟨_, Query.answers_liftCrash.mpr hrun, Query.answers_pure.mpr rfl⟩
      cases hclean hanswers
  · have hanswers :
        Query.Answers (program.numberStatements (statements.map Tree.id) config) stop.numbering :=
      Query.answers_bind.mpr ⟨_, Query.answers_liftCrash.mpr hrun, Query.answers_pure.mpr rfl⟩
    exact Or.inl ⟨_, hanswers, hclean hanswers⟩

end Program

namespace Graph

variable {program : Program} {config : Config} {graph : Graph}

/-- The blocks of a checked program are numbered without a crash, as long as there are numbers. If
they do not nest too deep, nothing in them is malformed. -/
theorem numberedCleanly_of_build (hcheck : program.check = .ok ())
    (hbuild : Query.Answers (build program config) graph) (limits : Config) :
    ∀ block ∈ graph.blocks, ∃ statements, block.statements program = .ok statements ∧
      ((∃ numbering, Query.Answers (program.numberStatements statements limits) numbering ∧
          numbering.poisoned = false) ∨
        Query.Fails (program.numberStatements statements limits) (.tooDeep limits.maxDepth) ∨
        (program.numberStatements statements limits).run = .error .idsExhausted) := by
  intro block hblock
  obtain ⟨code, houtlines, hbuilt⟩ := exists_built_of_build hcheck hbuild
  obtain ⟨trees, hsubset, hids⟩ := hbuilt.depicts.exists_trees hblock
  refine ⟨_, (hbuilt.depicts.holds block hblock).statements houtlines.frames, ?_⟩
  rw [← hids]
  exact program.outcome_of_numberStatements (fun _ hmem =>
    houtlines.draws.statement _ (hsubset hmem)) (fun _ hmem => houtlines.sound _ (hsubset hmem))
      (fun _ hmem => houtlines.operands _ (hsubset hmem)) limits

/-- A call that updates an element of an array, at a place that is computed. -/
def updatedElement : Program where
  nodes := #[.variable ⟨0⟩, .variable ⟨0⟩, .variable ⟨0⟩, .apply .add [⟨1⟩, ⟨2⟩] .int,
    .variable ⟨1⟩, .index ⟨4⟩ ⟨3⟩, .variable ⟨2⟩, .call ⟨0⟩ [⟨0⟩, ⟨5⟩] (some ⟨6⟩)]
  vars := #[⟨"i", .int, .input⟩, ⟨"a", .array .float 4, .auto⟩, ⟨"y", .float, .auto⟩]
  signatures := #[⟨"f", [⟨.int, .input⟩, ⟨.float, .inout⟩], .float⟩]
  body := [⟨7⟩]

theorem numberedCleanly_of_build_updatedElement :
    updatedElement.check = .ok () ∧ ∃ graph block numbering,
    Query.Answers (build updatedElement {}) graph ∧ block ∈ graph.blocks ∧
    block.statements updatedElement = .ok [⟨7⟩] ∧
    Query.Answers (updatedElement.numberStatements [⟨7⟩] { eligible := .all }) numbering ∧
    numbering.poisoned = false := by
  have hcheck : updatedElement.check = .ok () := rfl
  obtain ⟨graph, hbuild, block, hblock, hrow⟩ :
    ∃ graph, Query.Answers (build updatedElement {}) graph ∧
      ∃ block ∈ graph.blocks, block.statements updatedElement = .ok [⟨7⟩] :=
        ⟨_, rfl, by decide +kernel⟩
  obtain ⟨statements, hstatements, houtcome⟩ :=
    numberedCleanly_of_build hcheck hbuild { eligible := .all } block hblock
  obtain rfl := Except.ok.inj (hrow.symm.trans hstatements)
  have hshallow : (updatedElement.numberStatements [⟨7⟩] { eligible := .all }).run.map Except.isOk =
      .ok true := by
    decide +kernel
  rcases houtcome with ⟨numbering, hanswers, hclean⟩ | hfails | hcrashes
  · exact ⟨hcheck, graph, block, numbering, hbuild, hblock, hrow, hanswers, hclean⟩
  · rw [show (updatedElement.numberStatements [⟨7⟩] _).run = _ from hfails] at hshallow
    cases hshallow
  · rw [hcrashes] at hshallow
    cases hshallow

end Graph

end ShaderIR
