import ShaderIR.Proofs.Graph.Coverage
import ShaderIR.Proofs.Pass.BlockSharing

/-!
Failures of local sharing. Whatever the program, sharing keeps its signatures and messages and fails
for its depth only (`Edit.Contained`), so that all other failures come before the first change. In a
program whose text has no statement twice, sharing never fails once all blocks have been numbered; a
failure leaves such a program as it was, but for the message that reports it (`localCse_atomic`).
-/

set_option autoImplicit false

namespace ShaderIR

namespace Program

/-! ### What no edit touches -/

/-- The program has the signatures and the messages of an earlier one. -/
structure Continues (origin program : Program) : Prop where
  signatures : program.signatures = origin.signatures
  diagnostics : program.diagnostics = origin.diagnostics

theorem Continues.refl (program : Program) : program.Continues program :=
  ⟨rfl, rfl⟩

variable {origin program program' : Program}

theorem Continues.trans (hfirst : origin.Continues program) (hsecond : program.Continues program') :
    origin.Continues program' :=
  ⟨hsecond.signatures.trans hfirst.signatures, hsecond.diagnostics.trans hfirst.diagnostics⟩

theorem continues_setList {ref : ListRef} {statements : List NodeId}
    (hset : program.setList ref statements = .ok program') : program.Continues program' := by
  cases ref with
  | root =>
    cases hset
    exact ⟨rfl, rfl⟩
  | thenBody owner | elseBody owner | loopBody owner =>
    obtain ⟨node, -, hset⟩ := bind_eq_ok_iff.mp hset
    split at hset
    · cases hset
      exact ⟨rfl, rfl⟩
    · cases hset

end Program

open Program

variable {κ α β : Type} {origin : Program} {limit : Nat}

namespace Edit

/-- Whatever the draft, the edit keeps signatures and messages, and fails only because of the
limit. -/
def Contained (origin : Program) (limit : Nat) (edit : Edit κ α) : Prop :=
  ∀ draft, origin.Continues draft.program →
    Walk.Ensures edit draft (fun _ draft' => origin.Continues draft'.program)
      fun failure draft' => failure = .tooDeep limit ∧ origin.Continues draft'.program

theorem contained_pure (value : α) : Contained origin limit (pure value : Edit κ α) :=
  fun _ hcontinues => hcontinues

theorem contained_throw : Contained origin limit (throw (.tooDeep limit) : Edit κ α) :=
  fun _ hcontinues => ⟨rfl, hcontinues⟩

theorem contained_ask (request : Program → Except Crash α) :
    Contained origin limit (ask request : Edit κ α) :=
  fun _ hcontinues => ensures_ask.mpr fun _ _ => hcontinues

theorem contained_modify {change : Draft κ → Draft κ}
    (hchange : ∀ draft : Draft κ, draft.program.Continues (change draft).program) :
    Contained origin limit (modify change : Edit κ PUnit) :=
  fun draft hcontinues => hcontinues.trans (hchange draft)

theorem contained_addNode (node : Node) :
    Contained origin limit (create fun program => program.addNode node : Edit κ NodeId) :=
  fun _ hcontinues => ensures_addNode (hcontinues.trans ⟨rfl, rfl⟩)

theorem contained_addTemporary (ty : Ty) :
    Contained origin limit (create fun program => program.addTemporary ty : Edit κ VarId) :=
  fun _ hcontinues => ensures_addTemporary (hcontinues.trans ⟨rfl, rfl⟩)

theorem contained_addAssignment (target : VarId) (value : NodeId) :
    Contained origin limit
      (create fun program => program.addAssignment target value : Edit κ NodeId) :=
  fun _ hcontinues => ensures_addAssignment (hcontinues.trans ⟨rfl, rfl⟩)

theorem Contained.bind {edit : Edit κ α} {next : α → Edit κ β} (hedit : Contained origin limit edit)
    (hnext : ∀ answer, Contained origin limit (next answer)) :
    Contained origin limit (edit >>= next) :=
  fun draft hcontinues => Walk.ensures_bind.mpr
    ((hedit draft hcontinues).mono (fun answer draft' => hnext answer draft') fun _ _ => id)

theorem Contained.mapM {step : α → Edit κ β} (hstep : ∀ item, Contained origin limit (step item))
    (items : List α) : Contained origin limit (items.mapM step) :=
  fun _ hcontinues =>
    (Walk.ensures_mapM_facts (fun draft => origin.Continues draft.program) (fun _ => True)
    (fun item _ draft hdraft => (hstep item draft hdraft).mono (fun _ _ h => ⟨h, trivial⟩)
      fun _ _ => id) hcontinues).mono (fun _ _ => And.left) fun _ _ => id

theorem Contained.forM {step : α → Edit κ PUnit}
    (hstep : ∀ item, Contained origin limit (step item))
    (items : List α) : Contained origin limit (items.forM step) :=
  fun _ hcontinues => Walk.ensures_forM (fun draft => origin.Continues draft.program)
    (fun item _ draft => hstep item draft) hcontinues

theorem Contained.foldlM {step : β → α → Edit κ β}
    (hstep : ∀ value item, Contained origin limit (step value item))
    (items : List α) (value : β) : Contained origin limit (items.foldlM step value) :=
  fun _ hcontinues => Walk.ensures_foldlM (fun _ draft => origin.Continues draft.program)
    (fun item _ value draft => hstep value item draft) hcontinues

/-! ### Steps of an edit -/

theorem contained_setNode (id : NodeId) (node : Node) :
    Contained origin limit (setNode id node : Edit κ Unit) :=
  contained_modify fun _ => ⟨rfl, rfl⟩

theorem contained_changeNode (id : NodeId) (change : Node → Node) :
    Contained origin limit (changeNode id change : Edit κ Unit) :=
  (contained_ask _).bind fun _ => contained_modify fun _ => ⟨rfl, rfl⟩

theorem contained_markChanged : Contained origin limit (markChanged : Edit κ Unit) :=
  contained_modify fun _ => ⟨rfl, rfl⟩

theorem contained_readOf (id : VarId) : Contained origin limit (readOf id : Edit κ NodeId) :=
  contained_addNode _

theorem contained_materialize (id : NodeId) :
    Contained origin limit (materialize id : Edit κ VarId) := by
  refine (contained_ask _).bind fun ty => (contained_addTemporary ty).bind fun temporary =>
    (contained_addAssignment temporary id).bind fun assignment => ?_
  exact Contained.bind (contained_modify fun _ => ⟨rfl, rfl⟩) fun _ => contained_pure temporary

theorem Contained.editChildren {edit : NodeId → Edit κ NodeId}
    (hedit : ∀ id, Contained origin limit (edit id))
    (id : NodeId) : Contained origin limit (editChildren edit id) :=
  (contained_ask _).bind fun _ => (Contained.mapM hedit _).bind fun _ => contained_changeNode _ _

theorem Contained.editPlace {edit : Nat → NodeId → Edit κ NodeId}
    (hedit : ∀ budget id, Contained origin limit (edit budget id)) (budget : Nat) (id : NodeId) :
    Contained origin limit (editPlace limit edit budget id) := by
  induction budget generalizing id with
  | zero => exact contained_throw
  | succ budget ih =>
    refine (contained_ask _).bind fun node => ?_
    cases node with
    | index base place =>
      exact (hedit _ _).bind fun _ => (contained_changeNode _ _).bind fun _ => ih base
    | field record _ => exact ih record
    | _ => exact contained_pure ()

/-- Every part of the rules keeps signatures and messages, and fails only because of the limit. -/
structure ContainedRules (origin : Program) (limit : Nat) (rules : Rules κ) : Prop where
  value : ∀ id, Contained origin limit (rules.value id)
  target : ∀ id, Contained origin limit (rules.target id)
  operand : ∀ id, Contained origin limit (rules.operand id)
  place : ∀ id, Contained origin limit (rules.place id)

namespace ContainedRules

variable {rules : Rules κ} (hrules : ContainedRules origin limit rules)

include hrules

theorem editArguments (params : List Param) (arguments : List NodeId) :
    Contained origin limit (editArguments rules params arguments) := by
  induction params generalizing arguments with
  | nil => exact contained_pure _
  | cons param params ih =>
    cases arguments with
    | nil => exact contained_pure _
    | cons argument arguments =>
      have hrest (argument : NodeId) :
          Contained origin limit (do return argument :: (← Edit.editArguments rules
              params arguments) : Edit κ (List NodeId)) :=
        (ih arguments).bind fun _ => contained_pure _
      unfold Edit.editArguments
      split
      · exact (hrules.operand argument).bind hrest
      · exact (hrules.place argument).bind fun _ => hrest argument

theorem editStatement (id : NodeId) : Contained origin limit (editStatement rules id) := by
  have hchange (change : NodeId → Node → Node) (operand : NodeId) : Contained origin limit (do
      let operand ← rules.operand operand
      changeNode id (change operand)) :=
        (hrules.operand operand).bind fun _ => contained_changeNode _ _
  refine (contained_ask _).bind fun node => ?_
  cases node with
  | assign target value mask =>
    exact (hrules.value value).bind fun _ => (hrules.target target).bind fun _ =>
      contained_setNode _ _
  | call callee arguments result =>
    exact (contained_ask _).bind fun signature => (hrules.editArguments _ _).bind fun _ =>
      (Contained.forM hrules.place _).bind fun _ => contained_setNode _ _
  | branch condition _ _ => exact hchange (fun operand node => node.withCondition operand) condition
  | ret operand | discard operand =>
    cases operand with
    | none => exact contained_pure ()
    | some operand => exact hchange (fun operand node => node.withOperand operand) operand
  | _ => exact contained_pure ()

end ContainedRules

end Edit

/-! ### Sharing -/

namespace SharingPlan

open Edit

variable {plan : SharingPlan}

theorem contained_temporary? (number : ValueNumber) :
    Contained origin limit (temporary? number : SharingEdit (Option VarId)) :=
  fun _ hcontinues => hcontinues

theorem contained_remember (number : ValueNumber) (temporary : VarId) :
    Contained origin limit (remember number temporary) :=
  contained_modify fun _ => ⟨rfl, rfl⟩

theorem contained_shareExpression (budget : Nat) (id : NodeId) :
    Contained origin plan.limit (plan.shareExpression budget id) := by
  induction budget generalizing id with
  | zero => exact contained_throw
  | succ budget ih =>
    unfold shareExpression
    cases plan.targets.lookup id with
    | none => exact (Contained.editChildren ih id).bind fun _ => contained_pure id
    | some number =>
      refine (contained_temporary? number).bind fun temporary => ?_
      cases temporary with
      | some temporary => exact contained_markChanged.bind fun _ => contained_readOf temporary
      | none =>
        exact (Contained.editChildren ih id).bind fun _ => (contained_materialize id).bind
          fun temporary =>
          (contained_remember number temporary).bind fun _ => contained_readOf temporary

theorem containedRules : ContainedRules origin plan.limit plan.rules where
  value := contained_shareExpression plan.limit
  target := Contained.editPlace contained_shareExpression (plan.limit + 1)
  operand := contained_shareExpression plan.limit
  place := Contained.editPlace contained_shareExpression plan.limit

theorem contained_copyTo (target : NodeId) (temporary : VarId) :
    Contained origin limit (copyTo target temporary) :=
  (contained_readOf temporary).bind fun _ => contained_addNode _

theorem contained_shareCall (id : NodeId) (number : ValueNumber)
    (callee : SignatureId) (arguments : List NodeId) (target : NodeId) :
    Contained origin plan.limit (plan.shareCall id number callee arguments target) := by
  refine (contained_temporary? number).bind fun temporary => ?_
  cases temporary with
  | some temporary =>
    exact (containedRules.place target).bind fun _ =>
      (contained_copyTo target temporary).bind fun _ =>
      contained_markChanged.bind fun _ => contained_pure _
  | none =>
    exact (Contained.mapM containedRules.operand arguments).bind fun _ =>
      (containedRules.place target).bind fun _ =>
      (contained_ask _).bind fun _ => (contained_addTemporary _).bind fun _ =>
      (contained_readOf _).bind fun _ => (contained_setNode _ _).bind fun _ =>
        (contained_copyTo target _).bind fun _ =>
      (contained_remember number _).bind fun _ => contained_markChanged.bind fun _ =>
        contained_pure _

theorem contained_shareStatement (id : NodeId) :
    Contained origin plan.limit (plan.shareStatement id) := by
  have hstatement : Contained origin plan.limit (do
      editStatement plan.rules id
      return [id] : SharingEdit (List NodeId)) :=
        (containedRules.editStatement id).bind fun _ => contained_pure [id]
  unfold shareStatement
  refine (contained_ask _).bind fun node => ?_
  split
  · exact contained_shareCall _ _ _ _ _
  · exact contained_pure _
  · exact hstatement

theorem contained_shareInRange (range : BlockRange) (id : NodeId) :
    Contained origin plan.limit (plan.shareInRange range id) := by
  refine (contained_ask _).bind fun place => ?_
  cases place with
  | none => exact contained_pure range
  | some place =>
    have hattempt : Contained origin plan.limit (do
        let outcome ← Walk.attempt (plan.shareStatement id)
        let row := (← takePending) ++ outcome.toOption.getD [id]
        let statements ← ask fun program => program.list range.list
        let program ← ask fun program =>
          program.setList range.list (statements.take place ++ row ++ statements.drop (place + 1))
        modify fun draft => { draft with program }
        let _ ← liftExcept outcome
        return replaceIn range id row : SharingEdit BlockRange) := by
      intro draft hcontinues
      simp only [Walk.ensures_bind, Walk.ensures_attempt, ensures_takePending, ensures_ask,
        Walk.ensures_modify, Walk.ensures_liftExcept, Walk.ensures_pure]
      refine (contained_shareStatement id draft hcontinues).mono ?_ ?_
      · rintro row draft' hcontinues' statements hlist program hset
        exact ⟨fun _ _ => hcontinues'.trans (continues_setList hset), by simp⟩
      · rintro _ draft' ⟨rfl, hcontinues'⟩ statements hlist program hset
        refine ⟨by simp, ?_⟩
        rintro _ ⟨⟩
        exact ⟨rfl, hcontinues'.trans (continues_setList hset)⟩
    exact hattempt

theorem contained_shareRange (plan : SharingPlan) (range : BlockRange) :
    Contained origin plan.limit (plan.shareRange range) :=
  (contained_ask _).bind fun _ => Contained.foldlM contained_shareInRange _ _

end SharingPlan

variable {config : Config} {graph : Graph}

/-- Whatever the graph and the numbering, sharing in a block keeps signatures and messages, and
fails only because of the limit. -/
theorem contained_shareBlock {id : BlockId} {numbering : Numbering} {workspace : Workspace}
    (hcontinues : origin.Continues workspace.program) :
    Walk.Ensures (shareBlock id numbering config) workspace
      (fun _ workspace' => origin.Continues workspace'.program) fun failure workspace' =>
        failure = .tooDeep config.maxDepth ∧ origin.Continues workspace'.program := by
  unfold shareBlock
  dsimp only
  split
  · exact Walk.ensures_pure.mpr hcontinues
  · simp only [Walk.ensures_bind, Walk.ensures_get, Walk.ensures_liftCrash, Walk.ensures_modify,
      Walk.ensures_liftExcept, Walk.ensures_pure]
    rintro block - ⟨outcome, draft⟩ hwalk
    let plan := SharingPlan.ofNumbering numbering config
    have hranges := Edit.Contained.mapM plan.contained_shareRange block.ranges
      { program := workspace.program, memory := [] } hcontinues
    cases outcome with
    | error failure =>
      refine ⟨by simp, ?_⟩
      rintro _ ⟨⟩
      exact hranges.of_fails hwalk
    | ok ranges => exact ⟨fun _ _ _ _ => hranges.of_answers hwalk, by simp⟩

theorem contained_shareBlocks {numberings : List (BlockId × Numbering)} {workspace : Workspace}
    (hcontinues : origin.Continues workspace.program) :
    Walk.Ensures (shareBlocks numberings config) workspace
      (fun _ workspace' => origin.Continues workspace'.program) fun failure workspace' =>
        failure = .tooDeep config.maxDepth ∧ origin.Continues workspace'.program := by
  refine Walk.ensures_forM (fun state : Workspace => origin.Continues state.program)
    (fun entry _ state hstate => ?_) hcontinues
  exact Walk.ensures_bind.mpr (contained_shareBlock hstate)

/-! ### Programs whose text has no statement twice -/

namespace Program

variable {program : Program}

/-- A list that has been cut into ranges can be read as a code. -/
theorem exists_framed_of_rangesAfter {ref : ListRef}
    {nested : ListRef → Query PassError (List BlockRange)}
    {budget : Nat} (hnested : ∀ inner ranges, Query.Answers (nested inner) ranges →
      ∃ code, program.FramesCode code ∧ program.list inner = .ok code.heads ∧ code.depth < budget)
    {statements : List NodeId} {opened : Option (NodeId × NodeId)} {ranges : List BlockRange}
    (hranges : Query.Answers (program.rangesAfter ref nested opened statements) ranges) :
    ∃ code, program.FramesCode code ∧ code.heads = statements ∧ code.depth ≤ budget := by
  induction statements generalizing opened ranges with
  | nil => exact ⟨.nil, .nil, rfl, Nat.zero_le _⟩
  | cons statement rest ih =>
    rw [rangesAfter, Query.answers_bind] at hranges
    obtain ⟨node, hnode, hranges⟩ := hranges
    rw [Query.answers_liftCrash] at hnode
    have hstep (hlists : node.lists statement = [])
        {opened : Option (NodeId × NodeId)} {ranges : List BlockRange}
        (hranges : Query.Answers (program.rangesAfter ref nested opened rest) ranges) :
        ∃ code, program.FramesCode code ∧ code.heads = statement :: rest ∧ code.depth ≤ budget := by
      obtain ⟨code, hframed, rfl, hdepth⟩ := ih hranges
      exact ⟨.step ⟨statement, node, []⟩ code, .step hnode hlists hframed, rfl, hdepth⟩
    cases node with
    | branch condition thenBody elseBody =>
      simp only [Query.answers_bind, Query.answers_pure, Query.answers_liftCrash,
        nestedLists_of_node hnode, Except.ok.injEq, exists_eq_left', Node.lists,
        Query.answers_mapM_cons, Query.answers_mapM_nil] at hranges
      obtain ⟨_, ⟨_, _, hthen, ⟨_, _, helse, -, rfl⟩, rfl⟩, _, hrest, rfl⟩ := hranges
      obtain ⟨thenCode, hthenFramed, hthenList, hthenDepth⟩ := hnested _ _ hthen
      obtain ⟨elseCode, helseFramed, helseList, helseDepth⟩ := hnested _ _ helse
      obtain rfl := Except.ok.inj ((list_thenBody hnode).symm.trans hthenList)
      obtain rfl := Except.ok.inj ((list_elseBody hnode).symm.trans helseList)
      obtain ⟨code, hframed, rfl, hdepth⟩ := ih hrest
      refine ⟨.branch ⟨statement, _, []⟩ thenCode elseCode code,
        .branch hnode rfl hthenFramed helseFramed hframed, rfl, ?_⟩
      rw [Code.depth]
      omega
    | loop body =>
      simp only [Query.answers_bind, Query.answers_pure, Query.answers_liftCrash,
        nestedLists_of_node hnode, Except.ok.injEq, exists_eq_left', Node.lists,
        Query.answers_mapM_cons, Query.answers_mapM_nil] at hranges
      obtain ⟨_, ⟨_, _, hbody, -, rfl⟩, _, hrest, rfl⟩ := hranges
      obtain ⟨bodyCode, hbodyFramed, hbodyList, hbodyDepth⟩ := hnested _ _ hbody
      obtain rfl := Except.ok.inj ((list_loopBody hnode).symm.trans hbodyList)
      obtain ⟨code, hframed, rfl, hdepth⟩ := ih hrest
      refine ⟨.loop ⟨statement, _, []⟩ bodyCode code, .loop hnode rfl hbodyFramed hframed, rfl, ?_⟩
      rw [Code.depth]
      omega
    | call | ret =>
      simp only [Query.answers_bind, Query.answers_pure] at hranges
      obtain ⟨_, hrest, -⟩ := hranges
      exact hstep rfl hrest
    | _ => exact hstep rfl hranges

theorem exists_framed_of_rangesWithin {limit budget : Nat}
    {ref : ListRef} {ranges : List BlockRange}
    (hranges : Query.Answers (program.rangesWithin limit budget ref) ranges) :
    ∃ code, program.FramesCode code ∧ program.list ref = .ok code.heads ∧ code.depth < budget := by
  induction budget generalizing ref ranges with
  | zero => exact (Query.answers_throw hranges).elim
  | succ budget ih =>
    rw [rangesWithin, Query.answers_bind] at hranges
    obtain ⟨statements, hlist, hranges⟩ := hranges
    obtain ⟨code, hframed, rfl, hdepth⟩ := exists_framed_of_rangesAfter (fun _ _ => ih) hranges
    exact ⟨code, hframed, Query.answers_liftCrash.mp hlist, Nat.lt_succ_of_le hdepth⟩

/-- A program that can be cut into ranges has a code, unless a statement comes twice. -/
theorem StatementsOnce.exists_frames (honce : program.StatementsOnce) {limit : Nat}
    {ranges : List BlockRange} (hranges : Query.Answers (program.partition limit) ranges) :
    ∃ code, program.Frames code := by
  obtain ⟨code, hframed, hlist, -⟩ := exists_framed_of_rangesWithin hranges
  obtain ⟨rows, hrows, horder⟩ := hframed.exists_rows (Nat.le_refl _)
  exact ⟨code, hframed, Except.ok.inj hlist, honce _ _ (horder ▸ preOrderWithin_eq hlist hrows)⟩

end Program

/-! ### Failures -/

variable {program : Program}

/-- Sharing in the blocks of a graph that have been numbered never fails and keeps each statement in
one place, unless a statement comes twice. -/
theorem ensures_shareBlocks_of_build (honce : program.StatementsOnce)
    (hbuild : Query.Answers (Graph.build program config) graph)
    {numberings : List (BlockId × Numbering)}
    (hnumberings : Query.Answers (graph.numberBlocks program config) numberings) :
    Walk.Ensures (shareBlocks numberings config) ⟨program, graph⟩
      (fun _ workspace => workspace.program.StatementsOnce) fun _ _ => False := by
  obtain ⟨ranges, hranges⟩ : ∃ ranges,
    Query.Answers (program.partition config.maxDepth) ranges := by
    simp only [Graph.build, Graph.linked, Query.answers_bind] at hbuild
    obtain ⟨_, ⟨ranges, hranges, -⟩, -⟩ := hbuild
    exact ⟨ranges, hranges⟩
  obtain ⟨code, hframes⟩ := honce.exists_frames hranges
  have hdepicts := (Graph.built_of_frames hframes hbuild).depicts
  refine (ensures_shareBlocks_of_numberBlocks hframes (program.divides_all code) hdepicts
    hnumberings (.refl _)).mono ?_ fun _ _ => id
  rintro _ workspace ⟨row, edited, hshared⟩
  obtain ⟨code', hframes', -⟩ := hshared.shared.expanded.exists_frames hframes
  exact hframes'.statementsOnce

/-- Whether all blocks of a program can be numbered, so that sharing begins to edit them. -/
def Program.canBeNumbered (program : Program) (config : Config) : Bool :=
  let numberings : Query PassError (List (BlockId × Numbering)) := do
    let graph ← Graph.build program config
    graph.numberBlocks program config
  match numberings.run with
  | .ok (.ok _) => true
  | _ => false

theorem canBeNumbered_of_answers (hbuild : Query.Answers (Graph.build program config) graph)
    {numberings : List (BlockId × Numbering)}
    (hnumberings : Query.Answers (graph.numberBlocks program config) numberings) :
    program.canBeNumbered config = true := by
  have hboth : Query.Answers (do
      let graph ← Graph.build program config
      graph.numberBlocks program config) numberings :=
    Query.answers_bind.mpr ⟨graph, hbuild, hnumberings⟩
  change (match ExceptT.run (do
    let graph ← Graph.build program config
    graph.numberBlocks program config) with
    | .ok (.ok _) => true
    | _ => false) = true
  rw [show ExceptT.run _ = _ from hboth]

/-- A failure comes before the first change, unless a statement comes twice and, after all blocks
have been numbered, an expression nests too deep when it is met again. -/
theorem ensures_eliminateRepeated :
    Walk.Ensures (eliminateRepeated config) program (fun _ _ => True)
      fun failure after => after = program ∨
      (¬ program.StatementsOnce ∧ program.canBeNumbered config) ∧
      failure = .tooDeep config.maxDepth ∧
        program.Continues after := by
  simp only [eliminateRepeated, Walk.ensures_bind, Walk.ensures_get, Walk.ensures_liftQuery,
    Walk.ensures_liftCrash, Walk.ensures_set, Walk.ensures_liftExcept]
  refine ⟨fun graph hbuild => ⟨fun numberings hnumberings => ?_, by simp⟩, by simp⟩
  rintro ⟨outcome, workspace⟩ hwalk
  refine ⟨fun _ _ => trivial, ?_⟩
  rintro failure rfl
  obtain ⟨hfailure, hcontinues⟩ := (contained_shareBlocks (.refl program)).of_fails hwalk
  exact Or.inr ⟨⟨fun honce => (ensures_shareBlocks_of_build honce hbuild hnumberings).of_fails
      hwalk, canBeNumbered_of_answers hbuild hnumberings⟩, hfailure, hcontinues⟩

/-- A failure leaves the program as it was, but for the message of one that nests too deep: this
holds of all control flow that is not supported, and of depth if no statement comes twice in the
text. Whatever the program, depth is reported once and keeps the signatures. Where no statement
comes twice, no sharing fails once all blocks have been numbered. -/
theorem localCse_atomic (program : Program) (config : Config) :
    (∀ failure after, (localCse config).runFrom program = .ok (.error failure, after) →
      (∀ shape, failure = .unsupported shape → after = program) ∧
      ∀ limit, failure = .tooDeep limit →
        after.diagnostics = program.diagnostics ++ [failure.message] ∧
        after.signatures = program.signatures ∧
        (program.StatementsOnce → after = program.report failure.message)) ∧
    (program.StatementsOnce → ∀ graph numberings, Query.Answers (Graph.build program config) graph →
      Query.Answers (graph.numberBlocks program config) numberings → ∀ failure workspace,
        (shareBlocks numberings config).runFrom ⟨program, graph⟩ ≠
          .ok (.error failure, workspace)) := by
  refine ⟨fun failure after hrun => ?_,
    fun honce graph numberings hbuild hnumberings failure workspace hwalk =>
      (ensures_shareBlocks_of_build honce hbuild hnumberings).of_fails hwalk⟩
  have hensures : Walk.Ensures (localCse config) program (fun _ _ => True) fun failure after =>
      (∀ shape, failure = .unsupported shape → after = program) ∧
      ∀ limit, failure = .tooDeep limit →
        after.diagnostics = program.diagnostics ++ [failure.message] ∧
        after.signatures = program.signatures ∧
        (program.StatementsOnce → after = program.report failure.message) := by
    simp only [localCse, Walk.ensures_bind, Walk.ensures_attempt]
    refine ensures_eliminateRepeated.mono (fun _ _ => id) fun failure after hafter => ?_
    cases failure with
    | unsupported shape =>
      refine ⟨fun _ _ => hafter.resolve_right ?_, by simp⟩
      rintro ⟨-, hfailure, -⟩
      cases hfailure
    | tooDeep limit =>
      refine ⟨by simp, fun _ _ => ?_⟩
      rcases hafter with rfl | ⟨⟨hnot, -⟩, -, hcontinues⟩
      · exact ⟨rfl, rfl, fun _ => rfl⟩
      · exact ⟨congrArg (· ++ _) hcontinues.diagnostics, hcontinues.signatures,
          fun honce => absurd honce hnot⟩
  exact hensures.of_fails hrun

/-- An assignment whose value is an operand of itself. -/
def endlessValue : Program where
  nodes := #[.assign ⟨1⟩ ⟨2⟩ 0, .variable ⟨0⟩, .apply .neg [⟨2⟩] (.vector .float 1)]
  vars := #[⟨"x", .vector .float 1, .auto⟩]
  body := [⟨0⟩]

theorem statementsOnce_endlessValue : endlessValue.StatementsOnce := by
  rintro (_ | steps) order horder
  · cases horder
  · obtain rfl : [⟨0⟩] = order := Except.ok.inj horder
    exact List.nodup_singleton _

/-- Two writes of one call. -/
def twoCalls : Program where
  nodes := #[.variable ⟨0⟩, .call ⟨0⟩ [] (some ⟨0⟩), .variable ⟨1⟩, .call ⟨0⟩ [] (some ⟨2⟩)]
  vars := #[⟨"x", .vector .float 1, .auto⟩, ⟨"y", .vector .float 1, .auto⟩]
  signatures := #[⟨"f", [], .vector .float 1⟩]
  body := [⟨1⟩, ⟨3⟩]

theorem localCse_atomic_endlessValue : ∃ graph numberings,
    (localCse { maxDepth := 4 }).runFrom endlessValue =
      .ok (.error (.tooDeep 4), endlessValue.report (PassError.tooDeep 4).message) ∧
    Query.Answers (Graph.build twoCalls { eligible := .all }) graph ∧
    Query.Answers (graph.numberBlocks twoCalls { eligible := .all }) numberings ∧
    ∀ failure workspace, (shareBlocks numberings { eligible := .all }).runFrom ⟨twoCalls, graph⟩ ≠
      .ok (.error failure, workspace) := by
  have hfails : ((localCse { maxDepth := 4 }).runFrom endlessValue).map Prod.fst =
      .ok (.error (.tooDeep 4)) := by
    decide +kernel
  obtain ⟨⟨outcome, after⟩, hrun, rfl⟩ := map_eq_ok_iff.mp hfails
  have hreported := ((localCse_atomic endlessValue { maxDepth := 4 }).1 _ _ hrun).2 4 rfl
  obtain rfl := hreported.2.2 statementsOnce_endlessValue
  have hcheck : twoCalls.check = .ok () := rfl
  obtain ⟨code, houtlines⟩ := twoCalls.exists_outlines_of_check hcheck
  obtain ⟨graph, numberings, hbuild, hnumberings⟩ : ∃ graph numberings,
      Query.Answers (Graph.build twoCalls { eligible := .all }) graph ∧
        Query.Answers (graph.numberBlocks twoCalls { eligible := .all }) numberings :=
          ⟨_, _, rfl, rfl⟩
  exact ⟨graph, numberings, hrun, hbuild, hnumberings,
    (localCse_atomic twoCalls { eligible := .all }).2 houtlines.frames.statementsOnce _ _ hbuild
      hnumberings⟩

/-- A conditional that stands twice in its list. Its body calls a function twice, the second time
from two places. -/
def repeatedStatement : Program where
  nodes :=
    #[.variable ⟨0⟩, .call ⟨0⟩ [] (some ⟨0⟩), .variable ⟨1⟩, .call ⟨0⟩ [] (some ⟨2⟩), .variable ⟨0⟩,
    .variable ⟨1⟩, .apply .neg [⟨5⟩] (.vector .float 1), .assign ⟨4⟩ ⟨6⟩ 0, .variable ⟨2⟩,
    .branch ⟨8⟩ [⟨1⟩, ⟨3⟩, ⟨7⟩, ⟨3⟩] []]
  vars := #[⟨"x", .vector .float 1, .auto⟩, ⟨"y", .vector .float 1, .auto⟩, ⟨"c", .bool, .input⟩]
  signatures := #[⟨"f", [], .vector .float 1⟩]
  body := [⟨9⟩, ⟨9⟩]

theorem localCse_tooDeep_repeatedStatement : ∃ after,
    (localCse { eligible := .call, maxDepth := 1 }).runFrom repeatedStatement =
      .ok (.error (.tooDeep 1), after) ∧
    after.nodes.size = 18 ∧ after.vars.size = 5 ∧
    after.node ⟨9⟩ = .ok (.branch ⟨8⟩ [⟨1⟩, ⟨17⟩, ⟨12⟩, ⟨14⟩, ⟨7⟩, ⟨3⟩] []) ∧
    repeatedStatement.node ⟨9⟩ = .ok (.branch ⟨8⟩ [⟨1⟩, ⟨3⟩, ⟨7⟩, ⟨3⟩] []) := by
  have hfails : ((localCse { eligible := .call, maxDepth := 1 }).runFrom repeatedStatement).map
      (fun reached => (reached.1, reached.2.nodes.size, reached.2.vars.size, reached.2.node ⟨9⟩)) =
      .ok (.error (.tooDeep 1), 18, 5, .ok (.branch ⟨8⟩ [⟨1⟩, ⟨17⟩, ⟨12⟩, ⟨14⟩, ⟨7⟩, ⟨3⟩] [])) := by
    decide +kernel
  obtain ⟨⟨outcome, after⟩, hrun, hreached⟩ := map_eq_ok_iff.mp hfails
  simp only [Prod.mk.injEq] at hreached
  obtain ⟨rfl, hnodes, hvars, hnode⟩ := hreached
  exact ⟨after, hrun, hnodes, hvars, hnode, rfl⟩

end ShaderIR
