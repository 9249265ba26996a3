import ShaderIR.Pass.Pipeline
import ShaderIR.Proofs.Outline.Order
import ShaderIR.Proofs.Outcomes

/-!
No pass reads the diagnostics. Whatever is asked about a program has the same answer if other
diagnostics have been reported, and every walk over a program does the same then (`Walk.Carries`).
So passes only ever add to the diagnostics what they report themselves.
-/

set_option autoImplicit false

namespace ShaderIR

/-- The program with other diagnostics. -/
def Program.withDiagnostics (program : Program) (diagnostics : List String) : Program :=
  { program with diagnostics }

variable (program : Program) (diagnostics : List String)

/-! ### Additions -/

namespace Program

theorem addNode_withDiagnostics (program : Program) (node : Node) :
    (program.withDiagnostics diagnostics).addNode node =
      (program.addNode node).map (Prod.map id (·.withDiagnostics diagnostics)) := by
  unfold addNode withDiagnostics
  dsimp only
  split <;> rfl

theorem addTemporary_withDiagnostics (program : Program) (ty : Ty) :
    (program.withDiagnostics diagnostics).addTemporary ty =
      (program.addTemporary ty).map (Prod.map id (·.withDiagnostics diagnostics)) := by
  unfold addTemporary addVariable withDiagnostics
  dsimp only
  cases program.temporaries.allocate with
  | error cause => rfl
  | ok allocated =>
    dsimp only [bind, Except.bind]
    split <;> rfl

theorem addAssignment_withDiagnostics (program : Program) (target : VarId) (value : NodeId) :
    (program.withDiagnostics diagnostics).addAssignment target value =
      (program.addAssignment target value).map (Prod.map id (·.withDiagnostics diagnostics)) := by
  unfold addAssignment
  rw [addNode_withDiagnostics]
  cases program.addNode (.variable target) with
  | error cause => rfl
  | ok place => exact addNode_withDiagnostics diagnostics place.2 _

end Program

/-! ### Questions -/

namespace Program

@[simp] theorem node_withDiagnostics : (program.withDiagnostics diagnostics).node = program.node :=
  rfl

@[simp] theorem signature_withDiagnostics :
    (program.withDiagnostics diagnostics).signature = program.signature :=
  rfl

@[simp] theorem variableOf_withDiagnostics :
    (program.withDiagnostics diagnostics).variableOf = program.variableOf :=
  rfl

@[simp] theorem list_withDiagnostics : (program.withDiagnostics diagnostics).list = program.list :=
  rfl

@[simp] theorem nestedLists_withDiagnostics :
    (program.withDiagnostics diagnostics).nestedLists = program.nestedLists :=
  rfl

@[simp] theorem typeWithin_withDiagnostics (steps : Nat) :
    (program.withDiagnostics diagnostics).typeWithin steps = program.typeWithin steps := by
  induction steps with
  | zero => rfl
  | succ steps ih =>
    funext id
    simp only [typeWithin, ih, node_withDiagnostics, variableOf_withDiagnostics,
      signature_withDiagnostics]

@[simp] theorem rangesAfter_withDiagnostics (ref : ListRef)
    (nested : ListRef → Query PassError (List BlockRange))
    (opened : Option (NodeId × NodeId)) (statements : List NodeId) :
    (program.withDiagnostics diagnostics).rangesAfter ref nested opened statements =
      program.rangesAfter ref nested opened statements := by
  induction statements generalizing opened with
  | nil => cases opened <;> rfl
  | cons statement rest ih =>
    simp only [rangesAfter, ih, node_withDiagnostics, nestedLists_withDiagnostics]

@[simp] theorem rangesWithin_withDiagnostics (limit budget : Nat) :
    (program.withDiagnostics diagnostics).rangesWithin limit budget =
      program.rangesWithin limit budget := by
  induction budget with
  | zero => rfl
  | succ budget ih =>
    funext ref
    simp only [rangesWithin, ih, list_withDiagnostics, rangesAfter_withDiagnostics]

@[simp] theorem fitsWithin_withDiagnostics (budget : Nat) :
    (program.withDiagnostics diagnostics).fitsWithin budget = program.fitsWithin budget := by
  induction budget with
  | zero => rfl
  | succ budget ih =>
    funext id
    simp only [fitsWithin, ih, node_withDiagnostics]

@[simp] theorem checkDepthWithin_withDiagnostics (limit budget : Nat) :
    (program.withDiagnostics diagnostics).checkDepthWithin limit budget =
      program.checkDepthWithin limit budget := by
  induction budget with
  | zero => rfl
  | succ budget ih =>
    funext ref
    simp only [checkDepthWithin, ih, list_withDiagnostics, fitsWithin_withDiagnostics,
      nestedLists_withDiagnostics]

@[simp] theorem preOrderWithin_withDiagnostics (steps : Nat) :
    (program.withDiagnostics diagnostics).preOrderWithin steps = program.preOrderWithin steps := by
  induction steps with
  | zero => rfl
  | succ steps ih =>
    funext ref
    have horder : (program.withDiagnostics diagnostics).preOrderOf = program.preOrderOf := rfl
    simp only [preOrderWithin, horder, ih, list_withDiagnostics]

theorem statementsOnce_withDiagnostics_iff :
    (program.withDiagnostics diagnostics).StatementsOnce ↔ program.StatementsOnce := by
  simp only [StatementsOnce, preOrderWithin_withDiagnostics]

@[simp] theorem numberExpression_withDiagnostics (eligible : NodeKinds) (budget : Nat) :
    (program.withDiagnostics diagnostics).numberExpression eligible budget =
      program.numberExpression eligible budget := by
  induction budget with
  | zero => rfl
  | succ budget ih =>
    funext id
    simp only [numberExpression, ih, node_withDiagnostics]

@[simp] theorem numberPlace_withDiagnostics (eligible : NodeKinds) (budget : Nat) :
    (program.withDiagnostics diagnostics).numberPlace eligible budget =
      program.numberPlace eligible budget := by
  induction budget with
  | zero => rfl
  | succ budget ih =>
    funext id
    simp only [numberPlace, ih, node_withDiagnostics, numberExpression_withDiagnostics]

@[simp] theorem numberStatements_withDiagnostics (statements : List NodeId) (config : Config) :
    (program.withDiagnostics diagnostics).numberStatements statements config =
      program.numberStatements statements config := by
  have hpartial :
      (program.withDiagnostics diagnostics).isPartialWrite = program.isPartialWrite := rfl
  have hstore : (program.withDiagnostics diagnostics).numberStore = program.numberStore := by
    funext config target mask value
    simp only [numberStore, numberPlace_withDiagnostics, hpartial]
  have hstatement : (program.withDiagnostics diagnostics).numberStatement config =
      program.numberStatement config := by
    funext id
    simp only [numberStatement, numberPureCall, numberEffectfulCall,
      numberExpression_withDiagnostics, hstore, node_withDiagnostics, signature_withDiagnostics]
  simp only [numberStatements, hstatement]

end Program

namespace Graph

@[simp] theorem flowWithin_withDiagnostics (graph : Graph) (limit budget : Nat) :
    graph.flowWithin (program.withDiagnostics diagnostics) limit budget =
      graph.flowWithin program limit budget := by
  have hthrough (after : Option BlockId)
      (nested : ListRef → Option BlockId → Query PassError (List Edge)) (blocks : List BasicBlock) :
        graph.flowThrough (program.withDiagnostics diagnostics) after nested blocks =
        graph.flowThrough program after nested blocks := by
    induction blocks with
    | nil => rfl
    | cons block rest ih => simp only [flowThrough, ih, Program.node_withDiagnostics]
  induction budget with
  | zero => rfl
  | succ budget ih =>
    funext ref after
    simp only [flowWithin, ih, hthrough]

@[simp] theorem mergeWithin_withDiagnostics (merges : Nat) :
    mergeWithin (program.withDiagnostics diagnostics) merges = mergeWithin program merges := by
  have habsorber (graph : Graph) :
      graph.absorber? (program.withDiagnostics diagnostics) = graph.absorber? program := rfl
  have hcandidate (graph : Graph) (blocks : List BasicBlock) :
      graph.mergeCandidate? (program.withDiagnostics diagnostics) blocks =
        graph.mergeCandidate? program blocks := by
    induction blocks with
    | nil => rfl
    | cons block rest ih => simp only [mergeCandidate?, ih, habsorber]
  induction merges with
  | zero => rfl
  | succ merges ih =>
    funext graph
    simp only [mergeWithin, ih, hcandidate]

@[simp] theorem build_withDiagnostics (config : Config) :
    build (program.withDiagnostics diagnostics) config = build program config := by
  have hstatements (block : BasicBlock) :
      block.statements (program.withDiagnostics diagnostics) = block.statements program := rfl
  have hdiscard : isDiscard (program.withDiagnostics diagnostics) = isDiscard program := rfl
  have hfirst (blocks : List BasicBlock) :
      firstDiscard? (program.withDiagnostics diagnostics) blocks =
        firstDiscard? program blocks := by
    induction blocks with
    | nil => rfl
    | cons block rest ih => simp only [firstDiscard?, ih, hstatements, hdiscard]
  simp only [build, linked, flow, mergeChains, rejectDiscard,
    Program.partition, flowWithin_withDiagnostics,
    mergeWithin_withDiagnostics, Program.rangesWithin_withDiagnostics, hfirst]

@[simp] theorem numberBlocks_withDiagnostics (graph : Graph) (config : Config) :
    graph.numberBlocks (program.withDiagnostics diagnostics) config =
      graph.numberBlocks program config := by
  have hstatements (block : BasicBlock) :
      block.statements (program.withDiagnostics diagnostics) = block.statements program := rfl
  simp only [numberBlocks, hstatements, Program.numberStatements_withDiagnostics]

end Graph

/-! ### Walks -/

namespace Walk

variable {ε ε' σ α β : Type}

/-- A walk from a changed state ends like the one from the state itself, in a state changed in the
same way. -/
def Carries (change : σ → σ) (walk : Walk ε σ α) : Prop :=
  ∀ start, walk.runFrom (change start) = (walk.runFrom start).map (Prod.map id change)

variable {change : σ → σ} {walk : Walk ε σ α}

/-- A state that is not changed leads to one that is not changed either. -/
theorem Carries.eq_of_eq (hcarries : Carries change walk) {start stop : σ} {outcome : Except ε α}
    (hstart : change start = start) (hrun : walk.runFrom start = .ok (outcome, stop)) :
    change stop = stop := by
  have hchanged := hcarries start
  rw [hstart, hrun] at hchanged
  exact (congrArg Prod.snd (Except.ok.inj hchanged)).symm

theorem carries_pure (value : α) : Carries change (pure value : Walk ε σ α) := fun _ => rfl

theorem carries_throw (failure : ε) : Carries change (throw failure : Walk ε σ α) := fun _ => rfl

theorem carries_liftCrash (request : Except Crash α) :
    Carries change (liftM request : Walk ε σ α) := by
  cases request with
  | error cause => exact fun _ => rfl
  | ok answer => exact fun _ => rfl

theorem carries_liftExcept (outcome : Except ε α) :
    Carries change (liftExcept outcome : Walk ε σ α) := by
  cases outcome with
  | error failure => exact carries_throw failure
  | ok answer => exact carries_pure answer

theorem carries_modifyGet {step : σ → α × σ}
    (hstep : ∀ state, step (change state) = (step state).map id change) :
    Carries change (modifyGet step : Walk ε σ α) := fun start =>
  congrArg (fun reached : α × σ =>
    (Except.ok (Except.ok reached.1, reached.2) : Except Crash (Except ε α × σ))) (hstep start)

theorem carries_modify {step : σ → σ} (hstep : ∀ state, step (change state) = change (step state)) :
    Carries change (modify step : Walk ε σ PUnit) :=
  carries_modifyGet fun state => Prod.ext rfl (hstep state)

theorem carries_get_bind {next : σ → Walk ε σ α} (hnext : ∀ state, (next (change state)).runFrom
      (change state) = ((next state).runFrom state).map (Prod.map id change)) :
    Carries change (get >>= next) :=
  hnext

theorem Carries.bind {next : α → Walk ε σ β} (hwalk : Carries change walk)
    (hnext : ∀ answer, Carries change (next answer)) : Carries change (walk >>= next) := by
  intro start
  have hrun (start : σ) : (walk >>= next).runFrom start = walk.runFrom start >>= fun reached =>
      (ExceptT.bindCont next reached.1).run reached.2 := rfl
  rw [hrun, hrun, hwalk]
  rcases walk.runFrom start with cause | ⟨failure | answer, state⟩
  · rfl
  · rfl
  · exact hnext answer state

theorem Carries.attempt (hwalk : Carries change walk) :
    Carries change (Walk.attempt walk : Walk ε' σ (Except ε α)) := by
  intro start
  rw [runFrom_attempt, runFrom_attempt, hwalk]
  cases walk.runFrom start <;> rfl

/-- A question in the middle of a walk. -/
theorem map_runFrom_liftQuery_bind (change : σ → σ) (query : Query ε α) {start : σ}
    {next next' : α → Walk ε σ β} (hnext : ∀ answer, (next answer).runFrom (change start) =
      ((next' answer).runFrom start).map (Prod.map id change)) :
    ((liftM query : Walk ε σ α) >>= next).runFrom (change start) =
      (((liftM query : Walk ε σ α) >>= next').runFrom start).map (Prod.map id change) := by
  rcases query with cause | failure | answer
  · rfl
  · rfl
  · exact hnext answer

/-- A walk of its own that is run in the middle of a walk. -/
theorem Carries.map_runFrom_bind {τ : Type} {inner : Walk ε τ β}
    {inside : τ → τ} (hinner : Carries inside inner) (change : σ → σ) (init : τ)
    {start : σ} {next next' : Except ε β × τ → Walk ε' σ α} (hnext : ∀ outcome stop,
      (next (outcome, inside stop)).runFrom (change start) =
        ((next' (outcome, stop)).runFrom start).map (Prod.map id change)) :
    ((liftM (inner.runFrom (inside init)) : Walk ε' σ _) >>= next).runFrom (change start) =
      (((liftM (inner.runFrom init) : Walk ε' σ _) >>= next').runFrom start).map
        (Prod.map id change) := by
  rw [hinner]
  rcases inner.runFrom init with cause | ⟨outcome, stop⟩
  · rfl
  · exact hnext outcome stop

theorem carries_mapM {step : α → Walk ε σ β}
    (hstep : ∀ item, Carries change (step item)) (items : List α) :
    Carries change (items.mapM step) := by
  induction items with
  | nil => exact carries_pure []
  | cons first rest ih =>
    rw [List.mapM_cons]
    exact (hstep first).bind fun _ => ih.bind fun _ => carries_pure _

theorem carries_forM {step : α → Walk ε σ PUnit}
    (hstep : ∀ item, Carries change (step item)) (items : List α) :
    Carries change (items.forM step) := by
  induction items with
  | nil => exact carries_pure PUnit.unit
  | cons first rest ih => exact (hstep first).bind fun _ => ih

theorem carries_foldlM {step : β → α → Walk ε σ β}
    (hstep : ∀ reached item, Carries change (step reached item))
    (items : List α) (start : β) : Carries change (items.foldlM step start) := by
  induction items generalizing start with
  | nil => exact carries_pure start
  | cons first rest ih =>
    rw [List.foldlM_cons]
    exact (hstep start first).bind ih

end Walk

open Walk

/-! ### Edits -/

/-- The draft of a program with other diagnostics. -/
def Draft.withDiagnostics {κ : Type} (diagnostics : List String) (draft : Draft κ) : Draft κ :=
  { draft with program := draft.program.withDiagnostics diagnostics }

namespace Edit

variable {κ α : Type}

/-- Other diagnostics make no difference to an edit. -/
abbrev Unread (diagnostics : List String) (edit : Edit κ α) : Prop :=
  Carries (Draft.withDiagnostics diagnostics) edit

variable {diagnostics : List String}

theorem unread_ask {request : Program → Except Crash α} (hrequest : ∀ program : Program,
      request (program.withDiagnostics diagnostics) = request program) :
    Unread diagnostics (ask request : Edit κ α) := by
  refine carries_get_bind fun draft => ?_
  have hsame : request (draft.withDiagnostics diagnostics).program = request draft.program :=
    hrequest draft.program
  rw [hsame]
  exact carries_liftCrash _ draft

theorem unread_changeNode (id : NodeId) (change : Node → Node) :
    Unread diagnostics (changeNode id change : Edit κ Unit) :=
  (unread_ask fun _ => rfl).bind fun _ => carries_modify fun _ => rfl

theorem unread_setNode (id : NodeId) (node : Node) :
    Unread diagnostics (setNode id node : Edit κ Unit) :=
  carries_modify fun _ => rfl

theorem unread_markChanged : Unread diagnostics (markChanged : Edit κ Unit) :=
  carries_modify fun _ => rfl

/-- An addition that does not read the diagnostics keeps them. -/
theorem unread_create {addition : Program → Except Crash (α × Program)}
    (haddition : ∀ program : Program, addition (program.withDiagnostics diagnostics) =
      (addition program).map (Prod.map id (·.withDiagnostics diagnostics))) :
    Unread diagnostics (create addition : Edit κ α) := by
  refine carries_get_bind fun draft => ?_
  change Walk.runFrom (liftM (addition (draft.program.withDiagnostics diagnostics)) >>= _) _ = _
  rw [haddition]
  cases addition draft.program <;> rfl

theorem unread_readOf (id : VarId) : Unread diagnostics (readOf id : Edit κ NodeId) :=
  unread_create fun program => program.addNode_withDiagnostics diagnostics _

theorem unread_takePending : Unread diagnostics (takePending : Edit κ (List NodeId)) :=
  carries_modifyGet fun _ => rfl

theorem unread_materialize (id : NodeId) : Unread diagnostics (materialize id : Edit κ VarId) := by
  have htype (program : Program) :
      (program.withDiagnostics diagnostics).typeOf id = program.typeOf id := by
    rw [Program.typeOf, Program.typeWithin_withDiagnostics]
    rfl
  refine (unread_ask htype).bind fun ty =>
    (unread_create fun program => program.addTemporary_withDiagnostics diagnostics ty).bind
      fun temporary => ?_
  refine (unread_create fun program =>
    program.addAssignment_withDiagnostics diagnostics temporary id).bind fun _ => ?_
  exact Carries.bind (carries_modify fun _ => rfl) fun _ => carries_pure _

theorem unread_editChildren {edit : NodeId → Edit κ NodeId}
    (hedit : ∀ id, Unread diagnostics (edit id)) (id : NodeId) :
    Unread diagnostics (editChildren edit id) :=
  (unread_ask fun _ => rfl).bind fun _ => (carries_mapM hedit _).bind fun _ =>
    unread_changeNode id _

theorem unread_editPlace {edit : Nat → NodeId → Edit κ NodeId}
    (hedit : ∀ budget id, Unread diagnostics (edit budget id))
    (limit budget : Nat) (id : NodeId) : Unread diagnostics (editPlace limit edit budget id) := by
  induction budget generalizing id with
  | zero => exact carries_throw _
  | succ budget ih =>
    refine (unread_ask fun _ => rfl).bind fun node => ?_
    cases node with
    | index base place =>
      exact (hedit budget place).bind fun _ => (unread_changeNode id _).bind fun _ => ih base
    | field record => exact ih record
    | _ => exact carries_pure _

theorem unread_setList (ref : ListRef) (statements : List NodeId) : Unread diagnostics (do
    let program ← ask fun program => program.setList ref statements
    modify fun draft => { draft with program } : Edit κ PUnit) := by
  have hset (program : Program) : (program.withDiagnostics diagnostics).setList ref statements =
      (program.setList ref statements).map (Program.withDiagnostics · diagnostics) := by
    unfold Program.setList
    rw [Program.node_withDiagnostics]
    split
    · rfl
    all_goals
      cases program.node _ with
      | error cause => rfl
      | ok node => cases node <;> rfl
  have hrun (draft : Draft κ) : (do
      let program ← ask fun program => program.setList ref statements
      modify fun draft => { draft with program } : Edit κ PUnit).runFrom draft =
        (draft.program.setList ref statements).map fun program =>
          (.ok ⟨⟩, { draft with program }) := by
    change ((liftM (draft.program.setList ref statements) : Edit κ Program) >>= _).runFrom draft = _
    cases draft.program.setList ref statements <;> rfl
  intro draft
  have hsame :
      (draft.withDiagnostics diagnostics).program = draft.program.withDiagnostics diagnostics := rfl
  rw [hrun, hrun, hsame, hset]
  cases draft.program.setList ref statements <;> rfl

/-- Other diagnostics make no difference to the rules of a pass. -/
structure Rules.Unread (diagnostics : List String) (rules : Rules κ) : Prop where
  value : ∀ id, Edit.Unread diagnostics (rules.value id)
  target : ∀ id, Edit.Unread diagnostics (rules.target id)
  operand : ∀ id, Edit.Unread diagnostics (rules.operand id)
  place : ∀ id, Edit.Unread diagnostics (rules.place id)

variable {rules : Rules κ}

theorem unread_editArguments (hrules : rules.Unread diagnostics)
    (params : List Param) (arguments : List NodeId) :
    Unread diagnostics (editArguments rules params arguments) := by
  induction params generalizing arguments with
  | nil => exact carries_pure _
  | cons param params ih =>
    cases arguments with
    | nil => exact carries_pure _
    | cons argument arguments =>
      unfold editArguments
      split
      · exact (hrules.operand argument).bind fun _ => (ih arguments).bind fun _ => carries_pure _
      · exact (hrules.place argument).bind fun _ => (ih arguments).bind fun _ => carries_pure _

theorem unread_editStatement (hrules : rules.Unread diagnostics) (id : NodeId) :
    Unread diagnostics (editStatement rules id) := by
  have hoperand (operand : NodeId) (change : NodeId → Node → Node) : Unread diagnostics (do
      let operand ← rules.operand operand
      changeNode id (change operand) : Edit κ Unit) :=
    (hrules.operand operand).bind fun _ => unread_changeNode id _
  refine (unread_ask fun _ => rfl).bind fun node => ?_
  cases node with
  | assign target value mask =>
    exact (hrules.value value).bind fun _ => (hrules.target target).bind fun _ =>
      unread_setNode id _
  | call callee arguments result =>
    exact (unread_ask fun _ => rfl).bind fun _ => (unread_editArguments hrules _ _).bind fun _ =>
      (carries_forM hrules.place _).bind fun _ => unread_setNode id _
  | branch condition => exact hoperand condition _
  | ret operand | discard operand =>
    cases operand with
    | none => exact carries_pure _
    | some operand => exact hoperand operand _
  | _ => exact carries_pure _

end Edit

open Edit

variable {diagnostics : List String}

/-! ### Hoisting -/

namespace ThreeAddress

theorem unread_hoistExpression (limit budget : Nat) (id : NodeId) :
    Unread diagnostics (hoistExpression limit budget id) := by
  induction budget generalizing id with
  | zero => exact carries_throw _
  | succ budget ih =>
    unfold hoistExpression
    refine (unread_editChildren ih id).bind fun _ => (unread_ask fun _ => rfl).bind fun _ => ?_
    split
    · exact (unread_materialize id).bind fun _ => unread_readOf _
    · exact carries_pure id

theorem unread_rules (limit budget : Nat) : (rules limit budget).Unread diagnostics where
  value id := by
    refine (unread_ask fun _ => rfl).bind fun _ => ?_
    split
    · exact (unread_editChildren (unread_hoistExpression limit _) id).bind fun _ => carries_pure id
    · exact unread_hoistExpression limit budget id
  target := unread_editPlace (unread_hoistExpression limit) limit budget
  operand := unread_hoistExpression limit budget
  place := unread_editPlace (unread_hoistExpression limit) limit budget

theorem unread_hoistList (limit budget : Nat) (ref : ListRef) :
    Unread diagnostics (hoistList limit budget ref) := by
  induction budget generalizing ref with
  | zero => exact carries_throw _
  | succ budget ih =>
    refine (unread_ask fun _ => rfl).bind fun statements => Carries.bind
      (carries_mapM (fun statement => ?_) statements) fun rows => unread_setList ref rows.flatten
    exact (unread_editStatement (unread_rules limit budget) statement).bind fun _ =>
      unread_takePending.bind fun _ =>
      (unread_ask fun _ => rfl).bind fun _ => (carries_forM ih _).bind fun _ => carries_pure _

end ThreeAddress

/-! ### Sharing -/

namespace SharingPlan

theorem unread_temporary? (number : ValueNumber) : Unread diagnostics (temporary? number) :=
  carries_get_bind fun _ => rfl

theorem unread_remember (number : ValueNumber) (temporary : VarId) :
    Unread diagnostics (remember number temporary) :=
  carries_modify fun _ => rfl

theorem unread_shareExpression (plan : SharingPlan) (budget : Nat) (id : NodeId) :
    Unread diagnostics (plan.shareExpression budget id) := by
  induction budget generalizing id with
  | zero => exact carries_throw _
  | succ budget ih =>
    unfold shareExpression
    split
    · exact (unread_editChildren ih id).bind fun _ => carries_pure id
    · refine (unread_temporary? _).bind fun temporary => ?_
      cases temporary with
      | some temporary => exact unread_markChanged.bind fun _ => unread_readOf temporary
      | none =>
        exact (unread_editChildren ih id).bind fun _ => (unread_materialize id).bind fun _ =>
          (unread_remember _ _).bind fun _ => unread_readOf _

theorem unread_sharePlace (plan : SharingPlan) (id : NodeId) :
    Unread diagnostics (plan.sharePlace id) :=
  unread_editPlace plan.unread_shareExpression plan.limit plan.limit id

theorem unread_rules (plan : SharingPlan) : plan.rules.Unread diagnostics where
  value := plan.unread_shareExpression plan.limit
  target := unread_editPlace plan.unread_shareExpression plan.limit (plan.limit + 1)
  operand := plan.unread_shareExpression plan.limit
  place := plan.unread_sharePlace

theorem unread_copyTo (target : NodeId) (temporary : VarId) :
    Unread diagnostics (copyTo target temporary) :=
  (unread_readOf temporary).bind fun _ => unread_create fun program =>
    program.addNode_withDiagnostics diagnostics _

theorem unread_shareCall (plan : SharingPlan) (id : NodeId) (number : ValueNumber)
    (callee : SignatureId) (arguments : List NodeId) (target : NodeId) :
    Unread diagnostics (plan.shareCall id number callee arguments target) := by
  refine (unread_temporary? number).bind fun temporary => ?_
  cases temporary with
  | some temporary =>
    exact (plan.unread_sharePlace target).bind fun _ =>
      (unread_copyTo target temporary).bind fun _ =>
      unread_markChanged.bind fun _ => carries_pure _
  | none =>
    exact (carries_mapM (plan.unread_shareExpression plan.limit) arguments).bind fun _ =>
      (plan.unread_sharePlace target).bind fun _ => (unread_ask fun _ => rfl).bind fun _ =>
      (unread_create fun program => program.addTemporary_withDiagnostics diagnostics _).bind
        fun _ => (unread_readOf _).bind fun _ =>
      (unread_setNode id _).bind fun _ => (unread_copyTo target _).bind fun _ =>
        (unread_remember number _).bind fun _ =>
      unread_markChanged.bind fun _ => carries_pure _

theorem unread_shareStatement (plan : SharingPlan) (id : NodeId) :
    Unread diagnostics (plan.shareStatement id) := by
  refine (unread_ask fun _ => rfl).bind fun node => ?_
  split
  · exact plan.unread_shareCall id _ _ _ _
  · exact carries_pure [id]
  · exact (unread_editStatement plan.unread_rules id).bind fun _ => carries_pure [id]

theorem unread_shareRange (plan : SharingPlan) (range : BlockRange) :
    Unread diagnostics (plan.shareRange range) := by
  refine (unread_ask fun _ => rfl).bind fun statements =>
    carries_foldlM (fun range id => ?_) statements range
  refine (unread_ask fun _ => rfl).bind fun found => ?_
  cases found with
  | none => exact carries_pure range
  | some place =>
    refine (plan.unread_shareStatement id).attempt.bind fun outcome =>
      unread_takePending.bind fun pending =>
      (unread_ask fun _ => rfl).bind fun statements => ?_
    rw [← bind_assoc]
    exact (unread_setList _ _).bind fun _ => (carries_liftExcept outcome).bind fun _ =>
      carries_pure _

end SharingPlan

/-- The workspace of a program with other diagnostics. -/
def Workspace.withDiagnostics (diagnostics : List String) (workspace : Workspace) : Workspace :=
  { workspace with program := workspace.program.withDiagnostics diagnostics }

theorem carries_shareBlock (id : BlockId) (numbering : Numbering) (config : Config) :
    Carries (Workspace.withDiagnostics diagnostics) (shareBlock id numbering config) := by
  unfold shareBlock
  dsimp only
  split
  · exact carries_pure false
  refine carries_get_bind fun workspace => ?_
  have hblock :
      (workspace.withDiagnostics diagnostics).graph.block id = workspace.graph.block id := rfl
  rw [hblock]
  cases workspace.graph.block id with
  | error cause => rfl
  | ok block =>
    have hwalk : Unread diagnostics
        (block.ranges.mapM (SharingPlan.ofNumbering numbering config).shareRange) :=
      carries_mapM (SharingPlan.ofNumbering numbering config).unread_shareRange block.ranges
    refine hwalk.map_runFrom_bind (Workspace.withDiagnostics diagnostics)
      { program := workspace.program, memory := [] } fun outcome draft => ?_
    cases outcome with
    | error failure => rfl
    | ok ranges =>
      change ((liftM (workspace.graph.modifyBlock id _) : Walk PassError Workspace Graph) >>=
        _).runFrom _ =
        (((liftM (workspace.graph.modifyBlock id _) : Walk PassError Workspace Graph) >>=
            _).runFrom _).map _
      cases workspace.graph.modifyBlock id _ <;> rfl

theorem carries_shareBlocks (numberings : List (BlockId × Numbering)) (config : Config) :
    Carries (Workspace.withDiagnostics diagnostics) (shareBlocks numberings config) :=
  carries_forM (fun _ => (carries_shareBlock _ _ config).bind fun _ => carries_pure _) numberings

theorem carries_eliminateRepeated (config : Config) :
    Carries (Program.withDiagnostics · diagnostics) (eliminateRepeated config) := by
  refine carries_get_bind fun program => ?_
  rw [Graph.build_withDiagnostics]
  refine map_runFrom_liftQuery_bind (Program.withDiagnostics · diagnostics) _ fun graph => ?_
  rw [Graph.numberBlocks_withDiagnostics]
  refine map_runFrom_liftQuery_bind (Program.withDiagnostics · diagnostics) _ fun numberings => ?_
  refine (carries_shareBlocks numberings config).map_runFrom_bind
    (Program.withDiagnostics · diagnostics) ⟨program, graph⟩ fun outcome workspace => ?_
  cases outcome <;> rfl

/-! ### Passes -/

/-- What a failure adds to the diagnostics. -/
def Program.noting {α : Type} (program : Program) : Except PassError α → Program
  | .error (.tooDeep limit) => program.report (PassError.tooDeep limit).message
  | _ => program

theorem runFrom_localCse (config : Config) :
    (localCse config).runFrom program = ((eliminateRepeated config).runFrom program).map
      fun reached => (reached.1, reached.2.noting reached.1) := by
  have hattempt (next : Except PassError Bool → Walk PassError Program Bool) :
      (Walk.attempt (eliminateRepeated config) >>= next).runFrom program =
        (eliminateRepeated config).runFrom program >>= fun reached =>
          (next reached.1).runFrom reached.2 := by
    change (Walk.attempt (eliminateRepeated config) : Walk PassError Program _).runFrom
      program >>= _ = _
    rw [runFrom_attempt]
    cases (eliminateRepeated config).runFrom program <;> rfl
  rw [localCse, hattempt]
  rcases (eliminateRepeated config).runFrom program with cause | ⟨(_ | _) | _, _⟩ <;> rfl

theorem runFrom_hoistSubexpressions (limit : Nat) : (hoistSubexpressions limit).runFrom program =
    (program.checkDepth limit).run >>= fun checked => match checked with
      | .error failure => .ok (.error failure, program.report failure.message)
      | .ok () =>
        ((ThreeAddress.hoistList limit (limit + 1) .root).runFrom { program, memory := () }).map
          fun reached =>
        (reached.1.map fun _ => reached.2.changed, reached.2.program) := by
  have hattempt (query : Query PassError Unit)
      (next : Except PassError Unit → Walk PassError Program Bool) :
      (Walk.attempt (Query.ask query : Walk PassError Program Unit) >>= next).runFrom program =
        query.run >>= fun checked => (next checked).runFrom program := by
    rcases query with cause | failure | ⟨⟩ <;> rfl
  change (Walk.attempt (Query.ask (program.checkDepth limit) : Walk PassError Program Unit) >>=
    _).runFrom program = _
  rw [hattempt]
  rcases (program.checkDepth limit).run with cause | failure | ⟨⟩
  · rfl
  · rfl
  · change ((liftM ((ThreeAddress.hoistList limit (limit + 1) .root).runFrom
          { program, memory := () }) : Walk PassError Program _) >>= _).runFrom program =
      ((ThreeAddress.hoistList limit (limit + 1) .root).runFrom { program, memory := () }).map _
    rcases (ThreeAddress.hoistList limit (limit + 1) .root).runFrom { program, memory := () } with
      cause | ⟨failure | ⟨⟩, draft⟩ <;> rfl

section

variable {program} {program' : Program} {config : Config} {limit : Nat}
  {outcome : Except PassError Bool}

/-- Local sharing adds to the diagnostics what it reports, and nothing else. -/
theorem diagnostics_of_localCse {changed : Bool}
    (hshare : Walk.Answers (localCse config) program changed program') :
    program'.diagnostics = program.diagnostics := by
  obtain ⟨⟨outcome, between⟩, hrun, hreached⟩ :=
    map_eq_ok_iff.mp ((runFrom_localCse program config).symm.trans hshare)
  obtain ⟨rfl, rfl⟩ := Prod.mk.inj hreached
  exact (congrArg Program.diagnostics ((carries_eliminateRepeated config).eq_of_eq rfl hrun)).symm

theorem exists_localCse_withDiagnostics (diagnostics : List String)
    (hrun : (localCse config).runFrom program = .ok (outcome, program')) :
    ∃ later, (localCse config).runFrom (program.withDiagnostics diagnostics) =
      .ok (outcome, program'.withDiagnostics later) := by
  rw [runFrom_localCse] at hrun ⊢
  obtain ⟨⟨outcome, between⟩, heliminate, hreached⟩ := map_eq_ok_iff.mp hrun
  obtain ⟨rfl, rfl⟩ := Prod.mk.inj hreached
  rw [carries_eliminateRepeated config program, heliminate]
  rcases outcome with (_ | _) | _ <;> exact ⟨_, rfl⟩

theorem diagnostics_of_hoistSubexpressions {changed : Bool}
    (hhoist : Walk.Answers (hoistSubexpressions limit) program changed program') :
    program'.diagnostics = program.diagnostics := by
  obtain ⟨checked, -, hrun⟩ :=
    bind_eq_ok_iff.mp ((runFrom_hoistSubexpressions program limit).symm.trans hhoist)
  cases checked with
  | error failure => cases hrun
  | ok =>
    obtain ⟨⟨outcome, draft⟩, hlist, hreached⟩ := map_eq_ok_iff.mp hrun
    obtain ⟨-, rfl⟩ := Prod.mk.inj hreached
    have hsame : Draft.withDiagnostics program.diagnostics draft = draft :=
      (ThreeAddress.unread_hoistList limit (limit + 1) .root).eq_of_eq rfl hlist
    exact (congrArg (fun draft => draft.program.diagnostics) hsame).symm

theorem exists_hoistSubexpressions_withDiagnostics (diagnostics : List String)
    (hrun : (hoistSubexpressions limit).runFrom program = .ok (outcome, program')) :
    ∃ later, (hoistSubexpressions limit).runFrom (program.withDiagnostics diagnostics) =
      .ok (outcome, program'.withDiagnostics later) := by
  have hdepth :
      (program.withDiagnostics diagnostics).checkDepth limit = program.checkDepth limit := by
    rw [Program.checkDepth, Program.checkDepthWithin_withDiagnostics]
    rfl
  rw [runFrom_hoistSubexpressions] at hrun ⊢
  obtain ⟨checked, hchecked, hrun⟩ := bind_eq_ok_iff.mp hrun
  rw [hdepth, hchecked]
  cases checked with
  | error failure =>
    obtain ⟨rfl, rfl⟩ := Prod.mk.inj (Except.ok.inj hrun)
    exact ⟨_, rfl⟩
  | ok =>
    obtain ⟨⟨outcome, draft⟩, hlist, hreached⟩ := map_eq_ok_iff.mp hrun
    obtain ⟨rfl, rfl⟩ := Prod.mk.inj hreached
    have hunread : Unread diagnostics (ThreeAddress.hoistList limit (limit + 1) .root) :=
      ThreeAddress.unread_hoistList limit (limit + 1) .root
    have hlater := hunread { program, memory := () }
    rw [hlist] at hlater
    exact ⟨_, bind_eq_ok_iff.mpr ⟨.ok (), rfl, map_eq_ok_iff.mpr ⟨_, hlater, rfl⟩⟩⟩

end

end ShaderIR
