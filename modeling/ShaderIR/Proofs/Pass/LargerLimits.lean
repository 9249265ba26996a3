import ShaderIR.Proofs.Pass.Diagnostics
import ShaderIR.Proofs.Pass.ShallowHoisting
import ShaderIR.Proofs.Pass.WellFormed

/-!
Runs under a larger limit on nesting. A walk is extended by another one (`Walk.ExtendedBy`) if that
ends in the same way from the same state whenever the first one does not give up for its depth.
Every part of numbering and of both passes is extended by the same part with a larger budget, since
the budget is only ever compared with nothing left. So a larger limit changes nothing about a run
that has not found the program too deep (`Program.same_of_larger_limit`).
-/

set_option autoImplicit false

namespace ShaderIR

variable {ε ε' σ τ α β : Type}

/-! ### Questions -/

/-- The second question has the outcome of the first one, unless that gives up. -/
def Query.ExtendedBy (deep : ε → Prop) (query query' : Query ε α) : Prop :=
  ∀ outcome, query.run = .ok outcome → (∀ failure, outcome = .error failure → ¬ deep failure) →
    query'.run = .ok outcome

namespace Query

variable {deep : ε → Prop} {query query' : Query ε α}

theorem ExtendedBy.refl (deep : ε → Prop) (query : Query ε α) : ExtendedBy deep query query :=
  fun _ hrun _ => hrun

theorem extendedBy_throw {failure : ε} (hdeep : deep failure) :
    ExtendedBy deep (throw failure) query' := by
  intro outcome hrun hshallow
  obtain rfl := Except.ok.inj hrun
  exact absurd hdeep (hshallow failure rfl)

theorem ExtendedBy.bind {next next' : α → Query ε β} (hquery : ExtendedBy deep query query')
    (hnext : ∀ answer, ExtendedBy deep (next answer) (next' answer)) :
    ExtendedBy deep (query >>= next) (query' >>= next') := by
  intro outcome hrun hshallow
  change query.run >>= ExceptT.bindCont next = _ at hrun
  change query'.run >>= ExceptT.bindCont next' = _
  cases hfirst : query.run with
  | error cause =>
    rw [hfirst] at hrun
    cases hrun
  | ok reached =>
    rw [hfirst] at hrun
    cases reached with
    | error failure =>
      obtain rfl : .error failure = outcome := Except.ok.inj hrun
      rw [hquery _ hfirst fun other hother => hshallow other (by rw [Except.error.inj hother])]
      rfl
    | ok answer =>
      rw [hquery _ hfirst fun failure hfailure => nomatch hfailure]
      exact hnext answer outcome hrun hshallow

theorem extendedBy_mapM {step step' : α → Query ε β}
    (hstep : ∀ item, ExtendedBy deep (step item) (step' item))
    (items : List α) : ExtendedBy deep (items.mapM step) (items.mapM step') := by
  induction items with
  | nil => exact .refl deep _
  | cons first rest ih =>
    rw [List.mapM_cons, List.mapM_cons]
    exact (hstep first).bind fun _ => ih.bind fun _ => .refl deep _

end Query

/-! ### Walks -/

/-- From every state the second walk ends like the first one, unless that gives up. -/
def Walk.ExtendedBy (deep : ε → Prop) (walk walk' : Walk ε σ α) : Prop :=
  ∀ start outcome stop, walk.runFrom start = .ok (outcome, stop) →
    (∀ failure, outcome = .error failure → ¬ deep failure) →
    walk'.runFrom start = .ok (outcome, stop)

namespace Walk

variable {deep : ε → Prop} {deep' : ε' → Prop} {walk walk' : Walk ε σ α}

theorem ExtendedBy.refl (deep : ε → Prop) (walk : Walk ε σ α) : ExtendedBy deep walk walk :=
  fun _ _ _ hrun _ => hrun

theorem extendedBy_throw {failure : ε} (hdeep : deep failure) :
    ExtendedBy deep (throw failure) walk' := by
  intro start outcome stop hrun hshallow
  obtain ⟨rfl, rfl⟩ := Prod.mk.inj (Except.ok.inj hrun)
  exact absurd hdeep (hshallow failure rfl)

theorem ExtendedBy.bind {next next' : α → Walk ε σ β} (hwalk : ExtendedBy deep walk walk')
    (hnext : ∀ answer, ExtendedBy deep (next answer) (next' answer)) :
    ExtendedBy deep (walk >>= next) (walk' >>= next') := by
  intro start outcome stop hrun hshallow
  change walk.runFrom start >>= (fun reached => (ExceptT.bindCont next reached.1).run reached.2) =
    _ at hrun
  change walk'.runFrom start >>=
    (fun reached => (ExceptT.bindCont next' reached.1).run reached.2) = _
  cases hfirst : walk.runFrom start with
  | error cause =>
    rw [hfirst] at hrun
    cases hrun
  | ok reached =>
    rw [hfirst] at hrun
    obtain ⟨_ | answer, between⟩ := reached
    · obtain ⟨rfl, rfl⟩ := Prod.mk.inj (Except.ok.inj hrun)
      rw [hwalk _ _ _ hfirst fun other hother => hshallow other (by rw [Except.error.inj hother])]
      rfl
    · rw [hwalk _ _ _ hfirst fun failure hfailure => nomatch hfailure]
      exact hnext answer between outcome stop hrun hshallow

/-- Going on after a walk, in whichever way it ends; where it gives up the whole walk must do so
too. -/
theorem ExtendedBy.attempt_bind {next next' : Except ε α → Walk ε' σ β}
    (hwalk : ExtendedBy deep walk walk')
    (hnext : ∀ outcome, ExtendedBy deep' (next outcome) (next' outcome))
    (hgives : ∀ failure, deep failure → ∀ start,
      Ensures (next (.error failure)) start (fun _ _ => False) fun failure _ => deep' failure) :
    ExtendedBy deep' (Walk.attempt walk >>= next) (Walk.attempt walk' >>= next') := by
  have hattempt (walk : Walk ε σ α) (next : Except ε α → Walk ε' σ β) (start : σ) :
      (Walk.attempt walk >>= next).runFrom start =
        walk.runFrom start >>= fun reached => (next reached.1).runFrom reached.2 := by
    change (Walk.attempt walk : Walk ε' σ _).runFrom start >>= _ = _
    rw [runFrom_attempt]
    cases walk.runFrom start <;> rfl
  intro start outcome stop hrun hshallow
  rw [hattempt] at hrun ⊢
  obtain ⟨⟨reached, between⟩, hfirst, hrun⟩ := bind_eq_ok_iff.mp hrun
  by_cases hdeep : ∃ failure, reached = .error failure ∧ deep failure
  · obtain ⟨failure, rfl, hdeep⟩ := hdeep
    have hgave := hgives failure hdeep between
    cases outcome with
    | error other => exact absurd (hgave.of_fails hrun) (hshallow other rfl)
    | ok answer => exact (hgave.of_answers hrun).elim
  · rw [hwalk _ _ _ hfirst fun failure hfailure hgave => hdeep ⟨failure, hfailure, hgave⟩]
    exact hnext reached between outcome stop hrun hshallow

/-- Going on after a walk of its own that is run in between. -/
theorem ExtendedBy.run_bind {inner inner' : Walk ε τ α} (hinner : ExtendedBy deep inner inner')
    {init : τ} {next next' : Except ε α × τ → Walk ε' σ β}
    (hnext : ∀ reached, ExtendedBy deep' (next reached) (next' reached))
    (hgives : ∀ failure stop, deep failure → ∀ start, Ensures (next (.error failure, stop)) start
      (fun _ _ => False) fun failure _ => deep' failure) :
    ExtendedBy deep' ((liftM (inner.runFrom init) : Walk ε' σ _) >>= next)
      ((liftM (inner'.runFrom init) : Walk ε' σ _) >>= next') := by
  have hlift (inner : Walk ε τ α) (next : Except ε α × τ → Walk ε' σ β) (start : σ) :
      ((liftM (inner.runFrom init) : Walk ε' σ _) >>= next).runFrom start =
        inner.runFrom init >>= fun reached => (next reached).runFrom start := by
    cases hrun : inner.runFrom init <;> rfl
  intro start outcome stop hrun hshallow
  rw [hlift] at hrun ⊢
  obtain ⟨⟨reached, between⟩, hfirst, hrun⟩ := bind_eq_ok_iff.mp hrun
  by_cases hdeep : ∃ failure, reached = .error failure ∧ deep failure
  · obtain ⟨failure, rfl, hdeep⟩ := hdeep
    have hgave := hgives failure between hdeep start
    cases outcome with
    | error other => exact absurd (hgave.of_fails hrun) (hshallow other rfl)
    | ok answer => exact (hgave.of_answers hrun).elim
  · rw [hinner _ _ _ hfirst fun failure hfailure hgave => hdeep ⟨failure, hfailure, hgave⟩]
    exact hnext (reached, between) start outcome stop hrun hshallow

theorem extendedBy_liftQuery {query query' : Query ε α}
    (hquery : Query.ExtendedBy deep query query') :
    ExtendedBy deep (liftM query : Walk ε σ α) (liftM query') := by
  have hlift (query : Query ε α) (start : σ) : (liftM query : Walk ε σ α).runFrom start =
      query.run >>= fun outcome => .ok (outcome, start) := rfl
  intro start outcome stop hrun hshallow
  rw [hlift] at hrun ⊢
  obtain ⟨outcome', hquery', hreached⟩ := bind_eq_ok_iff.mp hrun
  obtain ⟨rfl, rfl⟩ := Prod.mk.inj (Except.ok.inj hreached)
  rw [hquery _ hquery' hshallow]
  rfl

theorem extendedBy_mapM {step step' : α → Walk ε σ β}
    (hstep : ∀ item, ExtendedBy deep (step item) (step' item))
    (items : List α) : ExtendedBy deep (items.mapM step) (items.mapM step') := by
  induction items with
  | nil => exact .refl deep _
  | cons first rest ih =>
    rw [List.mapM_cons, List.mapM_cons]
    exact (hstep first).bind fun _ => ih.bind fun _ => .refl deep _

theorem extendedBy_forM {step step' : α → Walk ε σ PUnit}
    (hstep : ∀ item, ExtendedBy deep (step item) (step' item))
    (items : List α) : ExtendedBy deep (items.forM step) (items.forM step') := by
  induction items with
  | nil => exact .refl deep _
  | cons first rest ih => exact (hstep first).bind fun _ => ih

theorem extendedBy_foldlM {step step' : β → α → Walk ε σ β}
    (hstep : ∀ reached item, ExtendedBy deep (step reached item) (step' reached item))
    (items : List α) (start : β) :
    ExtendedBy deep (items.foldlM step start) (items.foldlM step' start) := by
  induction items generalizing start with
  | nil => exact .refl deep _
  | cons first rest ih =>
    rw [List.foldlM_cons, List.foldlM_cons]
    exact (hstep start first).bind ih

end Walk

open Walk

variable {budget budget' limit limit' : Nat}

/-! ### Graphs -/

/-- A failure that gives up for the depth. -/
def PassError.IsDeep (failure : PassError) : Prop :=
  ∃ limit, failure = .tooDeep limit

theorem PassError.isDeep_tooDeep (limit : Nat) : (PassError.tooDeep limit).IsDeep :=
  ⟨limit, rfl⟩

namespace Program

variable (program : Program)

theorem extendedBy_rangesAfter {nested nested' : ListRef → Query PassError (List BlockRange)}
    (hnested : ∀ ref, Query.ExtendedBy PassError.IsDeep (nested ref) (nested' ref)) (ref : ListRef)
    (opened : Option (NodeId × NodeId)) (statements : List NodeId) :
    Query.ExtendedBy PassError.IsDeep (program.rangesAfter ref nested opened statements)
        (program.rangesAfter ref nested' opened statements) := by
  induction statements generalizing opened with
  | nil => cases opened <;> exact .refl _ _
  | cons statement rest ih =>
    rw [rangesAfter, rangesAfter]
    refine (Query.ExtendedBy.refl _ _).bind fun node => ?_
    cases node with
    | branch | loop =>
      exact (Query.ExtendedBy.refl _ _).bind fun _ =>
        (Query.extendedBy_mapM hnested _).bind fun _ =>
        (ih none).bind fun _ => .refl _ _
    | call | ret => exact (ih none).bind fun _ => .refl _ _
    | _ => exact ih _

theorem extendedBy_rangesWithin (hle : budget ≤ budget') (ref : ListRef) :
    Query.ExtendedBy PassError.IsDeep
      (program.rangesWithin limit budget ref) (program.rangesWithin limit' budget' ref) := by
  induction budget generalizing budget' ref with
  | zero => exact Query.extendedBy_throw (PassError.isDeep_tooDeep limit)
  | succ budget ih =>
    obtain ⟨budget', rfl⟩ : ∃ less, budget' = less + 1 := ⟨budget' - 1, by omega⟩
    exact (Query.ExtendedBy.refl _ _).bind fun statements =>
      program.extendedBy_rangesAfter (fun ref => ih (by omega) ref) ref none statements

end Program

namespace Graph

variable (graph : Graph) (program : Program)

theorem extendedBy_flowThrough
    {nested nested' : ListRef → Option BlockId → Query PassError (List Edge)}
    (hnested : ∀ ref after, Query.ExtendedBy PassError.IsDeep (nested ref after)
      (nested' ref after)) (after : Option BlockId) (blocks : List BasicBlock) :
    Query.ExtendedBy PassError.IsDeep (graph.flowThrough program after nested blocks)
        (graph.flowThrough program after nested' blocks) := by
  induction blocks with
  | nil => exact .refl _ _
  | cons block rest ih =>
    have hrest (edges : List Edge) : Query.ExtendedBy PassError.IsDeep
        (graph.flowThrough program after nested rest >>= fun later => pure (edges ++ later))
        (graph.flowThrough program after nested' rest >>= fun later => pure (edges ++ later)) :=
      ih.bind fun _ => .refl _ _
    unfold flowThrough
    dsimp only
    cases block.exit? with
    | none => exact (Query.ExtendedBy.refl _ _).bind hrest
    | some range =>
      refine (Query.ExtendedBy.refl _ _).bind fun node => ?_
      cases node with
      | branch =>
        exact (hnested _ _).bind fun _ => (hnested _ _).bind fun _ =>
          (Query.ExtendedBy.refl _ _).bind hrest
      | _ => exact (Query.ExtendedBy.refl _ _).bind hrest

theorem extendedBy_flowWithin (hle : budget ≤ budget') (ref : ListRef) (after : Option BlockId) :
    Query.ExtendedBy PassError.IsDeep (graph.flowWithin program limit budget ref after)
      (graph.flowWithin program limit' budget' ref after) := by
  induction budget generalizing budget' ref after with
  | zero => exact Query.extendedBy_throw (PassError.isDeep_tooDeep limit)
  | succ budget ih =>
    obtain ⟨budget', rfl⟩ : ∃ less, budget' = less + 1 := ⟨budget' - 1, by omega⟩
    exact graph.extendedBy_flowThrough program (fun ref after => ih (by omega) ref after) after _

/-- A larger limit does not change a graph that has been built, and neither the reason why one has
been refused. -/
theorem extendedBy_build {kinds : NodeKinds} (hle : limit ≤ limit') :
    Query.ExtendedBy PassError.IsDeep
      (build program ⟨kinds, limit⟩) (build program ⟨kinds, limit'⟩) := by
  have hlinked : Query.ExtendedBy PassError.IsDeep (linked program limit) (linked program limit') :=
    (program.extendedBy_rangesWithin (Nat.succ_le_succ hle) .root).bind fun ranges =>
      ((ofRanges ranges).extendedBy_flowWithin program (Nat.succ_le_succ hle) .root none).bind
        fun _ => .refl _ _
  exact hlinked.bind fun _ => .refl _ _

end Graph

/-! ### Numbering -/

namespace Program

variable (program : Program) (kinds : NodeKinds)

theorem extendedBy_numberExpression (hle : budget ≤ budget') (id : NodeId) :
    ExtendedBy (· = .tooDeep)
      (program.numberExpression kinds budget id) (program.numberExpression kinds budget' id) := by
  induction budget generalizing budget' id with
  | zero => exact extendedBy_throw rfl
  | succ budget ih =>
    obtain ⟨budget', rfl⟩ : ∃ less, budget' = less + 1 := ⟨budget' - 1, by omega⟩
    have ih := fun id => @ih budget' (by omega) id
    refine (ExtendedBy.refl _ _).bind fun node => ?_
    cases node with
    | index base place => exact (ih base).bind fun _ => (ih place).bind fun _ => .refl _ _
    | field operand | swizzle operand => exact (ih operand).bind fun _ => .refl _ _
    | apply op operands => exact (extendedBy_mapM ih operands).bind fun _ => .refl _ _
    | texture op channel operands =>
      exact (extendedBy_mapM ih operands.toList).bind fun _ => .refl _ _
    | _ => exact .refl _ _

theorem extendedBy_numberPlace (hle : budget ≤ budget') (id : NodeId) : ExtendedBy (· = .tooDeep)
    (program.numberPlace kinds budget id) (program.numberPlace kinds budget' id) := by
  induction budget generalizing budget' id with
  | zero => exact extendedBy_throw rfl
  | succ budget ih =>
    obtain ⟨budget', rfl⟩ : ∃ less, budget' = less + 1 := ⟨budget' - 1, by omega⟩
    have hless : budget ≤ budget' := by omega
    refine (ExtendedBy.refl _ _).bind fun node => ?_
    cases node with
    | index base place =>
      exact (program.extendedBy_numberExpression kinds hless place).bind fun _ => ih hless base
    | field record => exact ih hless record
    | _ => exact .refl _ _

variable (hle : limit ≤ limit')

include hle

theorem extendedBy_numberStore (target : NodeId) (mask : UInt8) (value : Value) :
    ExtendedBy (· = .tooDeep) (program.numberStore ⟨kinds, limit⟩ target mask value)
      (program.numberStore ⟨kinds, limit'⟩ target mask value) :=
  (program.extendedBy_numberPlace kinds hle target).bind fun _ => .refl _ _

theorem extendedBy_numberStatement (id : NodeId) : ExtendedBy (· = .tooDeep)
    (program.numberStatement ⟨kinds, limit⟩ id) (program.numberStatement ⟨kinds, limit'⟩ id) := by
  have hexpression := program.extendedBy_numberExpression kinds hle
  have hstore := program.extendedBy_numberStore kinds hle
  have hoperand (operand : NodeId) : ExtendedBy (· = NumberingFault.tooDeep)
      (do let _ ← program.numberExpression kinds limit operand : NumberingWalk Unit)
      (do let _ ← program.numberExpression kinds limit' operand) :=
        (hexpression operand).bind fun _ => .refl _ _
  refine (ExtendedBy.refl _ _).bind fun node => ?_
  cases node with
  | assign target value mask => exact (hexpression value).bind fun _ => hstore target mask _
  | call callee arguments result =>
    refine (ExtendedBy.refl _ _).bind fun signature => ?_
    split
    · refine (extendedBy_mapM hexpression arguments).bind fun _ => (ExtendedBy.refl _ _).bind
        fun _ => ?_
      cases result with
      | none => exact .refl _ _
      | some target => exact (ExtendedBy.refl _ _).bind fun _ => hstore target 0 _
    · refine (extendedBy_forM (fun passed => ?_) _).bind fun _ =>
        (extendedBy_forM (fun passed => ?_) _).bind fun _ =>
        (ExtendedBy.refl _ _).bind fun _ => (ExtendedBy.refl _ _).bind fun _ => ?_
      · dsimp only
        split
        · exact hoperand passed.2
        · exact .refl _ _
      · dsimp only
        split
        · exact (ExtendedBy.refl _ _).bind fun _ => hstore passed.2 0 _
        · exact .refl _ _
      · cases result with
        | none => exact .refl _ _
        | some target => exact (ExtendedBy.refl _ _).bind fun _ => hstore target 0 _
  | branch condition => exact hoperand condition
  | ret operand | discard operand => exact extendedBy_forM hoperand operand.toList
  | _ => exact .refl _ _

/-- A larger limit does not change a numbering. -/
theorem extendedBy_numberStatements (statements : List NodeId) :
    Query.ExtendedBy PassError.IsDeep (program.numberStatements statements ⟨kinds, limit⟩)
      (program.numberStatements statements ⟨kinds, limit'⟩) := by
  have hwalk := extendedBy_forM (program.extendedBy_numberStatement kinds hle) statements
  have hrun (limit : Nat) : (program.numberStatements statements ⟨kinds, limit⟩).run =
      Walk.runFrom (statements.forM (program.numberStatement ⟨kinds, limit⟩)) {} >>= fun reached =>
        match reached.1 with
        | .ok () => .ok (.ok reached.2.numbering)
        | .error .tooDeep => .ok (.error (.tooDeep limit))
        | .error (.malformed _) => .ok (.ok { reached.2.numbering with poisoned := true }) := by
    rw [numberStatements]
    change (liftM (Walk.runFrom (statements.forM (program.numberStatement ⟨kinds, limit⟩)) {}) >>=
      _ : Query PassError Numbering).run = _
    rcases Walk.runFrom (statements.forM (program.numberStatement ⟨kinds, limit⟩)) {} with
      cause | ⟨(_ | _) | _, numberer⟩ <;> rfl
  intro outcome hquery hshallow
  rw [hrun] at hquery ⊢
  obtain ⟨⟨reached, numberer⟩, hreached, hquery⟩ := bind_eq_ok_iff.mp hquery
  rw [hwalk _ _ _ hreached fun failure hfailure hdeep => ?_]
  · rcases reached with (_ | _) | _
    · obtain rfl := Except.ok.inj hquery
      exact absurd (PassError.isDeep_tooDeep limit) (hshallow _ rfl)
    · exact hquery
    · exact hquery
  · subst hfailure hdeep
    obtain rfl := Except.ok.inj hquery
    exact hshallow _ rfl (PassError.isDeep_tooDeep limit)

end Program

/-- Numbering all blocks of a graph. -/
theorem Graph.extendedBy_numberBlocks (graph : Graph)
    (program : Program) (kinds : NodeKinds) (hle : limit ≤ limit') :
    Query.ExtendedBy PassError.IsDeep (graph.numberBlocks program ⟨kinds, limit⟩)
      (graph.numberBlocks program ⟨kinds, limit'⟩) :=
  Query.extendedBy_mapM (fun _ => (Query.ExtendedBy.refl _ _).bind fun statements =>
    (program.extendedBy_numberStatements kinds hle statements).bind fun _ => .refl _ _) graph.blocks

/-! ### Edits -/

namespace Edit

variable {κ : Type}

/-- A part of a pass under a larger limit. -/
abbrev ExtendedBy (edit edit' : Edit κ α) : Prop :=
  Walk.ExtendedBy PassError.IsDeep edit edit'

theorem extendedBy_editChildren {edit edit' : NodeId → Edit κ NodeId}
    (hedit : ∀ id, ExtendedBy (edit id) (edit' id))
    (id : NodeId) : ExtendedBy (editChildren edit id) (editChildren edit' id) :=
  (Walk.ExtendedBy.refl _ _).bind fun node => (extendedBy_mapM hedit node.children).bind fun _ =>
    .refl _ _

theorem extendedBy_editPlace {edit edit' : Nat → NodeId → Edit κ NodeId}
    (hedit : ∀ {budget budget'}, budget ≤ budget' →
      ∀ id, ExtendedBy (edit budget id) (edit' budget' id)) (hle : budget ≤ budget') (id : NodeId) :
    ExtendedBy (editPlace limit edit budget id) (editPlace limit' edit' budget' id) := by
  induction budget generalizing budget' id with
  | zero => exact extendedBy_throw (PassError.isDeep_tooDeep limit)
  | succ budget ih =>
    obtain ⟨budget', rfl⟩ : ∃ less, budget' = less + 1 := ⟨budget' - 1, by omega⟩
    have hless : budget ≤ budget' := by omega
    refine (Walk.ExtendedBy.refl _ _).bind fun node => ?_
    cases node with
    | index base place =>
      exact (hedit hless place).bind fun _ => (Walk.ExtendedBy.refl _ _).bind fun _ => ih hless base
    | field record => exact ih hless record
    | _ => exact .refl _ _

/-- The rules of a pass under a larger limit. -/
structure Rules.ExtendedBy (rules rules' : Rules κ) : Prop where
  value : ∀ id, Edit.ExtendedBy (rules.value id) (rules'.value id)
  target : ∀ id, Edit.ExtendedBy (rules.target id) (rules'.target id)
  operand : ∀ id, Edit.ExtendedBy (rules.operand id) (rules'.operand id)
  place : ∀ id, Edit.ExtendedBy (rules.place id) (rules'.place id)

variable {rules rules' : Rules κ} (hrules : rules.ExtendedBy rules')

include hrules

theorem extendedBy_editArguments (params : List Param) (arguments : List NodeId) :
    ExtendedBy (editArguments rules params arguments) (editArguments rules' params arguments) := by
  induction params generalizing arguments with
  | nil => exact .refl _ _
  | cons param params ih =>
    cases arguments with
    | nil => exact .refl _ _
    | cons argument arguments =>
      unfold editArguments
      split
      · exact (hrules.operand argument).bind fun _ => (ih arguments).bind fun _ => .refl _ _
      · exact (hrules.place argument).bind fun _ => (ih arguments).bind fun _ => .refl _ _

theorem extendedBy_editStatement (id : NodeId) :
    ExtendedBy (editStatement rules id) (editStatement rules' id) := by
  refine (Walk.ExtendedBy.refl _ _).bind fun node => ?_
  cases node with
  | assign target value mask =>
    exact (hrules.value value).bind fun _ => (hrules.target target).bind fun _ => .refl _ _
  | call callee arguments result =>
    exact (Walk.ExtendedBy.refl _ _).bind fun _ =>
      (extendedBy_editArguments hrules _ arguments).bind fun _ =>
      (extendedBy_forM hrules.place result.toList).bind fun _ => .refl _ _
  | branch condition => exact (hrules.operand condition).bind fun _ => .refl _ _
  | ret operand | discard operand =>
    cases operand with
    | none => exact .refl _ _
    | some operand => exact (hrules.operand operand).bind fun _ => .refl _ _
  | _ => exact .refl _ _

end Edit

open Edit

/-! ### Hoisting -/

namespace ThreeAddress

theorem extendedBy_hoistExpression (hle : budget ≤ budget') (id : NodeId) :
    Edit.ExtendedBy (hoistExpression limit budget id) (hoistExpression limit' budget' id) := by
  induction budget generalizing budget' id with
  | zero => exact extendedBy_throw (PassError.isDeep_tooDeep limit)
  | succ budget ih =>
    obtain ⟨budget', rfl⟩ : ∃ less, budget' = less + 1 := ⟨budget' - 1, by omega⟩
    exact (extendedBy_editChildren (fun id => ih (by omega) id) id).bind fun _ => .refl _ _

theorem extendedBy_rules (hle : budget ≤ budget') :
    (rules limit budget).ExtendedBy (rules limit' budget') where
  value id := by
    refine (Walk.ExtendedBy.refl _ _).bind fun node => ?_
    split
    · exact (extendedBy_editChildren (extendedBy_hoistExpression (by omega)) id).bind fun _ =>
        .refl _ _
    · exact extendedBy_hoistExpression hle id
  target := extendedBy_editPlace extendedBy_hoistExpression hle
  operand := extendedBy_hoistExpression hle
  place := extendedBy_editPlace extendedBy_hoistExpression hle

theorem extendedBy_hoistList (hle : budget ≤ budget') (ref : ListRef) :
    Edit.ExtendedBy (hoistList limit budget ref) (hoistList limit' budget' ref) := by
  induction budget generalizing budget' ref with
  | zero => exact extendedBy_throw (PassError.isDeep_tooDeep limit)
  | succ budget ih =>
    obtain ⟨budget', rfl⟩ : ∃ less, budget' = less + 1 := ⟨budget' - 1, by omega⟩
    have hless : budget ≤ budget' := by omega
    refine (Walk.ExtendedBy.refl _ _).bind fun statements =>
      (extendedBy_mapM (fun statement => ?_) statements).bind fun _ =>
      .refl _ _
    exact (extendedBy_editStatement (extendedBy_rules hless) statement).bind fun _ =>
      (Walk.ExtendedBy.refl _ _).bind fun _ =>
      (Walk.ExtendedBy.refl _ _).bind fun lists => (extendedBy_forM (ih hless) lists).bind fun _ =>
        .refl _ _

end ThreeAddress

/-- A list that passes the check beforehand does so under a larger limit. -/
theorem Program.answers_checkDepthWithin_mono {program : Program} (hle : budget ≤ budget')
    {ref : ListRef} (hchecked : Query.Answers (program.checkDepthWithin limit budget ref) ()) :
    Query.Answers (program.checkDepthWithin limit' budget' ref) () := by
  induction budget generalizing budget' ref with
  | zero => exact (Query.answers_throw hchecked).elim
  | succ budget ih =>
    obtain ⟨budget', rfl⟩ : ∃ less, budget' = less + 1 := ⟨budget' - 1, by omega⟩
    obtain ⟨statements, hlist, hstatements⟩ := answers_checkDepthWithin_succ.mp hchecked
    refine answers_checkDepthWithin_succ.mpr ⟨statements, hlist, fun statement hstatement => ?_⟩
    obtain ⟨node, hnode, hfits, hbodies⟩ := hstatements statement hstatement
    exact ⟨node, hnode, hfits.mono hle, fun body hbody => ih (by omega) (hbodies body hbody)⟩

/-! ### Sharing -/

namespace SharingPlan

variable {plan plan' : SharingPlan} (htargets : plan.targets = plan'.targets)

include htargets

theorem extendedBy_shareExpression (hle : budget ≤ budget') (id : NodeId) :
    Edit.ExtendedBy (plan.shareExpression budget id) (plan'.shareExpression budget' id) := by
  induction budget generalizing budget' id with
  | zero => exact extendedBy_throw (PassError.isDeep_tooDeep plan.limit)
  | succ budget ih =>
    obtain ⟨budget', rfl⟩ : ∃ less, budget' = less + 1 := ⟨budget' - 1, by omega⟩
    have hchildren := extendedBy_editChildren (fun id => @ih budget' (by omega) id) id
    unfold shareExpression
    rw [htargets]
    split
    · exact hchildren.bind fun _ => .refl _ _
    · refine (Walk.ExtendedBy.refl _ _).bind fun temporary => ?_
      cases temporary with
      | some temporary => exact .refl _ _
      | none => exact hchildren.bind fun _ => .refl _ _

variable (hlimit : plan.limit ≤ plan'.limit)

include hlimit

theorem extendedBy_sharePlace (id : NodeId) :
    Edit.ExtendedBy (plan.sharePlace id) (plan'.sharePlace id) :=
  extendedBy_editPlace (extendedBy_shareExpression htargets) hlimit id

theorem extendedBy_rules : plan.rules.ExtendedBy plan'.rules where
  value := extendedBy_shareExpression htargets hlimit
  target := extendedBy_editPlace (extendedBy_shareExpression htargets) (Nat.succ_le_succ hlimit)
  operand := extendedBy_shareExpression htargets hlimit
  place := extendedBy_sharePlace htargets hlimit

theorem extendedBy_shareStatement (id : NodeId) :
    Edit.ExtendedBy (plan.shareStatement id) (plan'.shareStatement id) := by
  unfold shareStatement
  rw [htargets]
  refine (Walk.ExtendedBy.refl _ _).bind fun node => ?_
  split
  · next callee arguments target number _ =>
    refine (Walk.ExtendedBy.refl _ _).bind fun temporary => ?_
    cases temporary with
    | some temporary => exact (extendedBy_sharePlace htargets hlimit target).bind fun _ => .refl _ _
    | none =>
      exact (extendedBy_mapM (extendedBy_shareExpression htargets hlimit) arguments).bind fun _ =>
        (extendedBy_sharePlace htargets hlimit target).bind fun _ => .refl _ _
  · exact .refl _ _
  · exact (extendedBy_editStatement (extendedBy_rules htargets hlimit) id).bind fun _ => .refl _ _

theorem extendedBy_shareRange (range : BlockRange) :
    Edit.ExtendedBy (plan.shareRange range) (plan'.shareRange range) := by
  refine (Walk.ExtendedBy.refl _ _).bind fun statements =>
    extendedBy_foldlM (fun range id => ?_) statements range
  refine (Walk.ExtendedBy.refl _ _).bind fun found => ?_
  cases found with
  | none => exact .refl _ _
  | some place =>
    refine (extendedBy_shareStatement htargets hlimit id).attempt_bind (fun outcome => .refl _ _)
      fun failure hdeep draft => ?_
    -- what has been taken out is put into the list, and then the failure is passed on
    simp only [ensures_bind, ensures_takePending, ensures_ask, ensures_modify, ensures_liftExcept]
    exact fun _ _ _ _ => ⟨fun answer hanswer => (by cases hanswer),
      fun other hother => Except.error.inj hother ▸ hdeep⟩

end SharingPlan

theorem extendedBy_shareBlock (id : BlockId) (numbering : Numbering)
    (kinds : NodeKinds) (hle : limit ≤ limit') :
    ExtendedBy PassError.IsDeep (shareBlock id numbering ⟨kinds, limit⟩)
      (shareBlock id numbering ⟨kinds, limit'⟩) := by
  have htargets : (SharingPlan.ofNumbering numbering ⟨kinds, limit⟩).targets =
      (SharingPlan.ofNumbering numbering ⟨kinds, limit'⟩).targets := rfl
  unfold shareBlock
  dsimp only
  rw [htargets]
  split
  · exact .refl _ _
  refine (Walk.ExtendedBy.refl _ _).bind fun workspace => (Walk.ExtendedBy.refl _ _).bind
    fun block => ?_
  refine ExtendedBy.run_bind (extendedBy_mapM (SharingPlan.extendedBy_shareRange htargets hle)
    block.ranges) (fun reached => .refl _ _) fun failure draft hdeep workspace => ?_
  simp only [ensures_bind, ensures_modify, ensures_liftExcept]
  exact ⟨fun answer hanswer => (by cases hanswer),
    fun other hother => Except.error.inj hother ▸ hdeep⟩

theorem extendedBy_shareBlocks (numberings : List (BlockId × Numbering))
    (kinds : NodeKinds) (hle : limit ≤ limit') :
    ExtendedBy PassError.IsDeep (shareBlocks numberings ⟨kinds, limit⟩)
      (shareBlocks numberings ⟨kinds, limit'⟩) := by
  refine extendedBy_forM (fun entry => ?_) numberings
  exact (extendedBy_shareBlock entry.1 entry.2 kinds hle).bind fun _ => .refl _ _

theorem extendedBy_eliminateRepeated (kinds : NodeKinds) (hle : limit ≤ limit') :
    ExtendedBy PassError.IsDeep (eliminateRepeated ⟨kinds, limit⟩)
      (eliminateRepeated ⟨kinds, limit'⟩) := by
  refine (Walk.ExtendedBy.refl _ _).bind fun program => ?_
  refine (extendedBy_liftQuery (Graph.extendedBy_build program hle)).bind fun graph => ?_
  refine (extendedBy_liftQuery (graph.extendedBy_numberBlocks program kinds hle)).bind
    fun numberings => ?_
  refine (extendedBy_shareBlocks numberings kinds hle).run_bind (fun reached => .refl _ _)
    fun failure workspace hdeep program => ?_
  simp only [ensures_bind, ensures_set, ensures_liftExcept]
  exact ⟨fun answer hanswer => (by cases hanswer),
    fun other hother => Except.error.inj hother ▸ hdeep⟩

/-! ### Passes -/

/-- A larger limit changes nothing about a run that does not find the program too deep: neither its
result nor the program that it leaves. -/
theorem Program.same_of_larger_limit (program after : Program)
    (kinds : NodeKinds) (hle : limit ≤ limit') :
    (∀ outcome, (localCse ⟨kinds, limit⟩).runFrom program = .ok (outcome, after) →
      (∀ depth, outcome ≠ .error (.tooDeep depth)) →
        (localCse ⟨kinds, limit'⟩).runFrom program = .ok (outcome, after)) ∧
    ∀ changed, Walk.Answers (hoistSubexpressions limit) program changed after →
      Walk.Answers (hoistSubexpressions limit') program changed after := by
  constructor
  · intro outcome hrun hshallow
    rw [runFrom_localCse] at hrun ⊢
    obtain ⟨⟨reached, between⟩, heliminate, hreached⟩ := map_eq_ok_iff.mp hrun
    obtain ⟨rfl, rfl⟩ := Prod.mk.inj hreached
    rw [extendedBy_eliminateRepeated kinds hle _ _ _ heliminate]
    · rfl
    · rintro failure rfl ⟨depth, rfl⟩
      exact hshallow depth rfl
  · intro changed hhoist
    have hrun := (runFrom_hoistSubexpressions program limit).symm.trans hhoist
    obtain ⟨checked, hchecked, hrun⟩ := bind_eq_ok_iff.mp hrun
    cases checked with
    | error failure => cases hrun
    | ok =>
      obtain ⟨⟨outcome, draft⟩, hlist, hreached⟩ := map_eq_ok_iff.mp hrun
      obtain ⟨houtcome, rfl⟩ := Prod.mk.inj hreached
      have hshallow : ∀ failure, outcome = .error failure → ¬ failure.IsDeep := by
        rintro failure rfl
        cases houtcome
      refine (runFrom_hoistSubexpressions program limit').trans (bind_eq_ok_iff.mpr ⟨.ok (),
        answers_checkDepthWithin_mono (Nat.succ_le_succ hle) hchecked,
        map_eq_ok_iff.mpr ⟨(outcome, draft), ?_, ?_⟩⟩)
      · exact ThreeAddress.extendedBy_hoistList (Nat.succ_le_succ hle) .root _ _ _ hlist hshallow
      · rw [← houtcome]

/-- Three levels are enough for this program and two are not. -/
theorem Program.same_of_larger_limit_squaredSum : ∃ shared hoisted,
    (localCse ⟨.all, 3⟩).runFrom squaredSum = .ok (.ok true, shared) ∧
    (localCse ⟨.all, 64⟩).runFrom squaredSum = .ok (.ok true, shared) ∧
    Walk.Answers (hoistSubexpressions 3) squaredSum true hoisted ∧
    Walk.Answers (hoistSubexpressions 64) squaredSum true hoisted ∧
    ((localCse ⟨.all, 2⟩).runFrom squaredSum).map Prod.fst = .ok (.error (.tooDeep 2)) := by
  have hshared :
      ((localCse ⟨.all, 3⟩).runFrom squaredSum).map Prod.fst = .ok (.ok true) := by decide +kernel
  have hhoisted : ((hoistSubexpressions 3).runFrom squaredSum).map Prod.fst = .ok (.ok true) := by
      decide +kernel
  obtain ⟨⟨_, shared⟩, hshared, rfl⟩ := map_eq_ok_iff.mp hshared
  obtain ⟨⟨_, hoisted⟩, hhoisted, rfl⟩ := map_eq_ok_iff.mp hhoisted
  have hle : 3 ≤ 64 := by decide
  exact ⟨shared, hoisted, hshared, (same_of_larger_limit squaredSum shared .all hle).1 _ hshared
      fun depth hdeep => (nomatch hdeep), hhoisted,
    (same_of_larger_limit squaredSum hoisted .all hle).2 _ hhoisted, by decide +kernel⟩

end ShaderIR
