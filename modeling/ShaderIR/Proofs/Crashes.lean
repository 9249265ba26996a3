import ShaderIR.Proofs.Answers

/-!
Computations that do not crash. `Walk.ReturnsUnless` says that a walk from one state ends, with an
answer or with an ordinary failure, unless it crashes for a spared cause, and `Query.ReturnsUnless`
says the same of a question; what `Walk.Returns` spares is that ids run out (`Crash.IsExhausted`). A
walk that goes on from what another one answers returns when both do (`Walk.ReturnsUnless.bind`), so
that what is known of answers (`Walk.Answers`) can be used on the way.
-/

set_option autoImplicit false

namespace ShaderIR

variable {ε ε' σ α β : Type}

/-- An arena or an allocator has no id of 32 bits left. -/
def Crash.IsExhausted : Crash → Prop
  | .nodesExhausted | .variablesExhausted | .signaturesExhausted | .idsExhausted => True
  | _ => False

/-- The question does not crash, unless for a cause that is spared. -/
def Query.ReturnsUnless (query : Query ε α) (spared : Crash → Prop) : Prop :=
  ∀ cause, query.run = .error cause → spared cause

/-- The walk does not crash from this state, unless for a cause that is spared. -/
def Walk.ReturnsUnless (walk : Walk ε σ α) (start : σ) (spared : Crash → Prop) : Prop :=
  ∀ cause, walk.runFrom start = .error cause → spared cause

/-- The question does not crash, unless ids run out. -/
abbrev Query.Returns (query : Query ε α) : Prop :=
  query.ReturnsUnless Crash.IsExhausted

/-- The walk does not crash from this state, unless ids run out. -/
abbrev Walk.Returns (walk : Walk ε σ α) (start : σ) : Prop :=
  walk.ReturnsUnless start Crash.IsExhausted

variable {spared : Crash → Prop}

namespace Query

theorem returns_of_run {query : Query ε α} {outcome : Except ε α} (hrun : query.run = .ok outcome) :
    ReturnsUnless query spared :=
  fun _ hcrash => nomatch hrun.symm.trans hcrash

theorem Answers.returns {query : Query ε α} {answer : α} (hanswers : Answers query answer) :
    ReturnsUnless query spared :=
  returns_of_run hanswers

theorem Fails.returns {query : Query ε α} {failure : ε} (hfails : Fails query failure) :
    ReturnsUnless query spared :=
  returns_of_run hfails

@[simp] theorem returns_pure {value : α} : ReturnsUnless (pure value : Query ε α) spared :=
  returns_of_run rfl

@[simp] theorem returns_throw {failure : ε} : ReturnsUnless (throw failure : Query ε α) spared :=
  returns_of_run rfl

@[simp] theorem returns_bind {query : Query ε α} {next : α → Query ε β} :
    ReturnsUnless (query >>= next) spared ↔ ReturnsUnless query spared ∧ ∀ answer,
      Answers query answer → ReturnsUnless (next answer) spared := by
  have hrun : (query >>= next).run = query.run >>= fun outcome =>
      (ExceptT.bindCont next outcome : Except Crash _) := rfl
  unfold ReturnsUnless Answers
  rw [hrun]
  rcases query.run with _ | _ | answer
  · simp [bind, Except.bind]
  · simp [bind, Except.bind, ExceptT.bindCont, pure, Except.pure]
  · simp only [bind, Except.bind, ExceptT.bindCont, Except.ok.injEq, forall_eq', reduceCtorEq,
      false_implies, implies_true, true_and]
    exact Iff.rfl

theorem ReturnsUnless.bind {query : Query ε α}
    {next : α → Query ε β} (hquery : ReturnsUnless query spared)
    (hnext : ∀ answer, Answers query answer → ReturnsUnless (next answer) spared) :
    ReturnsUnless (query >>= next) spared := by
  rw [returns_bind]
  exact ⟨hquery, hnext⟩

theorem returns_mapM {step : α → Query ε β} {items : List α}
    (hstep : ∀ item ∈ items, ReturnsUnless (step item) spared) :
    ReturnsUnless (items.mapM step) spared := by
  induction items with
  | nil =>
    rw [List.mapM_nil]
    exact returns_pure
  | cons first rest ih =>
    obtain ⟨hfirst, hrest⟩ := List.forall_mem_cons.mp hstep
    rw [List.mapM_cons]
    refine ReturnsUnless.bind hfirst fun _ _ => ReturnsUnless.bind (ih hrest) fun _ _ =>
      returns_pure

theorem returns_forM {step : α → Query ε PUnit} {items : List α}
    (hstep : ∀ item ∈ items, ReturnsUnless (step item) spared) :
    ReturnsUnless (items.forM step) spared := by
  induction items with
  | nil => exact returns_pure
  | cons first rest ih =>
    obtain ⟨hfirst, hrest⟩ := List.forall_mem_cons.mp hstep
    exact ReturnsUnless.bind hfirst fun _ _ => ih hrest

@[simp] theorem returns_liftCrash {request : Except Crash α} :
    ReturnsUnless (liftM request : Query ε α) spared ↔ ∀ cause, request = .error cause →
      spared cause := by
  rcases request with cause | answer
  · have hrun : (liftM (.error cause : Except Crash α) : Query ε α).run = .error cause := rfl
    simp only [ReturnsUnless, hrun, Except.error.injEq]
  · exact iff_of_true (returns_of_run rfl) nofun

theorem returns_liftCrash_of_eq {request : Except Crash α}
    {answer : α} (hrequest : request = .ok answer) :
    ReturnsUnless (liftM request : Query ε α) spared := by
  rw [returns_liftCrash, hrequest]
  exact nofun

end Query

namespace Walk

variable {start : σ}

theorem returns_of_run {walk : Walk ε σ α} {reached : Except ε α × σ}
    (hrun : walk.runFrom start = .ok reached) :
    ReturnsUnless walk start spared :=
  fun _ hcrash => nomatch hrun.symm.trans hcrash

/-! ### Single steps -/

@[simp] theorem returns_pure {value : α} : ReturnsUnless (pure value : Walk ε σ α) start spared :=
  returns_of_run rfl

@[simp] theorem returns_throw {failure : ε} :
    ReturnsUnless (throw failure : Walk ε σ α) start spared :=
  returns_of_run rfl

@[simp] theorem returns_bind {walk : Walk ε σ β} {next : β → Walk ε σ α} :
    ReturnsUnless (walk >>= next) start spared ↔
    ReturnsUnless walk start spared ∧ ∀ middle between, Answers walk start middle between →
      ReturnsUnless (next middle) between spared := by
  have hrun : (walk >>= next).runFrom start = walk.runFrom start >>= fun reached =>
      (ExceptT.bindCont next reached.1).run reached.2 := rfl
  unfold ReturnsUnless Answers
  rw [hrun]
  rcases walk.runFrom start with _ | ⟨_ | middle, between⟩
  · simp [bind, Except.bind]
  · exact iff_of_true nofun ⟨nofun, fun _ _ hanswer => by cases hanswer⟩
  · simp only [bind, Except.bind, ExceptT.bindCont, Except.ok.injEq, Prod.mk.injEq, and_imp,
      reduceCtorEq, false_implies, implies_true, true_and]
    exact ⟨fun hreached _ _ hmiddle hbetween => hmiddle ▸ hbetween ▸ hreached,
      fun hreached => hreached _ _ rfl rfl⟩

theorem ReturnsUnless.bind {walk : Walk ε σ β} {next : β → Walk ε σ α}
    (hwalk : ReturnsUnless walk start spared) (hnext : ∀ middle between,
      Answers walk start middle between → ReturnsUnless (next middle) between spared) :
    ReturnsUnless (walk >>= next) start spared := by
  rw [returns_bind]
  exact ⟨hwalk, hnext⟩

@[simp] theorem returns_map {walk : Walk ε σ β} {change : β → α} :
    ReturnsUnless (change <$> walk) start spared ↔ ReturnsUnless walk start spared := by
  rw [← bind_pure_comp]
  exact returns_bind.trans (and_iff_left fun _ _ _ => returns_pure)

@[simp] theorem returns_get : ReturnsUnless (get : Walk ε σ σ) start spared :=
  returns_of_run rfl

@[simp] theorem returns_set {value : σ} : ReturnsUnless (set value : Walk ε σ PUnit) start spared :=
  returns_of_run rfl

@[simp] theorem returns_modify {change : σ → σ} :
    ReturnsUnless (modify change : Walk ε σ PUnit) start spared :=
  returns_of_run rfl

@[simp] theorem returns_modifyGet {change : σ → α × σ} :
    ReturnsUnless (modifyGet change : Walk ε σ α) start spared :=
  returns_of_run rfl

@[simp] theorem returns_liftCrash {request : Except Crash α} :
    ReturnsUnless (liftM request : Walk ε σ α) start spared ↔
    ∀ cause, request = .error cause → spared cause := by
  rcases request with cause | answer
  · have hrun :
        (liftM (.error cause : Except Crash α) : Walk ε σ α).runFrom start = .error cause := rfl
    simp only [ReturnsUnless, hrun, Except.error.injEq]
  · exact iff_of_true (returns_of_run rfl) nofun

theorem returns_liftCrash_of_eq {request : Except Crash α}
    {answer : α} (hrequest : request = .ok answer) :
    ReturnsUnless (liftM request : Walk ε σ α) start spared := by
  rw [returns_liftCrash, hrequest]
  exact nofun

@[simp] theorem returns_liftExcept {outcome : Except ε α} :
    ReturnsUnless (liftExcept outcome : Walk ε σ α) start spared := by
  cases outcome with
  | error => exact returns_of_run rfl
  | ok => exact returns_of_run rfl

@[simp] theorem returns_liftQuery {query : Query ε α} :
    ReturnsUnless (liftM query : Walk ε σ α) start spared ↔ Query.ReturnsUnless query spared := by
  have hrun : (liftM query : Walk ε σ α).runFrom start = query.run >>= fun outcome =>
      pure (outcome, start) := rfl
  unfold ReturnsUnless Query.ReturnsUnless
  rw [hrun]
  rcases query.run with _ | _ <;> simp [bind, Except.bind, pure, Except.pure]

@[simp] theorem returns_attempt {walk : Walk ε σ α} :
    ReturnsUnless (Walk.attempt walk : Walk ε' σ (Except ε α)) start spared ↔
      ReturnsUnless walk start spared := by
  unfold ReturnsUnless
  rw [runFrom_attempt]
  rcases walk.runFrom start with _ | _ <;> simp [Except.map]

/-! ### Rows -/

/-- Every step of a row returns from where the invariant holds, and keeps it. -/
theorem returns_mapM {step : α → Walk ε σ β} {items : List α} (invariant : σ → Prop)
    (hstep : ∀ item ∈ items, ∀ state, invariant state → ReturnsUnless (step item) state spared ∧
      ∀ answer stop, Answers (step item) state answer stop → invariant stop)
    (hstart : invariant start) : ReturnsUnless (items.mapM step) start spared := by
  induction items generalizing start with
  | nil =>
    rw [List.mapM_nil]
    exact returns_pure
  | cons first rest ih =>
    obtain ⟨hfirst, hrest⟩ := List.forall_mem_cons.mp hstep
    rw [List.mapM_cons]
    refine ReturnsUnless.bind (hfirst start hstart).1 fun _ between hanswer =>
      ReturnsUnless.bind ?_ fun _ _ _ => returns_pure
    exact ih hrest ((hfirst start hstart).2 _ between hanswer)

theorem returns_forM {step : α → Walk ε σ PUnit} {items : List α} (invariant : σ → Prop)
    (hstep : ∀ item ∈ items, ∀ state, invariant state → ReturnsUnless (step item) state spared ∧
      ∀ answer stop, Answers (step item) state answer stop → invariant stop)
    (hstart : invariant start) : ReturnsUnless (items.forM step) start spared := by
  induction items generalizing start with
  | nil => exact returns_pure
  | cons first rest ih =>
    obtain ⟨hfirst, hrest⟩ := List.forall_mem_cons.mp hstep
    exact ReturnsUnless.bind (hfirst start hstart).1 fun _ between hanswer =>
      ih hrest ((hfirst start hstart).2 _ between hanswer)

section Anywhere

variable {step : α → Walk ε σ β}

theorem returns_mapM_of_forall {items : List α}
    (hstep : ∀ item ∈ items, ∀ state, ReturnsUnless (step item) state spared) :
    ReturnsUnless (items.mapM step) start spared :=
  returns_mapM (fun _ => True)
    (fun item hitem state _ => ⟨hstep item hitem state, fun _ _ _ => trivial⟩) trivial

theorem returns_forM_of_forall {step : α → Walk ε σ PUnit} {items : List α}
    (hstep : ∀ item ∈ items, ∀ state, ReturnsUnless (step item) state spared) :
    ReturnsUnless (items.forM step) start spared :=
  returns_forM (fun _ => True)
    (fun item hitem state _ => ⟨hstep item hitem state, fun _ _ _ => trivial⟩) trivial

end Anywhere

end Walk

end ShaderIR
