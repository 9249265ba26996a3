import ShaderIR.Proofs.Answers
import ShaderIR.Proofs.Rows

/-!
Walks that may fail. `Walk.Ensures` says of one start what an answer and the state then, or else a
failure and the state then, must satisfy; a crash satisfies everything. There is one rule for every
way to build a walk, and `Walk.ensures_mapM`, `Walk.ensures_forM` and `Walk.ensures_foldlM` carry an
invariant along a row.
-/

set_option autoImplicit false

namespace ShaderIR.Walk

variable {ε ε' σ α β : Type} {start : σ} {good : α → σ → Prop} {bad : ε → σ → Prop}

/-- The walk ends with an answer that is `good`, or with a failure that is `bad`, or crashes. -/
def Ensures (walk : Walk ε σ α) (start : σ) (good : α → σ → Prop) (bad : ε → σ → Prop) : Prop :=
  match walk.runFrom start with
  | .ok (.ok answer, stop) => good answer stop
  | .ok (.error failure, stop) => bad failure stop
  | .error _ => True

theorem ensures_iff {walk : Walk ε σ α} : Ensures walk start good bad ↔
    (∀ answer stop, Answers walk start answer stop → good answer stop) ∧
      ∀ failure stop, walk.runFrom start = .ok (.error failure, stop) → bad failure stop := by
  unfold Ensures Answers
  rcases walk.runFrom start with _ | ⟨_ | _, _⟩ <;> simp

theorem Ensures.of_answers {walk : Walk ε σ α} (hensures : Ensures walk start good bad) {answer : α}
    {stop : σ} (hanswers : Answers walk start answer stop) : good answer stop :=
  (ensures_iff.mp hensures).1 answer stop hanswers

theorem Ensures.of_fails {walk : Walk ε σ α} (hensures : Ensures walk start good bad) {failure : ε}
    {stop : σ} (hfails : walk.runFrom start = .ok (.error failure, stop)) : bad failure stop :=
  (ensures_iff.mp hensures).2 failure stop hfails

theorem Ensures.mono {walk : Walk ε σ α} {good' : α → σ → Prop} {bad' : ε → σ → Prop}
    (hensures : Ensures walk start good bad)
    (hgood : ∀ answer stop, good answer stop → good' answer stop)
    (hbad : ∀ failure stop, bad failure stop → bad' failure stop) : Ensures walk start good' bad' :=
  ensures_iff.mpr ⟨fun answer stop hanswers => hgood answer stop (hensures.of_answers hanswers),
    fun failure stop hfails => hbad failure stop (hensures.of_fails hfails)⟩

/-- What is ensured of an answer is ensured along with the fact that it is one. -/
theorem Ensures.and_answers {walk : Walk ε σ α} (hensures : Ensures walk start good bad) :
    Ensures walk start (fun answer stop => good answer stop ∧ Answers walk start answer stop) bad :=
  ensures_iff.mpr ⟨fun _ _ hanswers => ⟨hensures.of_answers hanswers, hanswers⟩,
    fun _ _ => hensures.of_fails⟩

/-! ### Single steps -/

@[simp] theorem ensures_pure {value : α} : Ensures (pure value) start good bad ↔ good value start :=
  Iff.rfl

@[simp] theorem ensures_bind {walk : Walk ε σ β} {next : β → Walk ε σ α} :
    Ensures (walk >>= next) start good bad ↔
      Ensures walk start (fun middle between => Ensures (next middle) between good bad) bad := by
  have hrun : (walk >>= next).runFrom start = walk.runFrom start >>= fun reached =>
      (ExceptT.bindCont next reached.1).run reached.2 := rfl
  unfold Ensures
  rw [hrun]
  rcases walk.runFrom start with _ | ⟨_ | _, _⟩ <;> exact Iff.rfl

@[simp] theorem ensures_get {good : σ → σ → Prop} :
    Ensures (get : Walk ε σ σ) start good bad ↔ good start start :=
  Iff.rfl

@[simp] theorem ensures_set {value : σ} {good : PUnit → σ → Prop} :
    Ensures (set value : Walk ε σ PUnit) start good bad ↔ good ⟨⟩ value :=
  Iff.rfl

@[simp] theorem ensures_modify {change : σ → σ} {good : PUnit → σ → Prop} :
    Ensures (modify change : Walk ε σ PUnit) start good bad ↔ good ⟨⟩ (change start) :=
  Iff.rfl

@[simp] theorem ensures_modifyGet {change : σ → α × σ} :
    Ensures (modifyGet change) start good bad ↔ good (change start).1 (change start).2 :=
  Iff.rfl

@[simp] theorem ensures_throw {failure : ε} :
    Ensures (throw failure : Walk ε σ α) start good bad ↔ bad failure start :=
  Iff.rfl

@[simp] theorem ensures_liftCrash {request : Except Crash α} :
    Ensures (liftM request : Walk ε σ α) start good bad ↔ ∀ answer, request = .ok answer →
      good answer start := by
  cases request with
  | error cause => exact iff_of_true trivial (by simp)
  | ok answer =>
    change good answer start ↔ _
    simp

@[simp] theorem ensures_liftExcept {outcome : Except ε α} :
    Ensures (liftExcept outcome) start good bad ↔
      (∀ answer, outcome = .ok answer → good answer start) ∧
        ∀ failure, outcome = .error failure → bad failure start := by
  cases outcome with
  | error failure =>
    change bad failure start ↔ _
    simp
  | ok answer =>
    change good answer start ↔ _
    simp

@[simp] theorem ensures_attempt {walk : Walk ε σ α} {good : Except ε α → σ → Prop}
    {bad : ε' → σ → Prop} : Ensures (Walk.attempt walk : Walk ε' σ (Except ε α)) start good bad ↔
      Ensures walk start (fun answer => good (.ok answer)) fun failure =>
        good (.error failure) := by
  unfold Ensures
  rw [runFrom_attempt]
  rcases walk.runFrom start with _ | ⟨_ | _, _⟩ <;> exact Iff.rfl

@[simp] theorem ensures_liftQuery {query : Query ε α} :
    Ensures (liftM query : Walk ε σ α) start good bad ↔
      (∀ answer, Query.Answers query answer → good answer start) ∧
        ∀ failure, query.run = .ok (.error failure) → bad failure start := by
  have hrun : (liftM query : Walk ε σ α).runFrom start =
      query.run >>= fun outcome => pure (outcome, start) := rfl
  unfold Ensures Query.Answers
  rw [hrun]
  rcases query.run with _ | _ | _ <;> simp [bind, Except.bind, pure, Except.pure]

/-! ### Rows -/

section Rows

variable {items : List α}

/-- Every step of a row keeps the invariant and, between the item and what becomes of it, a relation
that later steps keep. -/
theorem ensures_mapM {step : α → Walk ε σ β} (invariant : σ → Prop) (relation : α → β → σ → Prop)
    (hstep : ∀ item ∈ items, ∀ state, invariant state → Ensures (step item) state
      (fun answer stop => invariant stop ∧ relation item answer stop ∧
        ∀ item answer, relation item answer state → relation item answer stop) bad)
    (hstart : invariant start) :
    Ensures (items.mapM step) start (fun answers stop => invariant stop ∧
      List.Forall₂ (fun item answer => relation item answer stop) items answers ∧
        ∀ item answer, relation item answer start → relation item answer stop) bad := by
  induction items generalizing start with
  | nil =>
    rw [List.mapM_nil]
    exact ensures_pure.mpr ⟨hstart, .nil, fun _ _ => id⟩
  | cons first rest ih =>
    simp only [List.mapM_cons, ensures_bind]
    obtain ⟨hfirst, hrest⟩ := List.forall_mem_cons.mp hstep
    refine (hfirst start hstart).mono ?_ fun _ _ => id
    rintro answer between ⟨hbetween, hrelated, hkept⟩
    refine (ih hrest hbetween).mono ?_ fun _ _ => id
    rintro answers stop ⟨hstop, hrelateds, hkept'⟩
    exact ⟨hstop, .cons (hkept' _ _ hrelated) hrelateds,
      fun item answer hstarts => hkept' _ _ (hkept _ _ hstarts)⟩

/-- Every step of a row keeps the invariant and shows a fact about its item. -/
theorem ensures_mapM_facts {step : α → Walk ε σ β} (invariant : σ → Prop) (fact : α → Prop)
    (hstep : ∀ item ∈ items, ∀ state, invariant state →
      Ensures (step item) state (fun _ stop => invariant stop ∧ fact item) bad)
    (hstart : invariant start) :
    Ensures (items.mapM step) start (fun _ stop => invariant stop ∧ ∀ item ∈ items, fact item)
      bad := by
  refine (ensures_mapM invariant (fun item _ _ => fact item) (fun item hitem state hstate => ?_)
    hstart).mono (fun answers stop hafter => ⟨hafter.1, fun item hitem => ?_⟩) fun _ _ => id
  · exact (hstep item hitem state hstate).mono
      (fun _ _ hstop => ⟨hstop.1, hstop.2, fun _ _ => id⟩) fun _ _ => id
  · obtain ⟨_, _, hfact⟩ := exists_of_forall₂ hafter.2.1 hitem
    exact hfact

/-- The same of a row without answers. -/
theorem ensures_forM_facts {step : α → Walk ε σ PUnit} (invariant : σ → Prop) (fact : α → Prop)
    (hstep : ∀ item ∈ items, ∀ state, invariant state →
      Ensures (step item) state (fun _ stop => invariant stop ∧ fact item) bad)
    (hstart : invariant start) :
    Ensures (items.forM step) start (fun _ stop => invariant stop ∧ ∀ item ∈ items, fact item)
      bad := by
  induction items generalizing start with
  | nil => exact ensures_pure.mpr ⟨hstart, by simp⟩
  | cons first rest ih =>
    obtain ⟨hfirst, hrest⟩ := List.forall_mem_cons.mp hstep
    refine ensures_bind.mpr ((hfirst start hstart).mono ?_ fun _ _ => id)
    rintro _ between ⟨hbetween, hfact⟩
    exact (ih hrest hbetween).mono (fun _ _ hafter =>
      ⟨hafter.1, List.forall_mem_cons.mpr ⟨hfact, hafter.2⟩⟩) fun _ _ => id

theorem ensures_forM {step : α → Walk ε σ PUnit} (invariant : σ → Prop)
    (hstep : ∀ item ∈ items, ∀ state, invariant state →
      Ensures (step item) state (fun _ => invariant) bad) (hstart : invariant start) :
    Ensures (items.forM step) start (fun _ => invariant) bad :=
  (ensures_forM_facts invariant (fun _ => True) (fun item hitem state hstate =>
    (hstep item hitem state hstate).mono (fun _ _ hstop => ⟨hstop, trivial⟩) fun _ _ =>
      id) hstart).mono (fun _ _ => And.left) fun _ _ => id

theorem ensures_foldlM {step : β → α → Walk ε σ β} (invariant : β → σ → Prop)
    (hstep : ∀ item ∈ items, ∀ value state, invariant value state →
      Ensures (step value item) state invariant bad) {value : β} (hstart : invariant value start) :
    Ensures (items.foldlM step value) start invariant bad := by
  induction items generalizing value start with
  | nil => exact hstart
  | cons first rest ih =>
    obtain ⟨hfirst, hrest⟩ := List.forall_mem_cons.mp hstep
    rw [List.foldlM_cons]
    exact ensures_bind.mpr ((hfirst value start hstart).mono (fun _ _ => ih hrest) fun _ _ => id)

end Rows

end ShaderIR.Walk
