import ShaderIR.Walk
import Mathlib.Data.List.Forall2

/-!
Successful runs of computations. `Walk.Answers` says that a walk from one state ends with an answer
in another one, and `Query.Answers` the same of a question, which has no state. For every way to
build a computation one lemma says when the whole answers, in terms of its parts; no proof about a
particular computation opens the monads. `Query.Fails` says that a question ends with an ordinary
error.
-/

set_option autoImplicit false

namespace ShaderIR

variable {ε ε' σ α β : Type}

theorem bind_eq_ok_iff {request : Except ε α} {next : α → Except ε β} {answer : β} :
    request >>= next = .ok answer ↔ ∃ middle, request = .ok middle ∧ next middle = .ok answer := by
  cases request with
  | error cause => simp [bind, Except.bind]
  | ok middle => simp [bind, Except.bind]

theorem map_eq_ok_iff {request : Except ε α} {change : α → β} {answer : β} :
    request.map change = .ok answer ↔ ∃ value, request = .ok value ∧ change value = answer := by
  cases request with
  | error cause => simp [Except.map]
  | ok value => simp [Except.map]

theorem mapM_cons_eq_ok_iff {step : α → Except ε β} {first : α} {rest : List α} {answers : List β} :
    (first :: rest).mapM step = .ok answers ↔
      ∃ answer later, step first = .ok answer ∧ rest.mapM step = .ok later ∧
        answers = answer :: later := by
  simp only [List.mapM_cons, bind_eq_ok_iff]
  constructor
  · rintro ⟨answer, hfirst, later, hrest, hpure⟩
    exact ⟨answer, later, hfirst, hrest, (Except.ok.inj hpure).symm⟩
  · rintro ⟨answer, later, hfirst, hrest, rfl⟩
    exact ⟨answer, hfirst, later, hrest, rfl⟩

/-- The walk ends with an answer, in the state `stop`. -/
def Walk.Answers (walk : Walk ε σ α) (start : σ) (answer : α) (stop : σ) : Prop :=
  walk.runFrom start = .ok (.ok answer, stop)

/-- The question has an answer. -/
def Query.Answers (query : Query ε α) (answer : α) : Prop :=
  query.run = .ok (.ok answer)

/-- The question ends with an ordinary error. -/
def Query.Fails (query : Query ε α) (failure : ε) : Prop :=
  query.run = .ok (.error failure)

namespace Walk

theorem Answers.unique {walk : Walk ε σ α} {start stop stop' : σ} {answer answer' : α}
    (hfirst : Answers walk start answer stop) (hsecond : Answers walk start answer' stop') :
    answer = answer' ∧ stop = stop' := by
  have hsame := hfirst.symm.trans hsecond
  simpa using hsame

@[simp] theorem answers_pure {start stop : σ} {value answer : α} :
    Answers (pure value : Walk ε σ α) start answer stop ↔ value = answer ∧ start = stop := by
  change (Except.ok (Except.ok value, start) : Except Crash (Except ε α × σ)) =
    .ok (.ok answer, stop) ↔ _
  simp

@[simp] theorem answers_bind {walk : Walk ε σ α} {next : α → Walk ε σ β} {start stop : σ}
    {answer : β} : Answers (walk >>= next) start answer stop ↔
      ∃ middle between, Answers walk start middle between ∧
        Answers (next middle) between answer stop := by
  change StateT.bind walk.run (ExceptT.bindCont next) start = .ok (.ok answer, stop) ↔ _
  unfold StateT.bind
  rw [bind_eq_ok_iff]
  constructor
  · rintro ⟨⟨outcome, between⟩, hwalk, hnext⟩
    cases outcome with
    | ok middle => exact ⟨middle, between, hwalk, hnext⟩
    | error failure => cases hnext
  · rintro ⟨middle, between, hwalk, hnext⟩
    exact ⟨(.ok middle, between), hwalk, hnext⟩

@[simp] theorem answers_map {walk : Walk ε σ α} {change : α → β} {start stop : σ} {answer : β} :
    Answers (change <$> walk) start answer stop ↔
      ∃ middle, Answers walk start middle stop ∧ change middle = answer := by
  rw [map_eq_pure_bind, answers_bind]
  constructor
  · rintro ⟨middle, between, hwalk, hpure⟩
    obtain ⟨hvalue, rfl⟩ := answers_pure.mp hpure
    exact ⟨middle, hwalk, hvalue⟩
  · rintro ⟨middle, hwalk, hvalue⟩
    exact ⟨middle, stop, hwalk, answers_pure.mpr ⟨hvalue, rfl⟩⟩

@[simp] theorem answers_get {start answer stop : σ} :
    Answers (get : Walk ε σ σ) start answer stop ↔ start = answer ∧ start = stop := by
  change (Except.ok (Except.ok start, start) : Except Crash (Except ε σ × σ)) =
    .ok (.ok answer, stop) ↔ _
  simp

@[simp] theorem answers_set {start stop value : σ} {answer : PUnit} :
    Answers (set value : Walk ε σ PUnit) start answer stop ↔ value = stop := by
  change (Except.ok (Except.ok PUnit.unit, value) : Except Crash (Except ε PUnit × σ)) =
    .ok (.ok answer, stop) ↔ _
  simp

@[simp] theorem answers_modify {start stop : σ} {change : σ → σ} {answer : PUnit} :
    Answers (modify change : Walk ε σ PUnit) start answer stop ↔ change start = stop := by
  change (Except.ok (Except.ok PUnit.unit, change start) : Except Crash (Except ε PUnit × σ)) =
    .ok (.ok answer, stop) ↔ _
  simp

@[simp] theorem answers_modifyGet {start stop : σ} {change : σ → α × σ} {answer : α} :
    Answers (modifyGet change : Walk ε σ α) start answer stop ↔ change start = (answer, stop) := by
  change (Except.ok (Except.ok (change start).1, (change start).2) :
    Except Crash (Except ε α × σ)) = .ok (.ok answer, stop) ↔ _
  simp [Prod.ext_iff]

@[simp] theorem answers_throw {start stop : σ} {failure : ε} {answer : α} :
    ¬ Answers (throw failure : Walk ε σ α) start answer stop := by
  change ¬ (Except.ok (Except.error failure, start) : Except Crash (Except ε α × σ)) =
    .ok (.ok answer, stop)
  simp

@[simp] theorem answers_throwCrash {start stop : σ} {cause : Crash} {answer : α} :
    ¬ Answers (throwThe Crash cause : Walk ε σ α) start answer stop := by
  change ¬ (Except.error cause : Except Crash (Except ε α × σ)) = .ok (.ok answer, stop)
  simp

@[simp] theorem answers_liftCrash {request : Except Crash α} {start stop : σ} {answer : α} :
    Answers (liftM request : Walk ε σ α) start answer stop ↔
      request = .ok answer ∧ start = stop := by
  cases request with
  | error cause =>
    change (Except.error cause : Except Crash (Except ε α × σ)) = .ok (.ok answer, stop) ↔ _
    simp
  | ok value =>
    change (Except.ok (Except.ok value, start) : Except Crash (Except ε α × σ)) =
      .ok (.ok answer, stop) ↔ _
    simp

theorem answers_liftCrash_bind {request : Except Crash α} {value : α}
    (hrequest : request = .ok value) {next : α → Walk ε σ β} {start stop : σ} {answer : β} :
    Answers (liftM request >>= next) start answer stop ↔
      Answers (next value) start answer stop := by
  simp only [answers_bind, answers_liftCrash, hrequest, Except.ok.injEq]
  constructor
  · rintro ⟨_, _, ⟨rfl, rfl⟩, hnext⟩
    exact hnext
  · intro hnext
    exact ⟨value, start, ⟨rfl, rfl⟩, hnext⟩

@[simp] theorem answers_liftQuery {query : Query ε α} {start stop : σ} {answer : α} :
    Answers (liftM query : Walk ε σ α) start answer stop ↔
      Query.Answers query answer ∧ start = stop := by
  change (do let outcome ← query.run; pure (outcome, start) : Except Crash (Except ε α × σ)) =
    .ok (.ok answer, stop) ↔ _
  rw [bind_eq_ok_iff]
  constructor
  · rintro ⟨outcome, hquery, hpure⟩
    cases hpure
    exact ⟨hquery, rfl⟩
  · rintro ⟨hquery, rfl⟩
    exact ⟨.ok answer, hquery, rfl⟩

@[simp] theorem answers_ask {query : Query ε α} {start stop : σ} {answer : α} :
    Answers (Query.ask query : Walk ε σ α) start answer stop ↔
      Query.Answers query answer ∧ start = stop :=
  answers_liftQuery

@[simp] theorem answers_liftExcept {outcome : Except ε α} {start stop : σ} {answer : α} :
    Answers (liftExcept outcome : Walk ε σ α) start answer stop ↔
      outcome = .ok answer ∧ start = stop := by
  cases outcome with
  | error failure =>
    change (Except.ok (Except.error failure, start) : Except Crash (Except ε α × σ)) =
      .ok (.ok answer, stop) ↔ _
    simp
  | ok value => exact answers_pure.trans (by simp)

@[simp] theorem answers_attempt {walk : Walk ε σ α} {start stop : σ} {outcome : Except ε α} :
    Answers (Walk.attempt walk : Walk ε' σ (Except ε α)) start outcome stop ↔
      walk.runFrom start = .ok (outcome, stop) := by
  unfold Answers
  rw [Walk.runFrom_attempt]
  cases walk.runFrom start with
  | error cause => simp [Except.map]
  | ok reached => simp [Except.map, Prod.ext_iff]

/-! ### Rows of walks -/

@[simp] theorem answers_mapM_nil {step : α → Walk ε σ β} {start stop : σ} {answers : List β} :
    Answers ([].mapM step) start answers stop ↔ answers = [] ∧ start = stop := by
  rw [List.mapM_nil, answers_pure]
  constructor <;> rintro ⟨rfl, rfl⟩ <;> exact ⟨rfl, rfl⟩

theorem answers_mapM_cons {step : α → Walk ε σ β} {first : α} {rest : List α} {start stop : σ}
    {answers : List β} : Answers ((first :: rest).mapM step) start answers stop ↔
      ∃ answer later between, Answers (step first) start answer between ∧
        Answers (rest.mapM step) between later stop ∧ answers = answer :: later := by
  simp only [List.mapM_cons, answers_bind, answers_pure]
  constructor
  · rintro ⟨answer, between, hfirst, later, _, hrest, rfl, rfl⟩
    exact ⟨answer, later, between, hfirst, hrest, rfl⟩
  · rintro ⟨answer, later, between, hfirst, hrest, rfl⟩
    exact ⟨answer, between, hfirst, later, stop, hrest, rfl, rfl⟩

@[simp] theorem answers_forM_nil {step : α → Walk ε σ PUnit} {start stop : σ} {answer : PUnit} :
    Answers ([].forM step) start answer stop ↔ start = stop := by
  change Answers (pure ⟨⟩ : Walk ε σ PUnit) start answer stop ↔ _
  simp

theorem answers_forM_cons {step : α → Walk ε σ PUnit} {first : α} {rest : List α}
    {start stop : σ} {answer : PUnit} : Answers ((first :: rest).forM step) start answer stop ↔
      ∃ between, Answers (step first) start ⟨⟩ between ∧
        Answers (rest.forM step) between answer stop := by
  change Answers (step first >>= fun _ => rest.forM step) start answer stop ↔ _
  rw [answers_bind]
  constructor
  · rintro ⟨⟨⟩, between, hfirst, hrest⟩
    exact ⟨between, hfirst, hrest⟩
  · rintro ⟨between, hfirst, hrest⟩
    exact ⟨⟨⟩, between, hfirst, hrest⟩

end Walk

namespace Query

theorem Answers.unique {query : Query ε α} {answer answer' : α} (hfirst : Answers query answer)
    (hsecond : Answers query answer') : answer = answer' := by
  have hsame := hfirst.symm.trans hsecond
  simpa using hsame

@[simp] theorem answers_pure {value answer : α} :
    Answers (pure value : Query ε α) answer ↔ value = answer := by
  change (Except.ok (Except.ok value) : Except Crash (Except ε α)) = .ok (.ok answer) ↔ _
  simp

@[simp] theorem answers_bind {query : Query ε α} {next : α → Query ε β} {answer : β} :
    Answers (query >>= next) answer ↔
      ∃ middle, Answers query middle ∧ Answers (next middle) answer := by
  change query.run >>= ExceptT.bindCont next = .ok (.ok answer) ↔ _
  rw [bind_eq_ok_iff]
  constructor
  · rintro ⟨outcome, hquery, hnext⟩
    cases outcome with
    | ok middle => exact ⟨middle, hquery, hnext⟩
    | error failure => cases hnext
  · rintro ⟨middle, hquery, hnext⟩
    exact ⟨.ok middle, hquery, hnext⟩

@[simp] theorem answers_throw {failure : ε} {answer : α} :
    ¬ Answers (throw failure : Query ε α) answer := by
  change ¬ (Except.ok (Except.error failure) : Except Crash (Except ε α)) = .ok (.ok answer)
  simp

@[simp] theorem answers_liftCrash {request : Except Crash α} {answer : α} :
    Answers (liftM request : Query ε α) answer ↔ request = .ok answer := by
  cases request with
  | error cause =>
    change (Except.error cause : Except Crash (Except ε α)) = .ok (.ok answer) ↔ _
    simp
  | ok value =>
    change (Except.ok (Except.ok value) : Except Crash (Except ε α)) = .ok (.ok answer) ↔ _
    simp

@[simp] theorem answers_mapM_nil {step : α → Query ε β} {answers : List β} :
    Answers ([].mapM step) answers ↔ answers = [] := by
  rw [List.mapM_nil, answers_pure]
  exact eq_comm

theorem answers_mapM_cons {step : α → Query ε β} {first : α} {rest : List α} {answers : List β} :
    Answers ((first :: rest).mapM step) answers ↔
      ∃ answer later, Answers (step first) answer ∧ Answers (rest.mapM step) later ∧
        answers = answer :: later := by
  simp only [List.mapM_cons, answers_bind, answers_pure]
  constructor
  · rintro ⟨answer, hfirst, later, hrest, rfl⟩
    exact ⟨answer, later, hfirst, hrest, rfl⟩
  · rintro ⟨answer, later, hfirst, hrest, rfl⟩
    exact ⟨answer, hfirst, later, hrest, rfl⟩

theorem answers_mapM_iff_forall₂ {step : α → Query ε β} {items : List α} {answers : List β} :
    Answers (items.mapM step) answers ↔
      List.Forall₂ (fun item answer => Answers (step item) answer) items answers := by
  induction items generalizing answers with
  | nil => rw [answers_mapM_nil, List.forall₂_nil_left_iff]
  | cons first rest ih =>
    rw [answers_mapM_cons, List.forall₂_cons_left_iff]
    simp only [ih]

theorem answers_foldlM_liftCrash {step : β → α → Except Crash β} {items : List α} {start stop : β} :
    Answers (items.foldlM (fun state item => liftM (step state item)) start : Query ε β) stop ↔
      items.foldlM step start = .ok stop := by
  induction items generalizing start with
  | nil =>
    rw [List.foldlM_nil, List.foldlM_nil, answers_pure]
    exact ⟨congrArg Except.ok, Except.ok.inj⟩
  | cons first rest ih =>
    simp only [List.foldlM_cons, answers_bind, answers_liftCrash, bind_eq_ok_iff, ih]

/-! ### Questions that fail -/

theorem Answers.not_fails {query : Query ε α} {answer : α} (hanswers : Answers query answer)
    {failure : ε} : ¬ Fails query failure := by
  intro hfails
  have hsame := hanswers.symm.trans hfails
  simp at hsame

@[simp] theorem fails_pure {value : α} {failure : ε} : ¬ Fails (pure value : Query ε α) failure :=
  (answers_pure.mpr rfl).not_fails

@[simp] theorem fails_bind {query : Query ε α} {next : α → Query ε β} {failure : ε} :
    Fails (query >>= next) failure ↔
      Fails query failure ∨ ∃ middle, Answers query middle ∧ Fails (next middle) failure := by
  change query.run >>= ExceptT.bindCont next = .ok (.error failure) ↔ _
  rw [bind_eq_ok_iff]
  constructor
  · rintro ⟨outcome, hquery, hnext⟩
    cases outcome with
    | ok middle => exact Or.inr ⟨middle, hquery, hnext⟩
    | error cause =>
      obtain rfl : cause = failure := by simpa using Except.ok.inj hnext
      exact Or.inl hquery
  · rintro (hquery | ⟨middle, hquery, hnext⟩)
    · exact ⟨.error failure, hquery, rfl⟩
    · exact ⟨.ok middle, hquery, hnext⟩

@[simp] theorem fails_throw {cause failure : ε} :
    Fails (throw cause : Query ε α) failure ↔ cause = failure := by
  change (Except.ok (Except.error cause) : Except Crash (Except ε α)) = .ok (.error failure) ↔ _
  simp

@[simp] theorem fails_liftCrash {request : Except Crash α} {failure : ε} :
    ¬ Fails (liftM request : Query ε α) failure := by
  cases request with
  | error cause =>
    change ¬ (Except.error cause : Except Crash (Except ε α)) = .ok (.error failure)
    simp
  | ok value => exact (answers_liftCrash.mpr rfl).not_fails

@[simp] theorem fails_mapM_nil {step : α → Query ε β} {failure : ε} :
    ¬ Fails ([].mapM step) failure := by
  rw [List.mapM_nil]
  exact fails_pure

theorem fails_mapM_cons {step : α → Query ε β} {first : α} {rest : List α} {failure : ε} :
    Fails ((first :: rest).mapM step) failure ↔ Fails (step first) failure ∨
      (∃ answer, Answers (step first) answer) ∧ Fails (rest.mapM step) failure := by
  simp only [List.mapM_cons, fails_bind, fails_pure, and_false, exists_false, or_false,
    exists_and_right]

end Query

end ShaderIR
