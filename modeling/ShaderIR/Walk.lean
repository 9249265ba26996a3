import ShaderIR.Crash

/-!
Computations that can fail. A `Query` only asks; it can crash, or fail with an ordinary error. A
`Walk` also changes a state: an ordinary error keeps the state reached so far, and a crash loses it.
`Walk.attempt` turns an ordinary error into an answer, so that a walk can clean up after it.
-/

set_option autoImplicit false

namespace ShaderIR

/-- A question that can crash, or fail with an `ε`. -/
abbrev Query (ε : Type) :=
  ExceptT ε (Except Crash)

/-- A computation over a state `σ` that can crash, or fail with an `ε` and keep its state. -/
abbrev Walk (ε σ : Type) :=
  ExceptT ε (StateT σ (Except Crash))

variable {ε ε' σ α : Type}

/-- Asks a question in the middle of a walk. -/
def Query.ask (query : Query ε α) : Walk ε σ α :=
  ExceptT.mk (StateT.lift query.run)

instance : MonadLift (Query ε) (Walk ε σ) :=
  ⟨Query.ask⟩

/-- Runs a walk from a state to its end or its failure, with the state reached by then. -/
def Walk.runFrom (walk : Walk ε σ α) (start : σ) : Except Crash (Except ε α × σ) :=
  walk.run.run start

/-- Runs a walk to its end or its failure, and goes on either way. -/
def Walk.attempt (walk : Walk ε σ α) : Walk ε' σ (Except ε α) :=
  ExceptT.lift walk.run

@[simp] theorem Walk.runFrom_attempt (walk : Walk ε σ α) (start : σ) :
    (Walk.attempt walk : Walk ε' σ (Except ε α)).runFrom start =
      (walk.runFrom start).map fun reached => (.ok reached.1, reached.2) := by
  unfold runFrom attempt ExceptT.lift ExceptT.run ExceptT.mk
  simp only [StateT.run_map]
  cases StateT.run walk start <;> rfl

end ShaderIR
