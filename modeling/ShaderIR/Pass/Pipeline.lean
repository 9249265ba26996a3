import ShaderIR.Pass.LocalCse
import ShaderIR.Pass.ThreeAddress

/-!
Pipelines of passes. A pipeline runs its passes one after the other; a pass that fails counts as one
that changed nothing. `Pipeline.runToFixpoint` repeats a pipeline as long as it changes something.
-/

set_option autoImplicit false

namespace ShaderIR

/-- A step of a pipeline. -/
inductive Pass
  /-- A change made by any function on programs, which says whether it changed something. -/
  | inplace (action : Program → Bool × Program)
  /-- A pipeline that runs as one step. -/
  | nested (passes : List Pass)
  | localCse (config : Config)
  /-- Of the configuration only the limit on nesting counts. -/
  | hoistSubexpressions (config : Config)

/-- Runs a pass that may fail, which then counts as having changed nothing. -/
def skipOnError (pass : Walk PassError Program Bool) : StateT Program (Except Crash) Bool := do
  match ← pass.run with
  | .ok changed => return changed
  | .error _ => return false

namespace Pass

mutual

/-- Runs one step and returns whether it changed the program. -/
def run : Pass → StateT Program (Except Crash) Bool
  | .inplace action => modifyGet action
  | .nested passes => runAll passes
  | .localCse config => skipOnError (ShaderIR.localCse config)
  | .hoistSubexpressions config => skipOnError (ShaderIR.hoistSubexpressions config.maxDepth)

/-- Runs steps one after the other and returns whether any of them changed the program. -/
def runAll : List Pass → StateT Program (Except Crash) Bool
  | [] => return false
  | pass :: rest => do
    let changed ← pass.run
    let changedLater ← runAll rest
    return changed || changedLater

end

/-- The text of a step; functions and nested pipelines show nothing of what they do. -/
def text : Pass → String
  | .inplace _ | .nested _ => "Inplace(..)"
  | .localCse config => "LocalCse(" ++ config.text ++ ")"
  | .hoistSubexpressions config => "HoistSubexpressions(" ++ config.text ++ ")"

end Pass

/-- A row of passes. -/
structure Pipeline where
  passes : List Pass := []

namespace Pipeline

/-- The pipeline that does nothing. -/
def unoptimized : Pipeline :=
  {}

/-- The pipeline that shares what is shared unless something else is asked for. -/
def optimized : Pipeline :=
  { passes := [.localCse {}] }

/-- Runs the passes and returns whether any of them changed the program. -/
def run (pipeline : Pipeline) : StateT Program (Except Crash) Bool :=
  Pass.runAll pipeline.passes

/-- Runs the passes again as long as they change something, at most `limit` times, and returns how
often they ran. -/
def runToFixpoint (pipeline : Pipeline) : (limit : Nat) → StateT Program (Except Crash) Nat
  | 0 => return 0
  | limit + 1 => do
    if ← pipeline.run then return (← pipeline.runToFixpoint limit) + 1
    else return 1

/-- The text of a pipeline. -/
def text (pipeline : Pipeline) : String :=
  "PassManager \x7b passes: [" ++ ", ".intercalate (pipeline.passes.map Pass.text) ++ "] \x7d"

end Pipeline

end ShaderIR
