import ShaderIR.Graph.Build
import ShaderIR.Pass.Sharing

/-!
Elimination of common subexpressions within basic blocks. Every block of the control-flow graph is
numbered on its own before any of them is changed, and then each one shares what is repeated in it.
-/

set_option autoImplicit false

namespace ShaderIR

/-- Numbers the statements of every block of a graph. -/
def Graph.numberBlocks (graph : Graph) (program : Program) (config : Config) :
    Query PassError (List (BlockId × Numbering)) :=
  graph.blocks.mapM fun block => do
    let statements ← block.statements program
    return (block.id, ← program.numberStatements statements config)

/-- Shares what is repeated in each of some numbered blocks. -/
def shareBlocks (numberings : List (BlockId × Numbering)) (config : Config) :
    Walk PassError Workspace Unit :=
  numberings.forM fun (id, numbering) => do
    let _ ← shareBlock id numbering config

/-- Eliminates repeated computations without reporting failures. -/
def eliminateRepeated (config : Config) : Walk PassError Program Bool := do
  let program ← get
  let graph ← Graph.build program config
  let numberings ← graph.numberBlocks program config
  let (outcome, workspace) ← (shareBlocks numberings config).runFrom { program, graph }
  set workspace.program
  let _ ← liftExcept outcome
  return workspace.graph.changed

/-- Eliminates repeated computations within basic blocks, and returns whether the program changed. A
program that nests too deep is reported to its diagnostics; other failures are not. -/
def localCse (config : Config) : Walk PassError Program Bool := do
  match ← Walk.attempt (eliminateRepeated config) with
  | .ok changed => return changed
  | .error (.tooDeep limit) => do
    modify fun program => program.report (PassError.tooDeep limit).message
    throw (.tooDeep limit)
  | .error failure => throw failure

end ShaderIR
