import ShaderIR.Graph.Flow
import ShaderIR.Graph.Merge
import ShaderIR.Pass.Config

/-!
The control-flow graph of a program. Its statement lists are cut into ranges, the ranges are
connected, and straight lines are merged. Loops and returns are refused, and so is a discard unless
the whole program has become one block.
-/

set_option autoImplicit false

namespace ShaderIR.Graph

/-- Whether a statement is a discard. -/
def isDiscard (program : Program) (statement : NodeId) : Except Crash Bool := do
  match ← program.node statement with
  | .discard .. => return true
  | _ => return false

/-- The first discard among some blocks. -/
def firstDiscard? (program : Program) : List BasicBlock → Except Crash (Option NodeId)
  | [] => return none
  | block :: rest => do
    match ← (← block.statements program).findM? (isDiscard program) with
    | some found => return some found
    | none => firstDiscard? program rest

/-- Refuses a graph of several blocks in which there is a discard. -/
def rejectDiscard (graph : Graph) (program : Program) : Query PassError Unit := do
  if 1 < graph.size then
    match ← firstDiscard? program graph.blocks with
    | some found => throw (.unsupported (.discardAcrossBlocks found))
    | none => pure ()

/-- The connected but unmerged graph of a program. -/
def linked (program : Program) (limit : Nat) : Query PassError Graph := do
  let graph := ofRanges (← program.partition limit)
  let edges ← graph.flow program limit
  edges.foldlM (fun graph edge => graph.connect edge) graph

/-- The control-flow graph of a program. -/
def build (program : Program) (config : Config) : Query PassError Graph := do
  let graph ← linked program config.maxDepth
  let (_, graph) ← graph.mergeChains program
  graph.rejectDiscard program
  return graph

end ShaderIR.Graph
