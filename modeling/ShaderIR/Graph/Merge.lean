import ShaderIR.Graph.Basic

/-!
Merging of straight lines. A block whose only predecessor has no other successor, and which begins
right where that predecessor ends, becomes part of it. `Graph.mergeChains` does so until no such
block is left.
-/

set_option autoImplicit false

namespace ShaderIR.Graph

/-- Whether a block begins right where another one ends: next in the same list, or at the top of a
body of the conditional that ends it. -/
def follows (program : Program) (previous block : BasicBlock) : Except Crash Bool := do
  match previous.exit?, block.entry? with
  | some exit, some entry =>
    if exit.list = entry.list then
      let last ← program.position? exit.list exit.last
      let first ← program.position? entry.list entry.first
      match last, first with
      | some last, some first => return last + 1 == first
      | _, _ => return false
    else
      let opensBody := (← program.list entry.list).head? == some entry.first
      if opensBody then return (← program.nestedLists exit.last).contains entry.list
      else return false
  | _, _ => return false

/-- The block that a given block can become part of. -/
def absorber? (graph : Graph) (program : Program) (block : BasicBlock) :
    Except Crash (Option BlockId) := do
  match block.predecessors with
  | [only] => do
    let previous ← graph.block only
    if previous.id ≠ block.id ∧ previous.successors = [block.id] then
      return if ← follows program previous block then some previous.id else none
    else return none
  | _ => return none

/-- The first of some blocks that can be merged, with the block that it becomes part of. -/
def mergeCandidate? (graph : Graph) (program : Program) :
    List BasicBlock → Except Crash (Option (BlockId × BasicBlock))
  | [] => return none
  | block :: rest => do
    match ← graph.absorber? program block with
    | some absorber => return some (absorber, block)
    | none => graph.mergeCandidate? program rest

/-- Appends ranges to others; a range that goes on in the list of the last one extends that one. -/
def joinRanges (ranges added : List BlockRange) : List BlockRange :=
  match ranges.getLast?, added with
  | some exit, entry :: rest =>
    if entry.list = exit.list then ranges.dropLast ++ { exit with last := entry.last } :: rest
    else ranges ++ added
  | _, _ => ranges ++ added

/-- Makes a block part of another one, which takes over its successors. -/
def absorb (graph : Graph) (absorber : BlockId) (block : BasicBlock) : Except Crash Graph := do
  let graph := graph.setSlot block.id none
  let graph ← block.successors.foldlM (fun graph successor =>
    graph.modifyBlock successor fun following => { following with
      predecessors := (following.predecessors.remove block.id).insert absorber }) graph
  graph.modifyBlock absorber fun previous => { previous with
    ranges := joinRanges previous.ranges block.ranges
    successors := block.successors }

/-- Merges one candidate after the other, at most so many. -/
def mergeWithin (program : Program) : (merges : Nat) → Graph → Except Crash (Nat × Graph)
  | 0, graph => return (0, graph)
  | merges + 1, graph => do
    match ← graph.mergeCandidate? program graph.blocks with
    | none => return (0, graph)
    | some (absorber, block) => do
      let (merged, graph) ← mergeWithin program merges (← graph.absorb absorber block)
      return (merged + 1, graph)

/-- Merges until nothing can be merged, and counts the merges; each one leaves one block less. -/
def mergeChains (graph : Graph) (program : Program) : Except Crash (Nat × Graph) :=
  mergeWithin program graph.size graph

end ShaderIR.Graph
