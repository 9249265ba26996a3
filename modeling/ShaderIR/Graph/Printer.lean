import ShaderIR.Graph.Basic

/-!
Texts of graphs: one line per block, with its ranges, its predecessors and its successors.
-/

set_option autoImplicit false

namespace ShaderIR

/-- The name of a list in the text of a graph. -/
def ListRef.text : ListRef → String
  | .root => "root"
  | .thenBody owner => "then " ++ toString owner
  | .elseBody owner => "else " ++ toString owner
  | .loopBody owner => "loop " ++ toString owner

/-- The list of a range and the places of its ends, or a question mark if an end is not there. -/
def BlockRange.text (range : BlockRange) (program : Program) : Except Crash String := do
  let start ← program.position? range.list range.first
  let stop ← program.position? range.list range.last
  match start, stop with
  | some start, some stop =>
    return range.list.text ++ " " ++ toString start ++ "..=" ++ toString stop
  | _, _ => return range.list.text ++ " ?"

/-- The members of a set in brackets. -/
def BlockSet.text (set : BlockSet) : String :=
  "[" ++ ", ".intercalate (set.map toString) ++ "]"

/-- The line of one block. -/
def BasicBlock.text (block : BasicBlock) (program : Program) : Except Crash String := do
  let ranges ← block.ranges.mapM fun range => range.text program
  let ranges := if ranges.isEmpty then "" else " " ++ ", ".intercalate ranges
  return toString block.id ++ ranges ++ " <- " ++ block.predecessors.text ++ " -> " ++
    block.successors.text

/-- The text of a graph. -/
def Graph.text (graph : Graph) (program : Program) : Except Crash String := do
  return "\n".intercalate (← graph.blocks.mapM fun block => block.text program)

end ShaderIR
