import ShaderIR.Pass.Edit

/-!
Three-address form. Expressions of several operands stay only where an assignment stores their value
directly; everywhere else they are computed into a temporary first. Nesting is checked for the whole
program beforehand, so that a program that nests too deep is left as it was.
-/

set_option autoImplicit false

namespace ShaderIR

namespace Program

/-! ### The check beforehand -/

/-- Whether a node and everything below it nests at most `budget` levels, itself included. -/
def fitsWithin (program : Program) : (budget : Nat) → NodeId → Except Crash Bool
  | 0, _ => return false
  | budget + 1, id => do
    (← program.node id).children.allM (program.fitsWithin budget)

/-- Checks that a list which may nest `budget` levels, itself included, does so. A statement counts
like its list, and a child or a nested list counts one level more than what it belongs to. -/
def checkDepthWithin (program : Program) (limit : Nat) :
    (budget : Nat) → ListRef → Query PassError Unit
  | 0, _ => throw (.tooDeep limit)
  | budget + 1, ref => do
    (← program.list ref).forM fun statement => do
      if !(← program.fitsWithin (budget + 1) statement) then throw (.tooDeep limit)
      (← program.nestedLists statement).forM (program.checkDepthWithin limit budget)

/-- Checks that a program nests at most `limit` deep. -/
def checkDepth (program : Program) (limit : Nat) : Query PassError Unit :=
  program.checkDepthWithin limit (limit + 1) .root

end Program

namespace ThreeAddress

open Edit

/-- A part of bringing a program into three-address form. -/
abbrev Hoisting :=
  Edit Unit

/-- Takes everything compound out of an expression that may still nest `budget` levels, and the
expression itself if it is compound. -/
def hoistExpression (limit : Nat) : (budget : Nat) → NodeId → Hoisting NodeId
  | 0, _ => throw (.tooDeep limit)
  | budget + 1, id => do
    editChildren (hoistExpression limit budget) id
    if (← ask fun program => program.node id).isCompound then
      let temporary ← materialize id
      readOf temporary
    else return id

/-- Takes everything compound out of the value of an assignment, but not the value itself. -/
def hoistValue (limit budget : Nat) (id : NodeId) : Hoisting NodeId := do
  if (← ask fun program => program.node id).isCompound then
    editChildren (hoistExpression limit (budget - 1)) id
    return id
  else hoistExpression limit budget id

/-- How a statement is edited whose operands may nest `budget` levels. -/
def rules (limit budget : Nat) : Rules Unit where
  value := hoistValue limit budget
  target := editPlace limit (hoistExpression limit) budget
  operand := hoistExpression limit budget
  place := editPlace limit (hoistExpression limit) budget

/-- Puts in front of each statement of a list what has been taken out of it, and does the same in
the lists that the statement owns. -/
def hoistList (limit : Nat) : (budget : Nat) → ListRef → Hoisting Unit
  | 0, _ => throw (.tooDeep limit)
  | budget + 1, ref => do
    let rows ← (← ask fun program => program.list ref).mapM fun statement => do
      editStatement (rules limit budget) statement
      let hoisted ← takePending
      (← ask fun program => program.nestedLists statement).forM (hoistList limit budget)
      return hoisted ++ [statement]
    let program ← ask fun program => program.setList ref rows.flatten
    modify fun draft => { draft with program }

end ThreeAddress

/-- Brings a program into three-address form, and returns whether anything was taken out of its
place. A program that nests too deep is reported to its diagnostics. -/
def hoistSubexpressions (limit : Nat) : Walk PassError Program Bool := do
  let program ← get
  match ← Walk.attempt (program.checkDepth limit).ask with
  | .error failure => do
    modify fun program => program.report failure.message
    throw failure
  | .ok () => do
    let walk := ThreeAddress.hoistList limit (limit + 1) .root
    let (outcome, draft) ← walk.runFrom { program, memory := () }
    set draft.program
    let _ ← liftExcept outcome
    return draft.changed

end ShaderIR
