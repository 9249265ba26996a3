import ShaderIR.Graph.Basic
import ShaderIR.Numbering.Block
import ShaderIR.Pass.Edit

/-!
Sharing of repeated computations in one basic block. The first computation of a number that occurs
more than once goes into a temporary, and all later ones become reads of it. A repeated call is
replaced by a copy of the first one's result.
-/

set_option autoImplicit false

namespace ShaderIR

/-- The temporaries that hold shared values, the most recent one first. -/
abbrev Temporaries :=
  List (ValueNumber × VarId)

/-- What sharing needs to know of a block. -/
structure SharingPlan where
  /-- The limit on nesting. -/
  limit : Nat
  /-- The nodes whose numbers occur more than once. -/
  targets : List (NodeId × ValueNumber)

/-- The plan for a numbered block; of two entries for one node the later one counts. -/
def SharingPlan.ofNumbering (numbering : Numbering) (config : Config) : SharingPlan where
  limit := config.maxDepth
  targets := numbering.repeated.reverse

/-- A part of sharing. -/
abbrev SharingEdit :=
  Edit Temporaries

namespace SharingPlan

open Edit

/-- The temporary that holds a number already. -/
def temporary? (number : ValueNumber) : SharingEdit (Option VarId) := do
  return (← get).memory.lookup number

/-- Remembers the temporary of a number. -/
def remember (number : ValueNumber) (temporary : VarId) : SharingEdit Unit :=
  modify fun draft => { draft with memory := (number, temporary) :: draft.memory }

/-! ### Expressions -/

/-- Shares what is repeated in an expression that may still nest `budget` levels, and returns the
node that stands for it then. -/
def shareExpression (plan : SharingPlan) : (budget : Nat) → NodeId → SharingEdit NodeId
  | 0, _ => throw (.tooDeep plan.limit)
  | budget + 1, id => do
    match plan.targets.lookup id with
    | none => do
      editChildren (plan.shareExpression budget) id
      return id
    | some number => do
      match ← temporary? number with
      | some temporary => do
        markChanged
        readOf temporary
      | none => do
        editChildren (plan.shareExpression budget) id
        let temporary ← materialize id
        remember number temporary
        readOf temporary

/-- Shares what is repeated in an operand of a statement. -/
def shareOperand (plan : SharingPlan) (id : NodeId) : SharingEdit NodeId :=
  plan.shareExpression plan.limit id

/-- Shares what is repeated in the indices of a place. -/
def sharePlace (plan : SharingPlan) (id : NodeId) : SharingEdit Unit :=
  editPlace plan.limit plan.shareExpression plan.limit id

/-- How sharing edits a statement. -/
def rules (plan : SharingPlan) : Rules Temporaries where
  value := plan.shareOperand
  target := editPlace plan.limit plan.shareExpression (plan.limit + 1)
  operand := plan.shareOperand
  place := plan.sharePlace

/-! ### Statements -/

/-- A new assignment of a temporary to a place. -/
def copyTo (target : NodeId) (temporary : VarId) : SharingEdit NodeId := do
  let value ← readOf temporary
  create fun program => program.addNode (.assign target value 0)

/-- Shares a repeated call and returns the statements that stand for it then. The first call stores
its result in a temporary that is copied to the old place; a later one is replaced by such a
copy. -/
def shareCall (plan : SharingPlan) (id : NodeId) (number : ValueNumber) (callee : SignatureId)
    (arguments : List NodeId) (target : NodeId) : SharingEdit (List NodeId) := do
  match ← temporary? number with
  | some temporary => do
    plan.sharePlace target
    let copy ← copyTo target temporary
    markChanged
    return [copy]
  | none => do
    let arguments ← arguments.mapM plan.shareOperand
    plan.sharePlace target
    let signature ← ask fun program => program.signature callee
    let temporary ← create fun program => program.addTemporary signature.returnTy
    let result ← readOf temporary
    setNode id (.call callee arguments (some result))
    let copy ← copyTo target temporary
    remember number temporary
    markChanged
    return [id, copy]

/-- Shares what is repeated in a statement and returns the statements that stand for it then. -/
def shareStatement (plan : SharingPlan) (id : NodeId) : SharingEdit (List NodeId) := do
  match ← ask fun program => program.node id, plan.targets.lookup id with
  | .call callee arguments (some target), some number =>
    plan.shareCall id number callee arguments target
  | .call _ _ none, some _ => return [id]
  | _, _ => do
    editStatement plan.rules id
    return [id]

/-! ### Ranges and blocks -/

/-- A range after one of its statements has been replaced by a row of statements. -/
def replaceIn (range : BlockRange) (id : NodeId) (row : List NodeId) : BlockRange :=
  { range with
    first := if range.first = id then row.headD id else range.first
    last := if range.last = id then row.getLastD id else range.last }

/-- Shares what is repeated in one statement of a range. What has been taken out of the statement
goes in front of it even if sharing fails. -/
def shareInRange (plan : SharingPlan) (range : BlockRange) (id : NodeId) :
    SharingEdit BlockRange := do
  match ← ask fun program => program.position? range.list id with
  | none => return range
  | some place => do
    let outcome ← Walk.attempt (plan.shareStatement id)
    let row := (← takePending) ++ outcome.toOption.getD [id]
    let statements ← ask fun program => program.list range.list
    let program ← ask fun program =>
      program.setList range.list (statements.take place ++ row ++ statements.drop (place + 1))
    modify fun draft => { draft with program }
    let _ ← liftExcept outcome
    return replaceIn range id row

/-- Shares what is repeated in a range and returns the range with its new ends. -/
def shareRange (plan : SharingPlan) (range : BlockRange) : SharingEdit BlockRange := do
  let statements ← ask fun program => range.statements program
  statements.foldlM plan.shareInRange range

end SharingPlan

/-- A program with the graph of its blocks. -/
structure Workspace where
  program : Program
  graph : Graph

/-- Shares what is repeated in a numbered block, whose ranges follow the inserted statements, and
returns whether the program changed. -/
def shareBlock (id : BlockId) (numbering : Numbering) (config : Config) :
    Walk PassError Workspace Bool := do
  let plan := SharingPlan.ofNumbering numbering config
  if numbering.poisoned || plan.targets.isEmpty then return false
  let workspace ← get
  let block ← workspace.graph.block id
  let walk : SharingEdit (List BlockRange) := block.ranges.mapM plan.shareRange
  let (outcome, draft) ← walk.runFrom { program := workspace.program, memory := [] }
  modify fun workspace => { workspace with program := draft.program }
  let ranges ← liftExcept outcome
  let graph ← workspace.graph.modifyBlock id fun block => { block with ranges }
  modify fun workspace =>
    { workspace with graph := { graph with changed := graph.changed || draft.changed } }
  return draft.changed

end ShaderIR
