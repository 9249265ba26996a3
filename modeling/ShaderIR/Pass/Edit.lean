import ShaderIR.Pass.Error
import ShaderIR.Program.Typing
import ShaderIR.Walk

/-!
Editing of statements. Both passes take computations out of a statement and put them, each into a
temporary of its own, in front of it. A `Draft` is a program with the statements that wait to be
inserted there and with what the pass remembers; `editStatement` edits the operands and places of a
statement one after the other by the rules of a pass.
-/

set_option autoImplicit false

namespace ShaderIR

/-- A program that a pass is working on. -/
structure Draft (κ : Type) where
  program : Program
  /-- What the pass remembers. -/
  memory : κ
  /-- Statements that go in front of the current one. -/
  pending : List NodeId := []
  changed : Bool := false

/-- A part of a pass. -/
abbrev Edit (κ : Type) :=
  Walk PassError (Draft κ)

namespace Edit

variable {κ : Type}

/-! ### Steps -/

/-- Asks the program for something that may crash. -/
def ask {α : Type} (request : Program → Except Crash α) : Edit κ α := do
  request (← get).program

/-- Adds something to the program. -/
def create {α : Type} (addition : Program → Except Crash (α × Program)) : Edit κ α := do
  let (created, program) ← addition (← get).program
  modify fun draft => { draft with program }
  return created

/-- Changes a node. -/
def changeNode (id : NodeId) (change : Node → Node) : Edit κ Unit := do
  let node ← ask fun program => program.node id
  modify fun draft => { draft with program := draft.program.setNode id (change node) }

/-- Overwrites a node. -/
def setNode (id : NodeId) (node : Node) : Edit κ Unit :=
  modify fun draft => { draft with program := draft.program.setNode id node }

/-- Notes that the program is not what it was. -/
def markChanged : Edit κ Unit :=
  modify fun draft => { draft with changed := true }

/-- A new read of a variable. -/
def readOf (id : VarId) : Edit κ NodeId :=
  create fun program => program.addNode (.variable id)

/-- Puts the computation of an expression into a new temporary in front of the current statement. -/
def materialize (id : NodeId) : Edit κ VarId := do
  let ty ← ask fun program => program.typeOf id
  let temporary ← create fun program => program.addTemporary ty
  let assignment ← create fun program => program.addAssignment temporary id
  modify fun draft => { draft with pending := draft.pending ++ [assignment], changed := true }
  return temporary

/-- Takes the statements that wait to be inserted. -/
def takePending : Edit κ (List NodeId) :=
  modifyGet fun draft => (draft.pending, { draft with pending := [] })

/-! ### Nodes and statements -/

/-- Edits the children of a node one after the other, and then writes all of them back. -/
def editChildren (edit : NodeId → Edit κ NodeId) (id : NodeId) : Edit κ Unit := do
  let node ← ask fun program => program.node id
  let children ← node.children.mapM edit
  changeNode id fun node => node.refill children

/-- Edits the indices inside an lvalue that may still nest `budget` levels, outermost index first;
`edit` edits an expression within a smaller budget. -/
def editPlace (limit : Nat) (edit : Nat → NodeId → Edit κ NodeId) : (budget : Nat) → NodeId →
    Edit κ Unit
  | 0, _ => throw (.tooDeep limit)
  | budget + 1, id => do
    match ← ask fun program => program.node id with
    | .index base place => do
      let place ← edit budget place
      changeNode id fun node => node.withPlace place
      editPlace limit edit budget base
    | .field record _ => editPlace limit edit budget record
    | _ => pure ()

/-- How a pass edits the parts of a statement. -/
structure Rules (κ : Type) where
  /-- The value of an assignment. -/
  value : NodeId → Edit κ NodeId
  /-- The place that an assignment writes to. -/
  target : NodeId → Edit κ Unit
  /-- Any other operand. -/
  operand : NodeId → Edit κ NodeId
  /-- Any other place. -/
  place : NodeId → Edit κ Unit

/-- Edits the arguments of a call up to its last parameter. -/
def editArguments (rules : Rules κ) : List Param → List NodeId → Edit κ (List NodeId)
  | param :: params, argument :: arguments => do
    let argument ← if param.mode = .input then rules.operand argument
      else do
        rules.place argument
        pure argument
    return argument :: (← editArguments rules params arguments)
  | _, arguments => return arguments

/-- Edits a call. -/
def editCall (rules : Rules κ) (id : NodeId) (callee : SignatureId) (arguments : List NodeId)
    (result : Option NodeId) : Edit κ Unit := do
  let signature ← ask fun program => program.signature callee
  let arguments ← editArguments rules signature.params arguments
  result.toList.forM rules.place
  setNode id (.call callee arguments result)

/-- Edits a statement, but not the lists that it owns. -/
def editStatement (rules : Rules κ) (id : NodeId) : Edit κ Unit := do
  match ← ask fun program => program.node id with
  | .assign target value mask => do
    let value ← rules.value value
    rules.target target
    setNode id (.assign target value mask)
  | .call callee arguments result => editCall rules id callee arguments result
  | .branch condition _ _ => do
    let condition ← rules.operand condition
    changeNode id fun node => node.withCondition condition
  | .ret (some operand) | .discard (some operand) => do
    let operand ← rules.operand operand
    changeNode id fun node => node.withOperand operand
  | _ => pure ()

end Edit

end ShaderIR
