import ShaderIR.Numbering.Basic
import ShaderIR.Program.Typing

/-!
Numbering of the statements of one basic block, in program order. Expressions are numbered from
their operands up; assignments and calls change what the variables that they write to read as.
-/

set_option autoImplicit false

namespace ShaderIR

/-- The numbers of the computations so far, in a table for each kind of computation. -/
structure MemoTables where
  constants : List (Constant × ValueNumber) := []
  arrays : List ((Value × Value) × ValueNumber) := []
  records : List ((Value × Nat) × ValueNumber) := []
  swizzles : List ((Value × Swizzle) × ValueNumber) := []
  expressions : List ((Operator × List Value) × ValueNumber) := []
  textures : List (TextureKey × ValueNumber) := []
  calls : List ((SignatureId × List Value) × ValueNumber) := []

namespace MemoTables

/-- The number of a computation that has one. -/
def lookup (tables : MemoTables) : Key → Option ValueNumber
  | .constant value => tables.constants.lookup value
  | .index base place => tables.arrays.lookup (base, place)
  | .field record number => tables.records.lookup (record, number)
  | .swizzle value mask => tables.swizzles.lookup (value, mask)
  | .apply op operands => tables.expressions.lookup (op, operands)
  | .texture key => tables.textures.lookup key
  | .call callee arguments => tables.calls.lookup (callee, arguments)

/-- Notes the number of a computation. -/
def insert (tables : MemoTables) (number : ValueNumber) : Key → MemoTables
  | .constant value => { tables with constants := (value, number) :: tables.constants }
  | .index base place => { tables with arrays := ((base, place), number) :: tables.arrays }
  | .field record field => { tables with records := ((record, field), number) :: tables.records }
  | .swizzle value mask => { tables with swizzles := ((value, mask), number) :: tables.swizzles }
  | .apply op operands =>
    { tables with expressions := ((op, operands), number) :: tables.expressions }
  | .texture key => { tables with textures := (key, number) :: tables.textures }
  | .call callee arguments =>
    { tables with calls := ((callee, arguments), number) :: tables.calls }

end MemoTables

/-- What is known in the middle of a block. -/
structure Numberer where
  numbering : Numbering := {}
  tables : MemoTables := {}
  /-- The writes to each variable, oldest first; the most recent entry of a variable counts. -/
  histories : List (VarId × Value) := []

/-- Why numbering stopped. -/
inductive NumberingFault
  | tooDeep
  /-- A node that cannot stand where it does. -/
  | malformed (id : NodeId)
deriving DecidableEq, Repr

/-- A part of numbering a block. -/
abbrev NumberingWalk :=
  Walk NumberingFault Numberer

/-- Takes a step that may hand out numbers. Numbers are ids: a step that uses up the last one, which
allocators keep back, breaks off. -/
def NumberingWalk.handOut {α : Type} (step : Numberer → α × Numberer) : NumberingWalk α := do
  let (result, numberer) := step (← get)
  if IdAllocator.last < numberer.numbering.allocated then throwThe Crash .idsExhausted
  set numberer
  return result

/-! ### Numbers -/

namespace Numberer

/-- Hands out a new number. -/
def fresh (numberer : Numberer) : ValueNumber × Numberer :=
  (⟨numberer.numbering.allocated⟩,
    { numberer with numbering.allocated := numberer.numbering.allocated + 1 })

/-- The number of a computation, a new one if it is the first of its key. -/
def numberOf (numberer : Numberer) (key : Key) : ValueNumber × Numberer :=
  match numberer.tables.lookup key with
  | some number => (number, numberer)
  | none =>
    let (number, numberer) := numberer.fresh
    (number, { numberer with tables := numberer.tables.insert number key })

/-- Remembers the value of a node. -/
def setValue (numberer : Numberer) (id : NodeId) (value : Value) : Numberer :=
  { numberer with numbering.values := (id, value) :: numberer.numbering.values }

/-- Notes a node that may be shared. -/
def addOccurrence (numberer : Numberer) (id : NodeId) (number : ValueNumber) : Numberer :=
  { numberer with numbering.occurrences := numberer.numbering.occurrences ++ [(id, number)] }

/-! ### Variables -/

/-- The writes to a variable, which start with a number for what it held before the block. -/
def history (numberer : Numberer) (id : VarId) : Value × Numberer :=
  match numberer.histories.lookup id with
  | some (first :: rest) => (first :: rest, numberer)
  | _ =>
    let (number, numberer) := numberer.fresh
    ([number], { numberer with histories := (id, [number]) :: numberer.histories })

/-- The last full write in a history with all partial ones after it. -/
def latest (isPartial : ValueNumber → Bool) (history : Value) : Value :=
  history.drop (history.length - ((history.reverse.takeWhile isPartial).length + 1))

/-- What a variable reads as. -/
def read (numberer : Numberer) (id : VarId) : Value × Numberer :=
  let (history, numberer) := numberer.history id
  (latest numberer.numbering.isPartial history, numberer)

/-- Writes a whole variable. -/
def writeWhole (numberer : Numberer) (id : VarId) (value : Value) : Numberer :=
  let history := (numberer.histories.lookup id).getD []
  { numberer with histories := (id, history ++ value) :: numberer.histories }

/-- Writes a part of a variable. The stored numbers are tainted, and the write gets a number of its
own: which lanes it covered is not remembered, so no two partial writes may look alike. -/
def writePart (numberer : Numberer) (id : VarId) (value : Value) : Numberer :=
  let numberer := { numberer with numbering.partials := value ++ numberer.numbering.partials }
  let (history, numberer) := numberer.history id
  let (layer, numberer) := numberer.fresh
  { numberer with
    numbering.partials := layer :: numberer.numbering.partials
    histories := (id, history ++ [layer]) :: numberer.histories }

end Numberer

namespace Program

open NumberingWalk (handOut)

/-! ### Expressions -/

/-- Gives a node its number, and notes it if nodes of its kind may be shared. -/
def recordNumber (eligible : NodeKinds) (id : NodeId) (node : Node) (number : ValueNumber) :
    NumberingWalk Value := do
  if eligible.contains node.kind then modify fun numberer => numberer.addOccurrence id number
  modify fun numberer => numberer.setValue id [number]
  return [number]

/-- Numbers an expression whose operands may still nest `budget` levels, itself included. -/
def numberExpression (program : Program) (eligible : NodeKinds) : (budget : Nat) → NodeId →
    NumberingWalk Value
  | 0, _ => throw .tooDeep
  | budget + 1, id => do
    let node ← program.node id
    let finish (key : Key) : NumberingWalk Value := do
      let number ← handOut fun numberer => numberer.numberOf key
      recordNumber eligible id node number
    match node with
    | .constant value => finish (.constant value)
    | .variable read => do
      let value ← handOut fun numberer => numberer.read read
      modify fun numberer => numberer.setValue id value
      return value
    | .index base place => do
      let base ← program.numberExpression eligible budget base
      let place ← program.numberExpression eligible budget place
      finish (.index base place)
    | .field record number => do
      let record ← program.numberExpression eligible budget record
      finish (.field record number)
    | .swizzle value mask => do
      let value ← program.numberExpression eligible budget value
      finish (.swizzle value mask)
    | .apply op operands _ => do
      let operands ← operands.mapM (program.numberExpression eligible budget)
      finish (.apply op operands)
    | .texture op channel operands _ => do
      let values ← operands.toList.mapM (program.numberExpression eligible budget)
      finish (.texture ⟨op, channel, operands.packedShape, values⟩)
    | _ => throw (.malformed id)

/-- Numbers the indices inside an lvalue and returns the variable that it writes to. -/
def numberPlace (program : Program) (eligible : NodeKinds) : (budget : Nat) → NodeId →
    NumberingWalk VarId
  | 0, _ => throw .tooDeep
  | budget + 1, id => do
    match ← program.node id with
    | .variable written => return written
    | .index base place => do
      let _ ← program.numberExpression eligible budget place
      program.numberPlace eligible budget base
    | .field record _ => program.numberPlace eligible budget record
    | _ => throw (.malformed id)

/-- Writes a value through an lvalue. -/
def numberStore (program : Program) (config : Config) (target : NodeId) (mask : UInt8)
    (value : Value) : NumberingWalk Unit := do
  let written ← program.numberPlace config.eligible config.maxDepth target
  if ← program.isPartialWrite target mask then
    handOut fun numberer => ((), numberer.writePart written value)
  else modify fun numberer => numberer.writeWhole written value

/-! ### Statements -/

/-- Numbers a call that writes some of its arguments: these and the result become new values. -/
def numberEffectfulCall (program : Program) (config : Config) (id : NodeId)
    (passed : List (Param × NodeId)) (result : Option NodeId) : NumberingWalk Unit := do
  passed.forM fun (param, argument) => do
    if param.mode = .input then
      let _ ← program.numberExpression config.eligible config.maxDepth argument
  passed.forM fun (param, argument) => do
    if param.mode.writes then
      let number ← handOut Numberer.fresh
      program.numberStore config argument 0 [number]
  let number ← handOut Numberer.fresh
  modify fun numberer => numberer.setValue id [number]
  match result with
  | some target => do
    let number ← handOut Numberer.fresh
    program.numberStore config target 0 [number]
  | none => pure ()

/-- Numbers a call that leaves its arguments alone, which may be shared if its result is used. -/
def numberPureCall (program : Program) (config : Config) (id : NodeId) (node : Node)
    (callee : SignatureId) (arguments : List NodeId) (result : Option NodeId) :
    NumberingWalk Unit := do
  let values ← arguments.mapM (program.numberExpression config.eligible config.maxDepth)
  let number ← handOut fun numberer => numberer.numberOf (.call callee values)
  match result with
  | some target => do
    let _ ← recordNumber config.eligible id node number
    program.numberStore config target 0 [number]
  | none => modify fun numberer => numberer.setValue id [number]

/-- Numbers a statement, but not the lists that it owns. -/
def numberStatement (program : Program) (config : Config) (id : NodeId) : NumberingWalk Unit := do
  let expression (operand : NodeId) : NumberingWalk Unit := do
    let _ ← program.numberExpression config.eligible config.maxDepth operand
  match ← program.node id with
  | .assign target value mask => do
    let value ← program.numberExpression config.eligible config.maxDepth value
    program.numberStore config target mask value
  | .call callee arguments result => do
    let signature ← program.signature callee
    if signature.isPure then
      program.numberPureCall config id (.call callee arguments result) callee arguments result
    else program.numberEffectfulCall config id (signature.params.zip arguments) result
  | .branch condition _ _ => expression condition
  | .ret operand | .discard operand => operand.toList.forM expression
  | .loop _ => pure ()
  | _ => throw (.malformed id)

/-- Numbers the statements of one basic block. -/
def numberStatements (program : Program) (statements : List NodeId) (config : Config) :
    Query PassError Numbering := do
  let walk : NumberingWalk Unit := statements.forM (program.numberStatement config)
  let (outcome, numberer) ← walk.runFrom {}
  match outcome with
  | .ok () => return numberer.numbering
  | .error .tooDeep => throw (.tooDeep config.maxDepth)
  | .error (.malformed _) => return { numberer.numbering with poisoned := true }

end Program

end ShaderIR
