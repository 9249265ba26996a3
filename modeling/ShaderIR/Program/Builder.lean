import ShaderIR.Program.Typing

/-!
Building programs by hand. Each function adds the nodes of one construct, the inner ones first, and
finds the type of an expression from the types of its operands.
-/

set_option autoImplicit false

namespace ShaderIR.Program

/-- The type of an operator that is applied to operands of two types: the one with more lanes. -/
def binaryTy (op : Operator) (left right : Ty) : Except Crash Ty :=
  let wide := if left.lanes < right.lanes then right else left
  if op.isComparison then Ty.vectorOf .bool (max wide.lanes 1)
  else if op = .dot then Ty.vectorOf (wide.scalar?.getD .float) 1
  else .ok wide

/-- An operator applied to one operand, which lends the expression its type. -/
def unary (program : Program) (op : Operator) (operand : NodeId) :
    Except Crash (NodeId × Program) := do
  let ty ← program.typeOf operand
  program.addNode (.apply op [operand] ty)

/-- An operator applied to two operands. -/
def binary (program : Program) (op : Operator) (left right : NodeId) :
    Except Crash (NodeId × Program) := do
  let leftTy ← program.typeOf left
  let rightTy ← program.typeOf right
  let ty ← binaryTy op leftTy rightTy
  program.addNode (.apply op [left, right] ty)

/-- An operator applied to three operands; a selection has the type of what it selects. -/
def ternary (program : Program) (op : Operator) (first second third : NodeId) :
    Except Crash (NodeId × Program) := do
  let ty ← program.typeOf (if op = .select then second else first)
  program.addNode (.apply op [first, second, third] ty)

/-- A swizzle by its letters. -/
def swizzled (program : Program) (value : NodeId) (letters : String) :
    Except Crash (NodeId × Program) :=
  match Swizzle.parse? letters with
  | some mask => program.addNode (.swizzle value mask)
  | none => .error .invalidSwizzle

/-- A filtered sample of a sampler variable, of four lanes. -/
def sample (program : Program) (sampler : VarId) (coordinate : NodeId) :
    Except Crash (NodeId × Program) := do
  let (sampler, program) ← program.addNode (.variable sampler)
  program.addNode (.texture .sample none { sampler, coordinate := some coordinate } .vec4)

/-- A sample of a sampler variable at an explicit level of detail, of four lanes. -/
def sampleLevel (program : Program) (sampler : VarId) (coordinate level : NodeId) :
    Except Crash (NodeId × Program) := do
  let (sampler, program) ← program.addNode (.variable sampler)
  program.addNode (.texture .sampleLevel none
    { sampler, coordinate := some coordinate, lod := .level level } .vec4)

/-- An assignment to the lanes of a variable that the letters name. -/
def assignMasked (program : Program) (target : VarId) (letters : String) (value : NodeId) :
    Except Crash (NodeId × Program) :=
  match Swizzle.parse? letters with
  | some mask => do
    let (place, program) ← program.addNode (.variable target)
    program.addNode (.assign place value mask.writeMask)
  | none => .error .invalidWriteMask

/-- A call whose returned value goes into a variable, if one is given. -/
def addCall (program : Program) (callee : SignatureId) (arguments : List NodeId)
    (result : Option VarId) : Except Crash (NodeId × Program) :=
  match result with
  | none => program.addNode (.call callee arguments none)
  | some target => do
    let (place, program) ← program.addNode (.variable target)
    program.addNode (.call callee arguments (some place))

end ShaderIR.Program
