import ShaderIR.Program.Printer

/-!
The structural check that every pass must keep satisfied. `Program.check` walks the statement lists
from the root and claims every node on its way, so that a node with two parents is found; it stops
at the first `Violation`. Looking at operands that have not been claimed yet can also crash, which
rejects the program as well.
-/

set_option autoImplicit false

namespace ShaderIR

/-- What is wrong with a program. -/
inductive Violation
  | outOfRange (id : NodeId)
  | sharedNode (id : NodeId)
  | notAStatement (id : NodeId) (text : String)
  | targetNotAPlace (id : NodeId)
  | maskTooWide (id : NodeId)
  | unknownSignature (id : SignatureId)
  | argumentCount (callee : String)
  | argumentNotAPlace (id : NodeId)
  | resultNotAPlace (id : NodeId)
  | nothingReturned (callee : String)
  | conditionNotBool (id : NodeId)
  | statementAsOperand (id : NodeId)
  | unknownVariable (id : VarId)
  | operandCount (op : Operator) (id : NodeId)
deriving DecidableEq, Repr

/-- The wording of a violation. -/
def Violation.message : Violation → String
  | .outOfRange id => toString id ++ " is out of range"
  | .sharedNode id => toString id ++ " has more than one parent"
  | .notAStatement id text => toString id ++ " (" ++ text ++ ") is not a statement"
  | .targetNotAPlace id => "lhs of " ++ toString id ++ " is not an lvalue"
  | .maskTooWide id => "write mask of " ++ toString id ++ " is wider than its lhs"
  | .unknownSignature id => toString id ++ " is out of range"
  | .argumentCount callee => "call to `" ++ callee ++ "` has the wrong number of arguments"
  | .argumentNotAPlace id => "`out` argument " ++ toString id ++ " is not an lvalue"
  | .resultNotAPlace id => "call result " ++ toString id ++ " is not an lvalue"
  | .nothingReturned callee => "call to `" ++ callee ++ "` has no result"
  | .conditionNotBool id => "condition of " ++ toString id ++ " is not a bool"
  | .statementAsOperand id => "statement " ++ toString id ++ " used as an expression"
  | .unknownVariable id => toString id ++ " is out of range"
  | .operandCount op id =>
    op.name ++ " at " ++ toString id ++ " has the wrong number of operands"

/-- Why the check refused a program. -/
inductive Rejection
  | broken (violation : Violation)
  | crash (cause : Crash)
deriving DecidableEq, Repr

/-- The wording of a rejection. -/
def Rejection.message : Rejection → String
  | .broken violation => violation.message
  | .crash cause => cause.message

/-- A part of the check, which knows the nodes claimed so far. -/
abbrev Checker :=
  StateT (List NodeId) (Except Rejection)

namespace Checker

/-- Asks for something that may crash. -/
def ask {α : Type} (request : Except Crash α) : Checker α :=
  match request with
  | .ok answer => return answer
  | .error cause => throw (.crash cause)

/-- Stops with a violation unless a condition holds. -/
def require (condition : Bool) (violation : Violation) : Checker Unit :=
  unless condition do throw (.broken violation)

end Checker

namespace Program

open Checker

/-- Follows indices and fields for at most so many steps to see whether they end at a variable. -/
def placeWithin (program : Program) : (steps : Nat) → NodeId → Except Crash Bool
  | 0, _ => .error .endless
  | steps + 1, id => do
    match ← program.node id with
    | .variable _ => return true
    | .index inner _ | .field inner _ => program.placeWithin steps inner
    | _ => return false

/-- Whether a node names a place that can be written: a variable, or a part of one. -/
def isPlace (program : Program) (id : NodeId) : Except Crash Bool :=
  program.placeWithin program.chainBound id

/-- Claims a node for its only parent. -/
def claim (program : Program) (id : NodeId) : Checker Unit := do
  require (id.index < program.nodes.size) (.outOfRange id)
  require (id ∉ (← get)) (.sharedNode id)
  modify (id :: ·)

/-- Checks an expression whose operands nest at most so deep. -/
def checkExpressionWithin (program : Program) : (steps : Nat) → NodeId → Checker Unit
  | 0, _ => throw (.crash .endless)
  | steps + 1, id => do
    program.claim id
    let node ← ask (program.node id)
    require (!node.isStatement) (.statementAsOperand id)
    match node with
    | .variable read => require (read.index < program.vars.size) (.unknownVariable read)
    | .apply op operands _ => require (op.arity == operands.length) (.operandCount op id)
    | _ => pure ()
    node.children.forM (program.checkExpressionWithin steps)

/-- Checks an expression and everything below it. -/
def checkExpression (program : Program) (id : NodeId) : Checker Unit :=
  program.checkExpressionWithin program.chainBound id

/-- Checks one argument of a call. -/
def checkArgument (program : Program) (param : Param) (argument : NodeId) : Checker Unit := do
  if param.mode.writes then
    require (← ask (program.isPlace argument)) (.argumentNotAPlace argument)
  program.checkExpression argument

/-- Checks a statement, but not the lists that it owns. -/
def checkStatement (program : Program) (id : NodeId) : Checker Unit := do
  match ← ask (program.node id) with
  | .assign target value mask => do
    require (← ask (program.isPlace target)) (.targetNotAPlace id)
    if mask ≠ 0 then
      let full := (← ask (program.typeOf target)).fullMask
      require (mask &&& ~~~full == 0) (.maskTooWide id)
    program.checkExpression value
    program.checkExpression target
  | .call callee arguments result => do
    require (callee.index < program.signatures.size) (.unknownSignature callee)
    let signature ← ask (program.signature callee)
    require (signature.params.length == arguments.length) (.argumentCount signature.name)
    (signature.params.zip arguments).forM fun (param, argument) =>
      program.checkArgument param argument
    match result with
    | some place => do
      require (← ask (program.isPlace place)) (.resultNotAPlace place)
      require (signature.returnTy != .void) (.nothingReturned signature.name)
      program.checkExpression place
    | none => pure ()
  | .branch condition _ _ => do
    let ty ← ask (program.typeOf condition)
    require (ty == .bool) (.conditionNotBool id)
    program.checkExpression condition
  | .ret operand | .discard operand => operand.toList.forM program.checkExpression
  | .loop _ => pure ()
  | _ => throw (.broken (.notAStatement id (← ask (program.nodeText id))))

/-- Checks a statement list whose statements nest at most so deep. -/
def checkListWithin (program : Program) : (steps : Nat) → ListRef → Checker Unit
  | 0, _ => throw (.crash .endless)
  | steps + 1, ref => do
    (← ask (program.list ref)).forM fun statement => do
      program.claim statement
      program.checkStatement statement
      (← ask (program.nestedLists statement)).forM (program.checkListWithin steps)

/-- Checks everything that the root list leads to. -/
def check (program : Program) : Except Rejection Unit :=
  (program.checkListWithin program.chainBound .root).run' []

end Program

end ShaderIR
