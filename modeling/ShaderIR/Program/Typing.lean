import ShaderIR.Program.Basic

/-!
Types of nodes, and the variables that dereference chains are rooted at. Both follow a chain of
references, which ends in a program without cycles after at most `Program.chainBound` steps; a
longer chain has met some node twice and never ends.
-/

set_option autoImplicit false

namespace ShaderIR.Program

/-- Follows indices, fields and swizzles for at most so many steps. -/
def rootWithin (program : Program) : (steps : Nat) → NodeId → Except Crash (Option VarId)
  | 0, _ => .error .endless
  | steps + 1, id => do
    match ← program.node id with
    | .variable root => return some root
    | .index inner _ | .field inner _ | .swizzle inner _ => program.rootWithin steps inner
    | _ => return none

/-- The variable that an lvalue or a chain of dereferences is rooted at. -/
def rootVariable (program : Program) (id : NodeId) : Except Crash (Option VarId) :=
  program.rootWithin program.chainBound id

/-- Finds the type of a node by following operands for at most so many steps. -/
def typeWithin (program : Program) : (steps : Nat) → NodeId → Except Crash Ty
  | 0, _ => .error .endless
  | steps + 1, id => do
    match ← program.node id with
    | .constant value => return value.ty
    | .variable read => return (← program.variableOf read).ty
    | .index base _ => do
      match (← program.typeWithin steps base).element? with
      | some element => return element
      | none => throw .notIndexable
    | .field record number => do
      match (← program.typeWithin steps record).field? number with
      | some (_, ty) => return ty
      | none => throw .noSuchField
    | .apply _ _ ty => return ty
    | .texture _ _ _ ty => return ty
    | .swizzle value mask => do
      match (← program.typeWithin steps value).scalar? with
      | some scalar => Ty.vectorOf scalar (UInt8.ofNat mask.length)
      | none => throw .notAVector
    | .call callee _ _ => return (← program.signature callee).returnTy
    | .assign .. | .branch .. | .loop .. | .ret .. | .discard .. => return .void

/-- The type of a node; statements other than calls are `void`. -/
def typeOf (program : Program) (id : NodeId) : Except Crash Ty :=
  program.typeWithin program.chainBound id

/-- Whether an assignment to `target` under a mask writes only a part of the variable behind it. -/
def isPartialWrite (program : Program) (target : NodeId) (mask : UInt8) : Except Crash Bool := do
  match ← program.node target with
  | .variable written =>
    let full := (← program.variableOf written).ty.fullMask
    return mask != 0 && mask != full
  | _ => return true

end ShaderIR.Program
