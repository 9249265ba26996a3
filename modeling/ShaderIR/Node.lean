import ShaderIR.Constant
import ShaderIR.Id
import ShaderIR.Operator
import ShaderIR.Swizzle
import ShaderIR.Texture

/-!
Nodes of a program. A node refers to its operands and statements by id. `Node.children` lists the
nodes that it refers to directly, in evaluation order and without statement lists;
`Node.mapChildrenM` replaces them in the same order, and `Node.refill` writes a list of ids into
their places.
-/

set_option autoImplicit false

namespace ShaderIR

/-- An expression or a statement. -/
inductive Node
  | constant (value : Constant)
  /-- A read of a variable, or the variable itself on the left of an assignment. -/
  | variable (id : VarId)
  /-- An element of an array, or a lane of a vector. -/
  | index (base place : NodeId)
  /-- A field of a record, by its number. -/
  | field (record : NodeId) (number : Nat)
  | apply (op : Operator) (operands : List NodeId) (ty : Ty)
  | texture (op : TextureOp) (channel : Option UInt8) (operands : TextureOperands NodeId) (ty : Ty)
  | swizzle (value : NodeId) (mask : Swizzle)
  /-- A call, with the place that receives the returned value if it is used. -/
  | call (callee : SignatureId) (arguments : List NodeId) (result : Option NodeId)
  /-- A write of `value` to the masked lanes of `target`; the mask `0` means all of it. -/
  | assign (target value : NodeId) (mask : UInt8)
  | branch (condition : NodeId) (thenBody elseBody : List NodeId)
  | loop (body : List NodeId)
  | ret (value : Option NodeId)
  | discard (condition : Option NodeId)
deriving DecidableEq, Repr, Inhabited

/-- The kind of a node. -/
inductive NodeKind
  | constant
  | variable
  | deref
  | expression
  | texture
  | swizzle
  | call
  | assign
  | branch
  | loop
  | ret
  | discard
deriving DecidableEq, Repr, Inhabited

namespace NodeKind

/-- The name of a kind. -/
def name : NodeKind → String
  | .constant => "Constant"
  | .variable => "Variable"
  | .deref => "Deref"
  | .expression => "Expression"
  | .texture => "Texture"
  | .swizzle => "Swizzle"
  | .call => "Call"
  | .assign => "Assign"
  | .branch => "If"
  | .loop => "Loop"
  | .ret => "Return"
  | .discard => "Discard"

/-- Every kind. -/
def all : List NodeKind :=
  [.constant, .variable, .deref, .expression, .texture, .swizzle, .call, .assign, .branch, .loop,
    .ret, .discard]

end NodeKind

namespace Node

/-- The kind of a node; indices and fields are both dereferences. -/
def kind : Node → NodeKind
  | .constant .. => .constant
  | .variable .. => .variable
  | .index .. | .field .. => .deref
  | .apply .. => .expression
  | .texture .. => .texture
  | .swizzle .. => .swizzle
  | .call .. => .call
  | .assign .. => .assign
  | .branch .. => .branch
  | .loop .. => .loop
  | .ret .. => .ret
  | .discard .. => .discard

/-- Whether a node belongs into a statement list and nowhere else. -/
def isStatement : Node → Bool
  | .call .. | .assign .. | .branch .. | .loop .. | .ret .. | .discard .. => true
  | _ => false

/-! ### Children -/

/-- The nodes that a node refers to directly, in evaluation order. -/
def children : Node → List NodeId
  | .constant .. | .variable .. | .loop .. => []
  | .index base place => [base, place]
  | .field record _ => [record]
  | .apply _ operands _ => operands
  | .texture _ _ operands _ => operands.toList
  | .swizzle value _ => [value]
  | .call _ arguments result => arguments ++ result.toList
  | .assign target value _ => [value, target]
  | .branch condition _ _ => [condition]
  | .ret value => value.toList
  | .discard condition => condition.toList

/-- Replaces the children one after the other, in evaluation order. -/
def mapChildrenM {m : Type → Type} [Monad m] (f : NodeId → m NodeId) : Node → m Node
  | .constant value => return .constant value
  | .variable id => return .variable id
  | .index base place => return .index (← f base) (← f place)
  | .field record number => return .field (← f record) number
  | .apply op operands ty => return .apply op (← operands.mapM f) ty
  | .texture op channel operands ty => return .texture op channel (← operands.mapM f) ty
  | .swizzle value mask => return .swizzle (← f value) mask
  | .call callee arguments result =>
    return .call callee (← arguments.mapM f) (← mapPresent f result)
  | .assign target value mask => do
    let value ← f value
    let target ← f target
    return .assign target value mask
  | .branch condition thenBody elseBody => return .branch (← f condition) thenBody elseBody
  | .loop body => return .loop body
  | .ret value => return .ret (← mapPresent f value)
  | .discard condition => return .discard (← mapPresent f condition)

/-- Takes the next id of a list, or keeps the old one when the list has run out. -/
def takeNext (old : NodeId) : StateM (List NodeId) NodeId := do
  match ← get with
  | [] => return old
  | next :: rest => set rest; return next

/-- Writes ids into the places of the children, in evaluation order. -/
def refill (node : Node) (ids : List NodeId) : Node :=
  (node.mapChildrenM takeNext |>.run ids).1

/-- Adds a place to those seen so far and leaves it as it is. -/
def noteSlot (slot : NodeId) : StateM (List NodeId) NodeId := do
  modify (· ++ [slot])
  return slot

/-- The ids in the places that `refill` writes to. -/
def slots (node : Node) : List NodeId :=
  (node.mapChildrenM noteSlot |>.run []).2

/-- The statement lists that a node owns. -/
def lists (node : Node) (id : NodeId) : List ListRef :=
  match node with
  | .branch .. => [.thenBody id, .elseBody id]
  | .loop .. => [.loopBody id]
  | _ => []

/-- Whether a node computes one value from several operands. -/
def isCompound : Node → Bool
  | .apply _ operands _ => 1 < operands.length
  | _ => false

/-! ### Single replacements -/

/-- Replaces the place that an index node selects. -/
def withPlace (node : Node) (place : NodeId) : Node :=
  match node with
  | .index base _ => .index base place
  | other => other

/-- Replaces the condition of a conditional. -/
def withCondition (node : Node) (condition : NodeId) : Node :=
  match node with
  | .branch _ thenBody elseBody => .branch condition thenBody elseBody
  | other => other

/-- Replaces the operand of a return or discard that has one. -/
def withOperand (node : Node) (operand : NodeId) : Node :=
  match node with
  | .ret (some _) => .ret (some operand)
  | .discard (some _) => .discard (some operand)
  | other => other

end Node

end ShaderIR
