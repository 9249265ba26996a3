import ShaderIR.Graph.Range
import ShaderIR.Pass.Config

/-!
Value numbers. Within one basic block, computations that must give the same value get the same
number: a `Key` says what a computation is made of, and equal keys share a number. The value of a
node is usually one number; a variable whose latest writes covered only parts of it reads as its
last full value with the later writes on top. A `Numbering` is what is known of a block in the end.
-/

set_option autoImplicit false

namespace ShaderIR

/-- The identity of a value within one basic block. -/
structure ValueNumber where
  index : Nat
deriving DecidableEq, Repr, Inhabited

instance : ToString ValueNumber :=
  ⟨fun number => "#" ++ toString number.index⟩

/-- The numbers that a value is made of, oldest first. -/
abbrev Value :=
  List ValueNumber

/-- What determines the value of a texture operation. -/
@[ext] structure TextureKey where
  op : TextureOp
  channel : Option UInt8
  /-- Which operands there are, so that operands of different meanings are not mixed up. -/
  shape : UInt8
  /-- The values of all operands, in canonical order. -/
  operands : List Value
deriving DecidableEq, Repr

/-- What determines the value of a computation; types follow from the rest. -/
inductive Key
  | constant (value : Constant)
  | index (base place : Value)
  | field (record : Value) (number : Nat)
  | swizzle (value : Value) (mask : Swizzle)
  | apply (op : Operator) (operands : List Value)
  | texture (key : TextureKey)
  | call (callee : SignatureId) (arguments : List Value)
deriving DecidableEq, Repr

/-- What is known of a block. -/
structure Numbering where
  /-- The values of the nodes, the most recent entry first. -/
  values : List (NodeId × Value) := []
  /-- Numbers that were stored by, or stand for, a write to a part of a variable. -/
  partials : List ValueNumber := []
  /-- Nodes that may be shared, in program order. -/
  occurrences : List (NodeId × ValueNumber) := []
  /-- How many numbers were handed out. -/
  allocated : Nat := 0
  /-- Set when a node was not what its place demands; nothing in the block may be trusted then. -/
  poisoned : Bool := false
deriving DecidableEq, Repr, Inhabited

namespace Numbering

/-- The value of a node. -/
def value? (numbering : Numbering) (id : NodeId) : Option Value :=
  numbering.values.lookup id

/-- The number of a node whose value is a single number. -/
def number? (numbering : Numbering) (id : NodeId) : Option ValueNumber :=
  match numbering.value? id with
  | some [number] => some number
  | _ => none

/-- Whether a number has to do with a write to a part of a variable. -/
def isPartial (numbering : Numbering) (number : ValueNumber) : Bool :=
  numbering.partials.contains number

/-- How often a number occurs among the nodes that may be shared; tainted numbers do not count. -/
def redundancy (numbering : Numbering) (number : ValueNumber) : Nat :=
  if numbering.isPartial number then 0
  else numbering.occurrences.countP fun occurrence => occurrence.2 == number

/-- The occurrences of numbers that are computed more than once. -/
def repeated (numbering : Numbering) : List (NodeId × ValueNumber) :=
  numbering.occurrences.filter fun occurrence => 1 < numbering.redundancy occurrence.2

end Numbering

end ShaderIR
