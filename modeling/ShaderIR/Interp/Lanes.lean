import ShaderIR.Node

/-!
Values at run time. A value is a flat list of 64-bit lanes whatever its type; a value of one lane
stands for as many equal lanes as are asked of it. `Operator.apply` computes operators lane by lane,
and `Lanes.write` stores a value into some of the lanes of a slot.
-/

set_option autoImplicit false

namespace ShaderIR

/-! ### Lanes -/

/-- A lane, by its bits, which also tell apart what is no number. -/
structure Lane where
  bits : UInt64
deriving DecidableEq, Repr, Inhabited

namespace Lane

/-- The number in a lane. -/
def number (lane : Lane) : Float :=
  Float.ofBits lane.bits

/-- A lane with a number in it. -/
def ofNumber (number : Float) : Lane :=
  ⟨number.toBits⟩

instance (number : Nat) : OfNat Lane number :=
  ⟨ofNumber (Float.ofNat number)⟩

instance : OfScientific Lane :=
  ⟨fun mantissa negative exponent =>
    ofNumber (OfScientific.ofScientific mantissa negative exponent)⟩

/-- Whether a lane holds no number. -/
def isNaN (lane : Lane) : Bool :=
  lane.number.isNaN

/-- A lane without a number, with its quiet bit set. -/
def quiet (lane : Lane) : Lane :=
  ⟨lane.bits ||| 0x0008000000000000⟩

/-- What an operation on numbers gives if its result is no number. -/
def invalid : Lane :=
  ⟨0xfff8000000000000⟩

/-- The lane of an arithmetic result. Which bits it has if it is no number is up to the machine;
most machines repeat the first operand that is none. -/
def ofArithmetic (operands : List Lane) (result : Float) : Lane :=
  if result.isNaN then (operands.find? isNaN).elim invalid quiet else ofNumber result

/-- An arithmetic operation on one number. -/
def map (operation : Float → Float) (operand : Lane) : Lane :=
  ofArithmetic [operand] (operation operand.number)

/-- An arithmetic operation on two numbers. -/
def map₂ (operation : Float → Float → Float) (left right : Lane) : Lane :=
  ofArithmetic [left, right] (operation left.number right.number)

/-- The other sign. -/
def neg (lane : Lane) : Lane :=
  ⟨lane.bits ^^^ 0x8000000000000000⟩

/-- Without the sign. -/
def abs (lane : Lane) : Lane :=
  ⟨lane.bits &&& 0x7fffffffffffffff⟩

/-- A truth value as a lane. -/
def truth (value : Bool) : Lane :=
  if value then 1 else 0

/-- Whether a lane stands for a true condition. -/
def isTrue (lane : Lane) : Bool :=
  lane.number != 0

/-- The smaller of two numbers, or the only one of them that is a number. -/
def min (left right : Lane) : Lane :=
  if left.isNaN then right
  else if right.isNaN then left
  else if left.number < right.number then left else right

/-- The larger of two numbers, or the only one of them that is a number. -/
def max (left right : Lane) : Lane :=
  if left.isNaN then right
  else if right.isNaN then left
  else if right.number < left.number then left else right

/-- The nearest number between zero and one; what is no number stays as it is. -/
def saturate (lane : Lane) : Lane :=
  if lane.number < 0 then 0 else if 1 < lane.number then 1 else lane

end Lane

/-- The value of a literal. -/
def Literal.lane : Literal → Lane
  | .float bits => ⟨Binary32.widen bits⟩
  | .int value => .ofNumber (Float.ofInt value.toInt)
  | .uint value => .ofNumber (Float.ofNat value.toNat)
  | .bool value => .truth value

/-! ### Values -/

/-- A flat run-time value. -/
abbrev Lanes :=
  List Lane

namespace Lanes

/-- A lane of a value; a single lane is used everywhere, and missing lanes are zero. -/
def lane (lanes : Lanes) (place : Nat) : Lane :=
  match lanes with
  | [single] => single
  | several => several.getD place 0

/-- A value cut or filled up with zeros to a given length. -/
def resize (lanes : Lanes) (length : Nat) : Lanes :=
  lanes.take length ++ List.replicate (length - lanes.length) 0

/-- Whether a write under a mask covers a lane; the mask `0` covers all of them. -/
def covers (mask : UInt8) (place : Nat) : Bool :=
  mask == 0 || mask &&& 1 <<< UInt8.ofNat place != 0

/-- The lane that goes to a covered place, the `next`-th one, of `length` lanes: a value of just
that length lends each place its own lane, any other value its lanes in order. -/
def source (value : Lanes) (length place next : Nat) : Lane :=
  if value.length = length then value.getD place 0 else value.lane next

/-- The position so many lanes behind an offset, counted in 64 bits. -/
def position (offset place : Nat) : Nat :=
  (offset + place) % UInt64.size

/-- Stores a value into the covered lanes among the `length` lanes that start at `offset`. A lane
with a position past the end of the slot is lost. -/
def write (slot : Lanes) (offset length : Nat) (mask : UInt8) (value : Lanes) : Lanes :=
  ((List.range length).filter (covers mask)).zipIdx.foldl
    (fun slot covered => slot.set (position offset covered.1)
      (value.source length covered.1 covered.2)) slot

@[simp] theorem length_write (slot : Lanes) (offset length : Nat) (mask : UInt8) (value : Lanes) :
    (slot.write offset length mask value).length = slot.length := by
  unfold write
  generalize ((List.range length).filter (covers mask)).zipIdx = covered
  induction covered generalizing slot with
  | nil => rfl
  | cons first rest ih => simp only [List.foldl_cons, ih, List.length_set]

/-- The number of lanes of the widest value. -/
def widest (values : List Lanes) : Nat :=
  values.foldl (fun widest value => max widest value.length) 0

end Lanes

/-! ### Operators -/

namespace Operator

/-- One lane of the result, from the same lane of each operand; `dot` has no such rule. -/
def applyLane (op : Operator) (first second third : Lane) : Lane :=
  match op with
  | .neg => first.neg
  | .not => .truth (first.number == 0)
  | .abs => first.abs
  | .sqrt => first.map .sqrt
  | .rsq => (first.map .sqrt).map (1 / ·)
  | .rcp => first.map (1 / ·)
  | .floor => first.map .floor
  | .fract => first.map₂ (· - ·) (first.map .floor)
  | .saturate => first.saturate
  | .sin => first.map .sin
  | .cos => first.map .cos
  | .exp2 => first.map .exp2
  | .log2 => first.map .log2
  | .add => first.map₂ (· + ·) second
  | .sub => first.map₂ (· - ·) second
  | .mul | .dot => first.map₂ (· * ·) second
  | .div => first.map₂ (· / ·) second
  | .min => first.min second
  | .max => first.max second
  | .pow => first.map₂ .pow second
  | .lt => .truth (first.number < second.number)
  | .gt => .truth (second.number < first.number)
  | .le => .truth (first.number ≤ second.number)
  | .ge => .truth (second.number ≤ first.number)
  | .eq => .truth (first.number == second.number)
  | .ne => .truth (first.number != second.number)
  | .and => .truth (first.isTrue && second.isTrue)
  | .or => .truth (first.isTrue || second.isTrue)
  | .lerp => first.map₂ (· + ·) ((second.map₂ (· - ·) first).map₂ (· * ·) third)
  | .clamp => (first.max second).min third
  | .select => if first.isTrue then second else third

/-- An operator applied to values: lane by lane up to the widest operand, and for `dot` the sum of
the products of the lanes. -/
def apply (op : Operator) (operands : List Lanes) : Lanes :=
  let results := (List.range (Lanes.widest operands)).map fun place =>
    op.applyLane ((operands.getD 0 []).lane place) ((operands.getD 1 []).lane place)
      ((operands.getD 2 []).lane place)
  if op = .dot then [results.foldl (Lane.map₂ (· + ·)) (.neg 0)] else results

end Operator

end ShaderIR
