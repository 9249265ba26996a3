import ShaderIR.Crash
import ShaderIR.Decimal.Shortest
import ShaderIR.Ty

/-!
Constants of a program: a type and one literal per lane. Floating-point literals are kept as their
32 bits, so two of them are equal exactly if they have the same bits: zeros of different signs
differ, and a NaN equals itself. Their text is the shortest decimal that reads back.
-/

set_option autoImplicit false

namespace ShaderIR

/-- One lane of a constant. -/
inductive Literal
  /-- A binary32 number, by its bits. -/
  | float (bits : UInt32)
  | int (value : Int32)
  | uint (value : UInt32)
  | bool (value : Bool)
deriving DecidableEq, Repr, Inhabited

/-! ### Text of binary32 numbers -/

namespace Binary32

/-- The span of a finite number other than zero, from its exponent and fraction fields. -/
def span (exponent fraction : Nat) : Decimal.Span :=
  let significand := if exponent = 0 then fraction else fraction + 1 <<< 23
  let power := max exponent 1
  let gapBelow := if fraction = 0 ∧ 1 < exponent then 1 else 2
  let unit := 1 <<< (power - 152)
  { low := (4 * significand - gapBelow) * unit
    value := 4 * significand * unit
    high := (4 * significand + 2) * unit
    scale := 152 - power
    closed := significand % 2 = 0 }

/-- Numbers from `1e-4` up to `1e16` are written positionally and all others with an exponent. -/
def finiteText (decimal : Decimal) : String :=
  if -3 ≤ decimal.point ∧ decimal.point ≤ 16 then decimal.layout else decimal.layoutScientific

/-- The text of a number, which reads back as the same number. -/
def text (bits : UInt32) : String :=
  let exponent := (bits >>> 23).toNat % 256
  let fraction := bits.toNat % 0x800000
  let sign := if bits >>> 31 = 1 then "-" else ""
  if exponent = 255 then
    if fraction = 0 then sign ++ "inf" else "NaN"
  else if exponent = 0 ∧ fraction = 0 then sign ++ "0.0"
  else sign ++ finiteText (span exponent fraction).shortest

/-- The bits of the same number in binary64, which holds every binary32 number exactly. What is no
number keeps its fraction and becomes quiet. -/
def widen (bits : UInt32) : UInt64 :=
  let exponent := (bits >>> 23).toNat % 256
  let fraction := bits.toNat % 0x800000
  let sign := (bits >>> 31).toNat <<< 63
  let magnitude :=
    if exponent = 255 then
      2047 <<< 52 + (if fraction = 0 then 0 else (fraction ||| 0x400000) <<< 29)
    else if exponent = 0 then
      if fraction = 0 then 0
      else (874 + fraction.log2) <<< 52 + (fraction <<< (52 - fraction.log2) - 1 <<< 52)
    else (exponent + 896) <<< 52 + fraction <<< 29
  UInt64.ofNat (sign + magnitude)

end Binary32

namespace Literal

/-- What kind of lane a literal fills. -/
def scalar : Literal → Scalar
  | .float _ => .float
  | .int _ => .int
  | .uint _ => .uint
  | .bool _ => .bool

/-- The text of a literal. -/
def text : Literal → String
  | .float bits => Binary32.text bits
  | .int value => toString value.toInt
  | .uint value => toString value.toNat ++ "u"
  | .bool value => if value then "true" else "false"

end Literal

/-- A typed row of literals; nothing forces their number to fit the type. -/
structure Constant where
  ty : Ty
  lanes : List Literal
deriving DecidableEq, Repr, Inhabited

/-- A vector type, which has one to four lanes. -/
def Ty.vectorOf (scalar : Scalar) (lanes : UInt8) : Except Crash Ty :=
  if 1 ≤ lanes ∧ lanes ≤ 4 then .ok (.vector scalar lanes) else .error .laneCount

namespace Constant

/-- A single floating-point number. -/
def float (bits : UInt32) : Constant :=
  ⟨.float, [.float bits]⟩

/-- A single signed integer. -/
def int (value : Int32) : Constant :=
  ⟨.int, [.int value]⟩

/-- A single truth value. -/
def bool (value : Bool) : Constant :=
  ⟨.bool, [.bool value]⟩

/-- A floating-point vector; its lanes are counted in eight bits. -/
def vector (lanes : List UInt32) : Except Crash Constant := do
  let ty ← Ty.vectorOf .float (UInt8.ofNat lanes.length)
  return ⟨ty, lanes.map .float⟩

/-- The literal itself if there is only one, otherwise the type around all literals. -/
def text (constant : Constant) : String :=
  match constant.lanes with
  | [single] => single.text
  | lanes => constant.ty.text ++ "(" ++ ", ".intercalate (lanes.map Literal.text) ++ ")"

end Constant

end ShaderIR
