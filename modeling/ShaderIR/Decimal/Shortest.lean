/-!
The shortest decimal that reads back as a given binary number. A binary number stands for every real
number that rounds to it, which `Decimal.Span` describes; `Span.shortest` is a point of that span on
the coarsest grid of powers of ten that meets it, and of two such points the nearer one. `layout`
writes a decimal positionally, and `layoutScientific` with an exponent.
-/

set_option autoImplicit false

namespace ShaderIR

/-- A decimal number `digits * 10 ^ exponent`. -/
structure Decimal where
  digits : Nat
  exponent : Int
deriving DecidableEq, Repr

namespace Decimal

/-- The real numbers that round to one positive binary number, in units of `2 ^ -scale`. -/
structure Span where
  /-- Where the span begins. -/
  low : Nat
  /-- The binary number itself. -/
  value : Nat
  /-- Where the span ends. -/
  high : Nat
  /-- How many binary places the units have. -/
  scale : Nat
  /-- Whether the two ends round to the number as well. -/
  closed : Bool
deriving DecidableEq, Repr

namespace Span

/-- Whether a number, given in the units of a span times `factor`, rounds to the span's number. -/
def holds (span : Span) (factor number : Nat) : Bool :=
  if span.closed then span.low * factor ≤ number && number ≤ span.high * factor
  else span.low * factor < number && number < span.high * factor

/-- The multiple of `10 ^ exponent` in the span that is nearest to its number, upwards in a tie. -/
def nearest? (span : Span) (exponent : Int) : Option Nat :=
  let factor := Nat.pow 10 (-exponent).toNat
  let step := Nat.pow 10 exponent.toNat <<< span.scale
  let below := span.value * factor / step
  match span.holds factor (below * step), span.holds factor ((below + 1) * step) with
  | true, true =>
    some (if 2 * (span.value * factor) < (2 * below + 1) * step then below else below + 1)
  | true, false => some below
  | false, true => some (below + 1)
  | false, false => none

/-- The first grid that meets the span, going down from `10 ^ exponent` for so many grids. -/
def coarsest (span : Span) : (grids : Nat) → (exponent : Int) → Decimal
  | 0, exponent => ⟨span.value, exponent⟩
  | grids + 1, exponent =>
    match span.nearest? exponent with
    | some digits => ⟨digits, exponent⟩
    | none => span.coarsest grids (exponent - 1)

/-- The shortest decimal in the span; the grid of `10 ^ -scale` holds its number exactly. -/
def shortest (span : Span) : Decimal :=
  let places := (Nat.toDigits 10 (span.value >>> span.scale)).length
  span.coarsest (places + span.scale + 1) places

end Span

/-! ### Text -/

/-- A run of zeros. -/
def zeros (count : Nat) : String :=
  String.ofList (List.replicate count '0')

/-- The digits of a decimal, most significant first. -/
def chars (decimal : Decimal) : List Char :=
  Nat.toDigits 10 decimal.digits

/-- How many digits stand before the decimal point, negative if zeros follow it first. -/
def point (decimal : Decimal) : Int :=
  decimal.chars.length + decimal.exponent

/-- A decimal in positional notation, with at least one digit on each side of the point. -/
def layout (decimal : Decimal) : String :=
  let chars := decimal.chars
  let point := decimal.point
  if point ≤ 0 then "0." ++ zeros (-point).toNat ++ String.ofList chars
  else
    let whole := point.toNat
    if chars.length ≤ whole then String.ofList chars ++ zeros (whole - chars.length) ++ ".0"
    else String.ofList (chars.take whole) ++ "." ++ String.ofList (chars.drop whole)

/-- A decimal with one digit before the point and a power of ten after it. -/
def layoutScientific (decimal : Decimal) : String :=
  let power := "e" ++ toString (decimal.point - 1)
  match decimal.chars with
  | [] => "0" ++ power
  | [digit] => String.singleton digit ++ power
  | digit :: rest => String.singleton digit ++ "." ++ String.ofList rest ++ power

end Decimal

end ShaderIR
