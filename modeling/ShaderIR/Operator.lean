/-!
Operators of expressions. Each has a name and a number of operands, and some binary ones have a
symbol that is written between their operands.
-/

set_option autoImplicit false

namespace ShaderIR

/-- What an expression computes from its operands, lane by lane except for `dot`. -/
inductive Operator
  | neg
  | not
  | abs
  | sqrt
  | rsq
  | rcp
  | floor
  | fract
  | saturate
  | sin
  | cos
  | exp2
  | log2
  | add
  | sub
  | mul
  | div
  | min
  | max
  | pow
  | dot
  | lt
  | gt
  | le
  | ge
  | eq
  | ne
  | and
  | or
  | lerp
  | clamp
  | select
deriving DecidableEq, Repr, Inhabited

namespace Operator

/-- The number of operands that an operator takes. -/
def arity : Operator → Nat
  | .neg | .not | .abs | .sqrt | .rsq | .rcp | .floor | .fract | .saturate | .sin | .cos | .exp2
  | .log2 => 1
  | .add | .sub | .mul | .div | .min | .max | .pow | .dot | .lt | .gt | .le | .ge | .eq | .ne | .and
  | .or => 2
  | .lerp | .clamp | .select => 3

/-- What is written between two operands, for operators that are written that way. -/
def symbol? : Operator → Option String
  | .add => some "+"
  | .sub => some "-"
  | .mul => some "*"
  | .div => some "/"
  | .lt => some "<"
  | .gt => some ">"
  | .le => some "<="
  | .ge => some ">="
  | .eq => some "=="
  | .ne => some "!="
  | .and => some "&&"
  | .or => some "||"
  | _ => none

/-- Whether an operator compares its operands, so that its lanes are truth values. -/
def isComparison : Operator → Bool
  | .lt | .gt | .le | .ge | .eq | .ne => true
  | _ => false

/-- The name of an operator. -/
def name : Operator → String
  | .neg => "neg"
  | .not => "not"
  | .abs => "abs"
  | .sqrt => "sqrt"
  | .rsq => "rsq"
  | .rcp => "rcp"
  | .floor => "floor"
  | .fract => "fract"
  | .saturate => "saturate"
  | .sin => "sin"
  | .cos => "cos"
  | .exp2 => "exp2"
  | .log2 => "log2"
  | .add => "add"
  | .sub => "sub"
  | .mul => "mul"
  | .div => "div"
  | .min => "min"
  | .max => "max"
  | .pow => "pow"
  | .dot => "dot"
  | .lt => "lt"
  | .gt => "gt"
  | .le => "le"
  | .ge => "ge"
  | .eq => "eq"
  | .ne => "ne"
  | .and => "and"
  | .or => "or"
  | .lerp => "lerp"
  | .clamp => "clamp"
  | .select => "select"

/-- Every operator. -/
def all : List Operator :=
  [.neg, .not, .abs, .sqrt, .rsq, .rcp, .floor, .fract, .saturate, .sin, .cos, .exp2, .log2, .add,
    .sub, .mul, .div, .min, .max, .pow, .dot, .lt, .gt, .le, .ge, .eq, .ne, .and, .or, .lerp,
    .clamp, .select]

/-- The operator of a name. -/
def ofName? (name : String) : Option Operator :=
  all.find? fun op => op.name == name

theorem ofName?_name (op : Operator) : ofName? op.name = some op := by
  cases op <;> decide +kernel

end Operator

end ShaderIR
