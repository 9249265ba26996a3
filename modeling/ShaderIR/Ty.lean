/-!
Types of shader values. A value of a type is a flat run of numeric lanes: `Ty.flatLen` counts them,
`Ty.element?` and `Ty.field?` give the parts that an index or a field selects, and `Ty.fullMask` is
the write mask that names every lane of a vector.
-/

set_option autoImplicit false

namespace ShaderIR

/-- What one lane of a vector holds. -/
inductive Scalar
  | float
  | int
  | uint
  | bool
deriving DecidableEq, Repr, Inhabited

/-- The name of a scalar, which is also the name of its one-lane vector. -/
def Scalar.name : Scalar → String
  | .float => "float"
  | .int => "int"
  | .uint => "uint"
  | .bool => "bool"

/-- What stands before `vec` in the name of a longer vector of this scalar. -/
def Scalar.vectorMark : Scalar → String
  | .float => ""
  | .int => "i"
  | .uint => "u"
  | .bool => "b"

/-- The shape of the image that a sampler reads. -/
inductive SamplerShape
  | line
  | plane
  | volume
  | cube
deriving DecidableEq, Repr, Inhabited

/-- The name of a sampler type. -/
def SamplerShape.name : SamplerShape → String
  | .line => "sampler1D"
  | .plane => "sampler2D"
  | .volume => "sampler3D"
  | .cube => "samplerCube"

/-- The type of a node or variable; a scalar is a vector of one lane. -/
inductive Ty
  /-- The type of statements. -/
  | void
  | vector (scalar : Scalar) (lanes : UInt8)
  | sampler (shape : SamplerShape)
  | array (element : Ty) (length : UInt32)
  | record (name : String) (fields : List (String × Ty))
deriving Repr, Inhabited

namespace Ty

/-! ### Equality -/

mutual

/-- Decides whether two types are the same. -/
def decideEq : (left right : Ty) → Decidable (left = right)
  | .void, .void => isTrue rfl
  | .vector scalar lanes, .vector scalar' lanes' =>
    if same : scalar = scalar' ∧ lanes = lanes' then isTrue (by rw [same.1, same.2])
    else isFalse (by intro equal; cases equal; exact same ⟨rfl, rfl⟩)
  | .sampler shape, .sampler shape' =>
    if same : shape = shape' then isTrue (by rw [same])
    else isFalse (by intro equal; cases equal; exact same rfl)
  | .array element length, .array element' length' =>
    match decideEq element element' with
    | isTrue sameElement =>
      if sameLength : length = length' then isTrue (by rw [sameElement, sameLength])
      else isFalse (by intro equal; cases equal; exact sameLength rfl)
    | isFalse different => isFalse (by intro equal; cases equal; exact different rfl)
  | .record name fields, .record name' fields' =>
    match decideEqFields fields fields' with
    | isTrue sameFields =>
      if sameName : name = name' then isTrue (by rw [sameFields, sameName])
      else isFalse (by intro equal; cases equal; exact sameName rfl)
    | isFalse different => isFalse (by intro equal; cases equal; exact different rfl)
  | .void, .vector .. | .void, .sampler .. | .void, .array .. | .void, .record ..
  | .vector .., .void | .vector .., .sampler .. | .vector .., .array .. | .vector .., .record ..
  | .sampler .., .void | .sampler .., .vector .. | .sampler .., .array .. | .sampler .., .record ..
  | .array .., .void | .array .., .vector .. | .array .., .sampler .. | .array .., .record ..
  | .record .., .void | .record .., .vector .. | .record .., .sampler .. | .record .., .array .. =>
    isFalse (by intro equal; cases equal)

/-- Decides whether two field lists are the same. -/
def decideEqFields : (left right : List (String × Ty)) → Decidable (left = right)
  | [], [] => isTrue rfl
  | [], _ :: _ | _ :: _, [] => isFalse (by intro equal; cases equal)
  | (name, ty) :: rest, (name', ty') :: rest' =>
    match decideEq ty ty', decideEqFields rest rest' with
    | isTrue sameTy, isTrue sameRest =>
      if sameName : name = name' then isTrue (by rw [sameTy, sameRest, sameName])
      else isFalse (by intro equal; cases equal; exact sameName rfl)
    | isFalse different, _ => isFalse (by intro equal; cases equal; exact different rfl)
    | _, isFalse different => isFalse (by intro equal; cases equal; exact different rfl)

end

instance : DecidableEq Ty :=
  decideEq

/-! ### Common types -/

/-- The type of truth values. -/
def bool : Ty :=
  .vector .bool 1

/-- The type of single floating-point numbers. -/
def float : Ty :=
  .vector .float 1

/-- The type of single signed integers. -/
def int : Ty :=
  .vector .int 1

/-- The type of four floating-point numbers, which texture samples have. -/
def vec4 : Ty :=
  .vector .float 4

/-! ### Parts and sizes -/

/-- The number of vector lanes, which is zero for anything but a vector. -/
def lanes : Ty → UInt8
  | .vector _ lanes => lanes
  | _ => 0

/-- What the lanes of a vector hold. -/
def scalar? : Ty → Option Scalar
  | .vector scalar _ => some scalar
  | _ => none

/-- The write mask with a bit for every lane of a vector, and no bit for any other type. -/
def fullMask : Ty → UInt8
  | .vector _ lanes => (1 <<< lanes) - 1
  | _ => 0

/-- What an index selects: an array's element, or one lane of a vector that has several. -/
def element? : Ty → Option Ty
  | .array element _ => some element
  | .vector scalar lanes => if 1 < lanes then some (.vector scalar 1) else none
  | _ => none

/-- The name and type of a record's field. -/
def field? : Ty → Nat → Option (String × Ty)
  | .record _ fields, index => fields[index]?
  | _, _ => none

mutual

/-- The number of lanes that a value of this type occupies when it is laid out flat. It is counted
in 64 bits, so that the size of a type with more lanes than that wraps around. -/
def flatLen : Ty → Nat
  | .void => 0
  | .vector _ lanes => lanes.toNat
  | .sampler _ => 1
  | .array element length => element.flatLen * length.toNat % UInt64.size
  | .record _ fields => fieldsLen fields

/-- The number of lanes that a run of fields occupies, counted in 64 bits. -/
def fieldsLen : List (String × Ty) → Nat
  | [] => 0
  | (_, ty) :: rest => (ty.flatLen + fieldsLen rest) % UInt64.size

end

/-! ### Text -/

/-- The name of a type. -/
def text : Ty → String
  | .void => "void"
  | .vector scalar lanes =>
    if lanes = 1 then scalar.name else scalar.vectorMark ++ "vec" ++ toString lanes.toNat
  | .sampler shape => shape.name
  | .array element length => element.text ++ "[" ++ toString length.toNat ++ "]"
  | .record name _ => name

instance : ToString Ty :=
  ⟨text⟩

end Ty

end ShaderIR
