import ShaderIR.Interp.Lanes

/-!
Values that stand in for resources. A run reads no real image and calls no real function: what a
texture operation, a call or an unset variable yields is derived from a `Seed`, so that equal seeds
yield equal values. The bytes of a seed go through the 64-bit hash FNV-1a, whose result starts a
linear congruential generator that gives one lane per step.
-/

set_option autoImplicit false

namespace ShaderIR

/-- What a derived value depends on. -/
inductive Seed
  /-- The first value of a variable that no input sets. -/
  | input (id : VarId)
  | texture (op : TextureOp) (channel : Option UInt8) (operands : List Lanes)
  /-- A returned value; calls with side effects also depend on how many of them came before. -/
  | returned (callee : SignatureId) (inputs : List Lanes) (sequence : Option Nat)
  /-- What a call writes to its argument of some number. -/
  | written (callee : SignatureId) (inputs : List Lanes) (argument sequence : Nat)

namespace Seed

/-- The lowest bytes of a number, least significant first. -/
def littleEndian : (count : Nat) → (number : Nat) → List UInt8
  | 0, _ => []
  | count + 1, number => UInt8.ofNat number :: littleEndian count (number / 256)

/-- The bytes of a value: its length and then its lanes. -/
def lanesBytes (lanes : Lanes) : List UInt8 :=
  littleEndian 8 lanes.length ++ lanes.flatMap fun lane => littleEndian 8 lane.bits.toNat

/-- The bytes of a row of values: their number and then the values. -/
def valuesBytes (values : List Lanes) : List UInt8 :=
  littleEndian 8 values.length ++ values.flatMap lanesBytes

/-- The bytes of a seed. -/
def bytes : Seed → List UInt8
  | .input id => [0x69, 0x6e, 0x70, 0x75, 0x74, 0xff] ++ littleEndian 8 id.index
  | .texture op channel operands =>
    let channel := match channel with
      | none => littleEndian 8 0
      | some channel => littleEndian 8 1 ++ [channel]
    op.code :: (channel ++ valuesBytes operands)
  | .returned callee inputs sequence =>
    littleEndian 4 callee.index ++ valuesBytes inputs ++ sequence.toList.flatMap (littleEndian 8)
  | .written callee inputs argument sequence =>
    littleEndian 4 callee.index ++ valuesBytes inputs ++ littleEndian 8 argument ++
      littleEndian 8 sequence

/-- The hash of a row of bytes. -/
def hash (bytes : List UInt8) : UInt64 :=
  bytes.foldl (fun state byte => (state ^^^ byte.toUInt64) * 0x100000001b3) 0xcbf29ce484222325

/-- So many lanes from the generator, each one a 16-bit number scaled to the unit interval. -/
def generate : (count : Nat) → (state : UInt64) → Lanes
  | 0, _ => []
  | count + 1, state =>
    let state := state * 0x5851f42d4c957f2d + 0x14057b7ef767814f
    .ofNumber ((state >>> 48).toFloat / 65535) :: generate count state

/-- The value of a given length that is derived from a seed. -/
def lanes (seed : Seed) (length : Nat) : Lanes :=
  generate length (hash seed.bytes)

theorem length_generate (count : Nat) (state : UInt64) : (generate count state).length = count := by
  induction count generalizing state with
  | zero => rfl
  | succ count ih => simp [generate, ih]

@[simp] theorem length_lanes (seed : Seed) (length : Nat) : (seed.lanes length).length = length :=
  length_generate length _

end Seed

end ShaderIR
