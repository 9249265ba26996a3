/-!
Lane selectors such as `.xyz`. A swizzle names one to four lanes of a vector in any order and with
repetition; it is written with the letters `xyzw`, and read from those or from `rgba`.
-/

set_option autoImplicit false

namespace ShaderIR

/-- One to four selected lanes. -/
structure Swizzle where
  lanes : List (Fin 4)
  lanes_ne_nil : lanes ≠ []
  length_le : lanes.length ≤ 4
deriving DecidableEq, Repr

namespace Swizzle

/-- The letter that stands for a lane. -/
def letter : Fin 4 → Char
  | 0 => 'x'
  | 1 => 'y'
  | 2 => 'z'
  | 3 => 'w'

/-- The lane that a position or colour letter stands for. -/
def lane? : Char → Option (Fin 4)
  | 'x' | 'r' => some 0
  | 'y' | 'g' => some 1
  | 'z' | 'b' => some 2
  | 'w' | 'a' => some 3
  | _ => none

theorem lane?_letter (lane : Fin 4) : lane? (letter lane) = some lane := by
  match lane with
  | 0 | 1 | 2 | 3 => rfl

/-- A swizzle of the given lanes, if it has one to four of them. -/
def ofLanes? (lanes : List (Fin 4)) : Option Swizzle :=
  if fits : lanes ≠ [] ∧ lanes.length ≤ 4 then some ⟨lanes, fits.1, fits.2⟩ else none

/-- A swizzle of lanes given by number, each of which must be a lane of a four-lane vector. -/
def ofNumbers? (numbers : List Nat) : Option Swizzle := do
  let lanes ← numbers.mapM fun number => if small : number < 4 then some ⟨number, small⟩ else none
  ofLanes? lanes

/-- Reads a swizzle from its letters. -/
def parse? (text : String) : Option Swizzle := do
  let lanes ← text.toList.mapM lane?
  ofLanes? lanes

/-- The number of selected lanes. -/
def length (swizzle : Swizzle) : Nat :=
  swizzle.lanes.length

/-- The letters of a swizzle. -/
def text (swizzle : Swizzle) : String :=
  String.ofList (swizzle.lanes.map letter)

/-- The write mask with a bit for every selected lane. -/
def writeMask (swizzle : Swizzle) : UInt8 :=
  swizzle.lanes.foldl (fun mask lane => mask ||| 1 <<< UInt8.ofNat lane.val) 0

end Swizzle

end ShaderIR
