/-!
Texture operations and their operands. `TextureOperands` is generic in what an operand is, so that
the same shape holds the operand nodes of a texture operation and what is computed for them.
Operands have one canonical order: sampler, coordinate, projector, comparator, offset, level of
detail, sampler state. `toList` lists them in that order, and `mapM` visits and replaces them in
that order. Where a list is not enough to tell which operands it holds, `packedShape` says so in one
byte.
-/

set_option autoImplicit false

namespace ShaderIR

/-- What is asked of a texture. -/
inductive TextureOp
  /-- A filtered sample. -/
  | sample
  /-- A sample with a bias on the level of detail. -/
  | sampleBias
  /-- A sample at an explicit level of detail. -/
  | sampleLevel
  /-- A sample with explicit gradients. -/
  | sampleGradient
  /-- One point of the image as it is stored, unfiltered. -/
  | fetch
  /-- The size of the image. -/
  | size
  /-- The level of detail that a sample would use. -/
  | level
  /-- One component of four neighbouring points. -/
  | gather
deriving DecidableEq, Repr, Inhabited

namespace TextureOp

/-- The name of a texture operation. -/
def name : TextureOp → String
  | .sample => "tex"
  | .sampleBias => "txb"
  | .sampleLevel => "txl"
  | .sampleGradient => "txd"
  | .fetch => "txf"
  | .size => "txs"
  | .level => "lod"
  | .gather => "gather"

/-- The number that stands for a texture operation in digests. -/
def code : TextureOp → UInt8
  | .sample => 0
  | .sampleBias => 1
  | .sampleLevel => 2
  | .sampleGradient => 3
  | .fetch => 4
  | .size => 5
  | .level => 6
  | .gather => 7

/-- Every texture operation. -/
def all : List TextureOp :=
  [.sample, .sampleBias, .sampleLevel, .sampleGradient, .fetch, .size, .level, .gather]

/-- The texture operation of a name. -/
def ofName? (name : String) : Option TextureOp :=
  all.find? fun op => op.name == name

end TextureOp

/-- How the level of detail is chosen. -/
inductive Lod (α : Type)
  /-- By the operation itself. -/
  | implicit
  | bias (amount : α)
  | level (value : α)
  | gradient (dx dy : α)
  | sample (index : α)
deriving DecidableEq, Repr, Inhabited

namespace Lod

variable {α β : Type}

/-- The operands of a level of detail. -/
def toList : Lod α → List α
  | .implicit => []
  | .bias amount => [amount]
  | .level value => [value]
  | .gradient dx dy => [dx, dy]
  | .sample index => [index]

/-- The number of the kind of a level of detail. -/
def code : Lod α → UInt8
  | .implicit => 0
  | .bias _ => 1
  | .level _ => 2
  | .gradient .. => 3
  | .sample _ => 4

/-- Replaces the operands one after the other. -/
def mapM {m : Type → Type} [Monad m] (f : α → m β) : Lod α → m (Lod β)
  | .implicit => return .implicit
  | .bias amount => return .bias (← f amount)
  | .level value => return .level (← f value)
  | .gradient dx dy => return .gradient (← f dx) (← f dy)
  | .sample index => return .sample (← f index)

end Lod

/-- Replaces an operand that may be absent. -/
def mapPresent {α β : Type} {m : Type → Type} [Monad m] (f : α → m β) : Option α → m (Option β)
  | none => return none
  | some operand => return some (← f operand)

/-- The operands of a texture operation. -/
structure TextureOperands (α : Type) where
  sampler : α
  coordinate : Option α := none
  projector : Option α := none
  comparator : Option α := none
  offset : Option α := none
  lod : Lod α := .implicit
  samplerState : Option α := none
deriving DecidableEq, Repr, Inhabited

namespace TextureOperands

variable {α β : Type}

/-- The operands that are present, in canonical order. -/
def toList (operands : TextureOperands α) : List α :=
  operands.sampler :: (operands.coordinate.toList ++ operands.projector.toList ++
    operands.comparator.toList ++ operands.offset.toList ++ operands.lod.toList ++
    operands.samplerState.toList)

/-- Which operands there are: a bit for each operand that may be absent, from the lowest one on, and
above these five bits the kind of the level of detail. -/
def packedShape (operands : TextureOperands α) : UInt8 :=
  let present := [operands.coordinate, operands.projector, operands.comparator, operands.offset,
    operands.samplerState].zipIdx.foldl
      (fun (bits : UInt8) (operand, place) =>
        bits ||| UInt8.ofNat operand.isSome.toNat <<< UInt8.ofNat place) 0
  present ||| operands.lod.code <<< 5

/-- Replaces the operands one after the other, in canonical order. -/
def mapM {m : Type → Type} [Monad m] (f : α → m β) (operands : TextureOperands α) :
    m (TextureOperands β) := do
  let sampler ← f operands.sampler
  let coordinate ← mapPresent f operands.coordinate
  let projector ← mapPresent f operands.projector
  let comparator ← mapPresent f operands.comparator
  let offset ← mapPresent f operands.offset
  let lod ← operands.lod.mapM f
  let samplerState ← mapPresent f operands.samplerState
  return { sampler, coordinate, projector, comparator, offset, lod, samplerState }

end TextureOperands

end ShaderIR
