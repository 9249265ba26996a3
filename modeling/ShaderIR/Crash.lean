import ShaderIR.Id

/-!
Requests that have no answer. `Crash` lists why an operation can break off, and `Crash.message`
words each cause. `fetch` is the look-up that most crashes come from.
-/

set_option autoImplicit false

namespace ShaderIR

/-- Why an operation broke off without a result. -/
inductive Crash
  /-- An id or index past the end of what it points into. -/
  | outOfBounds (length index : Nat)
  /-- A list reference whose owner has no such list. -/
  | notAList (list : ListRef)
  /-- A vector type with no lane, or with more than four. -/
  | laneCount
  /-- An index into a value that has no elements. -/
  | notIndexable
  /-- A field that the record does not have. -/
  | noSuchField
  /-- A swizzle of something that is no vector. -/
  | notAVector
  /-- A swizzle text that names no lanes. -/
  | invalidSwizzle
  /-- A write mask text that names no lanes. -/
  | invalidWriteMask
  /-- A graph block that has become part of another one. -/
  | blockMerged
  /-- A run of statements whose last one stands before its first one. -/
  | reversedRange (start stop : Nat)
  /-- An allocator with no id left. -/
  | idsExhausted
  /-- An arena of nodes that has no id left for another one. -/
  | nodesExhausted
  | variablesExhausted
  | signaturesExhausted
  /-- A walk along references that lead back to themselves. -/
  | endless
deriving DecidableEq, Repr, Inhabited

/-- How a missing statement list is named. -/
def ListRef.description : ListRef → String
  | .root => "Root"
  | .thenBody owner => "Then(NodeId(" ++ toString owner.index ++ "))"
  | .elseBody owner => "Else(NodeId(" ++ toString owner.index ++ "))"
  | .loopBody owner => "Loop(NodeId(" ++ toString owner.index ++ "))"

/-- The wording of a crash. -/
def Crash.message : Crash → String
  | .outOfBounds length index =>
    "index out of bounds: the len is " ++ toString length ++ " but the index is " ++ toString index
  | .notAList list => list.description ++ " doesn't name a statement list"
  | .laneCount => "assertion failed: lanes >= 1 && lanes <= 4"
  | .notIndexable => "indexed a non-indexable type"
  | .noSuchField => "field out of range"
  | .notAVector => "swizzled a non-vector"
  | .invalidSwizzle => "invalid swizzle"
  | .invalidWriteMask => "invalid write mask"
  | .blockMerged => "block was merged away"
  | .reversedRange start stop =>
    "slice index starts at " ++ toString start ++ " but ends at " ++ toString stop
  | .idsExhausted => "assertion failed: id_num < u32::MAX"
  | .nodesExhausted => "node arena overflow: TryFromIntError(())"
  | .variablesExhausted => "variable arena overflow: TryFromIntError(())"
  | .signaturesExhausted => "signature arena overflow: TryFromIntError(())"
  | .endless => "the references lead back to themselves"

/-- The item of an arena at an index. -/
def fetch {α : Type} (items : Array α) (index : Nat) : Except Crash α :=
  match items[index]? with
  | some item => .ok item
  | none => .error (.outOfBounds items.size index)

theorem fetch_eq_ok_iff {α : Type} {items : Array α} {index : Nat} {item : α} :
    fetch items index = .ok item ↔ items[index]? = some item := by
  unfold fetch
  split <;> simp_all

end ShaderIR
