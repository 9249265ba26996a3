import ShaderIR.Crash

/-!
Sequential ids of 32 bits. The largest one is never handed out, so an allocator can always show how
many ids it has given away.
-/

set_option autoImplicit false

namespace ShaderIR

/-- Hands out ids one after the other. -/
structure IdAllocator where
  /-- The id that comes next, which counts those handed out by an allocator that began at zero. -/
  next : Nat := 0
deriving DecidableEq, Repr, Inhabited

namespace IdAllocator

/-- The id that is kept back; those below it can be handed out. -/
def last : Nat :=
  UInt32.size - 1

/-- The allocator after one more id. -/
def advanced (allocator : IdAllocator) : IdAllocator :=
  ⟨allocator.next + 1⟩

/-- Takes the next id, as long as it is not the last one of its width. -/
def allocate (allocator : IdAllocator) : Except Crash (Nat × IdAllocator) :=
  if allocator.next < last then .ok (allocator.next, allocator.advanced)
  else .error .idsExhausted

end IdAllocator

end ShaderIR
