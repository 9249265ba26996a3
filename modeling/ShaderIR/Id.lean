/-!
Names of things that a program keeps in its arenas, and of its statement lists. An id is the place
of its item in the arena, so ids count up from zero in the order of creation; the texts are `%3` for
a node, `v3` for a variable and `fn3` for a signature.
-/

set_option autoImplicit false

namespace ShaderIR

/-- Names a node of a program. -/
structure NodeId where
  index : Nat
deriving DecidableEq, Repr, Inhabited

/-- Names a variable of a program. -/
structure VarId where
  index : Nat
deriving DecidableEq, Repr, Inhabited

/-- Names a signature of a program. -/
structure SignatureId where
  index : Nat
deriving DecidableEq, Repr, Inhabited

instance : ToString NodeId :=
  ⟨fun id => "%" ++ toString id.index⟩

instance : ToString VarId :=
  ⟨fun id => "v" ++ toString id.index⟩

instance : ToString SignatureId :=
  ⟨fun id => "fn" ++ toString id.index⟩

/-- Names one statement list of a program: its root list, or a body of a control node. -/
inductive ListRef
  | root
  | thenBody (owner : NodeId)
  | elseBody (owner : NodeId)
  | loopBody (owner : NodeId)
deriving DecidableEq, Repr, Inhabited

/-- The control node that a list belongs to. -/
def ListRef.owner? : ListRef → Option NodeId
  | .root => none
  | .thenBody owner => some owner
  | .elseBody owner => some owner
  | .loopBody owner => some owner

end ShaderIR
