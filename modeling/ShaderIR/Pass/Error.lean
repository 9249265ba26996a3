import ShaderIR.Id

/-!
Ordinary failures of passes. A pass refuses control flow that it does not model, and gives up on
programs that nest too deep.
-/

set_option autoImplicit false

namespace ShaderIR

/-- Control flow that the graph does not model. -/
inductive Unsupported
  | loop (id : NodeId)
  | ret (id : NodeId)
  /-- A discard in a function of more than one block. -/
  | discardAcrossBlocks (id : NodeId)
deriving DecidableEq, Repr

/-- The wording of an unsupported shape. -/
def Unsupported.message : Unsupported → String
  | .loop id => "loop at " ++ toString id
  | .ret id => "return at " ++ toString id
  | .discardAcrossBlocks id => "discard at " ++ toString id ++ " in a multi-block function"

/-- Why a pass failed. -/
inductive PassError
  | unsupported (shape : Unsupported)
  | tooDeep (limit : Nat)
deriving DecidableEq, Repr

/-- The wording of a failure. -/
def PassError.message : PassError → String
  | .unsupported shape => "unsupported control-flow shape: " ++ shape.message
  | .tooDeep limit => "nesting depth exceeds the limit of " ++ toString limit

end ShaderIR
