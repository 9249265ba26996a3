import ShaderIR.IdAllocator
import ShaderIR.Node

/-!
Programs: arenas of nodes, variables and signatures, and the root statement list. Items are added at
the end of an arena and never leave it; a node that nothing refers to any more stays where it is. An
id is the place of its item and has 32 bits, so that no more items fit an arena.
Statements live in lists, which `Program.list` looks up and `Program.setList` replaces.
-/

set_option autoImplicit false

namespace ShaderIR

/-- What a variable is for. -/
inductive VarMode
  /-- A local of the function. -/
  | auto
  /-- A local that a pass has made. -/
  | temporary
  /-- A read-only input. -/
  | input
  | output
  /-- A read-only parameter of the whole draw. -/
  | uniform
deriving DecidableEq, Repr, Inhabited

structure Variable where
  name : String
  ty : Ty
  mode : VarMode
deriving DecidableEq, Repr, Inhabited

/-- How an argument is passed. -/
inductive ParamMode
  | input
  | output
  | inout
deriving DecidableEq, Repr, Inhabited

/-- Whether a call writes an argument of this mode. -/
def ParamMode.writes : ParamMode → Bool
  | .input => false
  | .output | .inout => true

theorem ParamMode.writes_iff {mode : ParamMode} : mode.writes = true ↔ mode ≠ .input := by
  cases mode <;> decide

structure Param where
  ty : Ty
  mode : ParamMode
deriving DecidableEq, Repr, Inhabited

/-- What a caller needs to know of a function. -/
structure Signature where
  name : String
  params : List Param
  returnTy : Ty
deriving DecidableEq, Repr, Inhabited

/-- Whether a call leaves all its arguments alone. -/
def Signature.isPure (signature : Signature) : Bool :=
  signature.params.all fun param => param.mode == .input

/-- A function body together with everything that it refers to. -/
structure Program where
  nodes : Array Node := #[]
  vars : Array Variable := #[]
  signatures : Array Signature := #[]
  /-- The root statement list. -/
  body : List NodeId := []
  /-- The messages reported so far, oldest first. -/
  diagnostics : List String := []
  /-- The numbers of the temporaries. -/
  temporaries : IdAllocator := {}
deriving DecidableEq, Repr, Inhabited

namespace Program

/-! ### Arenas -/

/-- The node of an id. -/
def node (program : Program) (id : NodeId) : Except Crash Node :=
  fetch program.nodes id.index

/-- The variable of an id. -/
def variableOf (program : Program) (id : VarId) : Except Crash Variable :=
  fetch program.vars id.index

/-- The signature of an id. -/
def signature (program : Program) (id : SignatureId) : Except Crash Signature :=
  fetch program.signatures id.index

/-- The program with one more node, which no list or node refers to yet. -/
def withNode (program : Program) (node : Node) : Program :=
  { program with nodes := program.nodes.push node }

/-- Adds a node, if there is an id for it. -/
def addNode (program : Program) (node : Node) : Except Crash (NodeId × Program) :=
  if program.nodes.size < UInt32.size then .ok (⟨program.nodes.size⟩, program.withNode node)
  else .error .nodesExhausted

/-- Adds a variable, if there is an id for it. -/
def addVariable (program : Program) (added : Variable) : Except Crash (VarId × Program) :=
  if program.vars.size < UInt32.size then
    .ok (⟨program.vars.size⟩, { program with vars := program.vars.push added })
  else .error .variablesExhausted

/-- Adds a signature, if there is an id for it. -/
def addSignature (program : Program) (signature : Signature) :
    Except Crash (SignatureId × Program) :=
  if program.signatures.size < UInt32.size then
    .ok (⟨program.signatures.size⟩,
      { program with signatures := program.signatures.push signature })
  else .error .signaturesExhausted

/-- Adds a temporary with a name of its own. -/
def addTemporary (program : Program) (ty : Ty) : Except Crash (VarId × Program) := do
  let (number, temporaries) ← program.temporaries.allocate
  { program with temporaries }.addVariable ⟨"t" ++ toString number, ty, .temporary⟩

/-- Overwrites a node; an id that names no node changes nothing. -/
def setNode (program : Program) (id : NodeId) (node : Node) : Program :=
  { program with nodes := program.nodes.setIfInBounds id.index node }

/-- Overwrites a node that exists. -/
def replaceNode (program : Program) (id : NodeId) (node : Node) : Except Crash Program := do
  let _ ← program.node id
  return program.setNode id node

/-- Adds, but does not insert, a read of a variable and an assignment of a value to it. -/
def addAssignment (program : Program) (target : VarId) (value : NodeId) :
    Except Crash (NodeId × Program) := do
  let (place, program) ← program.addNode (.variable target)
  program.addNode (.assign place value 0)

/-- Reports a message. -/
def report (program : Program) (message : String) : Program :=
  { program with diagnostics := program.diagnostics ++ [message] }

/-- Appends a statement to the root list. -/
def push (program : Program) (statement : NodeId) : Program :=
  { program with body := program.body ++ [statement] }

/-! ### Statement lists -/

/-- The statements of a list. -/
def list (program : Program) (ref : ListRef) : Except Crash (List NodeId) :=
  match ref with
  | .root => .ok program.body
  | .thenBody owner => do
    match ← program.node owner with
    | .branch _ thenBody _ => .ok thenBody
    | _ => .error (.notAList ref)
  | .elseBody owner => do
    match ← program.node owner with
    | .branch _ _ elseBody => .ok elseBody
    | _ => .error (.notAList ref)
  | .loopBody owner => do
    match ← program.node owner with
    | .loop body => .ok body
    | _ => .error (.notAList ref)

/-- Replaces the statements of a list. -/
def setList (program : Program) (ref : ListRef) (statements : List NodeId) :
    Except Crash Program :=
  match ref with
  | .root => .ok { program with body := statements }
  | .thenBody owner => do
    match ← program.node owner with
    | .branch condition _ elseBody =>
      .ok (program.setNode owner (.branch condition statements elseBody))
    | _ => .error (.notAList ref)
  | .elseBody owner => do
    match ← program.node owner with
    | .branch condition thenBody _ =>
      .ok (program.setNode owner (.branch condition thenBody statements))
    | _ => .error (.notAList ref)
  | .loopBody owner => do
    match ← program.node owner with
    | .loop _ => .ok (program.setNode owner (.loop statements))
    | _ => .error (.notAList ref)

/-- The lists that a statement owns. -/
def nestedLists (program : Program) (statement : NodeId) : Except Crash (List ListRef) := do
  return (← program.node statement).lists statement

/-- Where a statement first stands in a list. -/
def position? (program : Program) (ref : ListRef) (statement : NodeId) :
    Except Crash (Option Nat) := do
  return (← program.list ref).idxOf? statement

/-- A bound on the length of a chain of references in which no node occurs twice. -/
def chainBound (program : Program) : Nat :=
  program.nodes.size + 1

/-! ### How arenas grow -/

/-- The program with one more temporary. -/
def withTemporary (program : Program) (ty : Ty) : Program :=
  { program with
    vars := program.vars.push ⟨"t" ++ toString program.temporaries.next, ty, .temporary⟩
    temporaries := program.temporaries.advanced }

/-- The program with an assignment to a variable that is in no list yet. -/
def withAssignment (program : Program) (target : VarId) (value : NodeId) : Program :=
  (program.withNode (.variable target)).withNode (.assign ⟨program.nodes.size⟩ value 0)

theorem addNode_eq_ok_iff {program : Program} {node : Node} {reached : NodeId × Program} :
    program.addNode node = .ok reached ↔
      program.nodes.size < UInt32.size ∧
      (⟨program.nodes.size⟩, program.withNode node) = reached := by
  unfold addNode
  split <;> simp [*]

theorem addVariable_eq_ok_iff {program : Program} {added : Variable} {reached : VarId × Program} :
    program.addVariable added = .ok reached ↔ program.vars.size < UInt32.size ∧
      (⟨program.vars.size⟩, { program with vars := program.vars.push added }) = reached := by
  unfold addVariable
  split <;> simp [*]

theorem addTemporary_eq_ok_iff {program : Program} {ty : Ty} {reached : VarId × Program} :
    program.addTemporary ty = .ok reached ↔
      (program.temporaries.next < IdAllocator.last ∧ program.vars.size < UInt32.size) ∧
        (⟨program.vars.size⟩, program.withTemporary ty) = reached := by
  unfold addTemporary IdAllocator.allocate
  split
  · next hnumber =>
    change addVariable _ _ = .ok reached ↔ _
    simp only [addVariable_eq_ok_iff, hnumber, true_and]
    rfl
  · next hnumber => exact iff_of_false nofun fun ⟨⟨hlt, _⟩, _⟩ => hnumber hlt

theorem addAssignment_eq_ok_iff {program : Program} {target : VarId} {value : NodeId}
    {reached : NodeId × Program} : program.addAssignment target value = .ok reached ↔
      program.nodes.size + 1 < UInt32.size ∧
        (⟨program.nodes.size + 1⟩, program.withAssignment target value) = reached := by
  unfold addAssignment
  unfold addNode
  split
  · next hplace =>
    change addNode _ _ = .ok reached ↔ _
    rw [addNode_eq_ok_iff]
    simp [withNode, withAssignment]
  · next hplace => exact iff_of_false nofun fun ⟨hlt, _⟩ => hplace (by omega)

@[simp] theorem nodes_withNode (program : Program) (node : Node) :
    (program.withNode node).nodes = program.nodes.push node :=
  rfl

theorem node_withNode_self (program : Program) (node : Node) :
    (program.withNode node).node ⟨program.nodes.size⟩ = .ok node := by
  simp [Program.node, fetch]

theorem node_withNode_of_lt (program : Program) (added : Node) {id : NodeId}
    (earlier : id.index < program.nodes.size) :
    (program.withNode added).node id = program.node id := by
  simp [Program.node, fetch, Array.getElem?_push, Nat.ne_of_lt earlier, earlier]

theorem node_setNode_self (program : Program) (node : Node) {id : NodeId}
    (inRange : id.index < program.nodes.size) : (program.setNode id node).node id = .ok node := by
  simp [Program.node, Program.setNode, fetch, inRange]

theorem node_setNode_of_ne (program : Program) (node : Node) {id other : NodeId}
    (different : other ≠ id) : (program.setNode id node).node other = program.node other := by
  have apart : id.index ≠ other.index := fun equal => different (by
    cases id; cases other; simp_all)
  simp [Program.node, Program.setNode, fetch, apart]

end Program

end ShaderIR
