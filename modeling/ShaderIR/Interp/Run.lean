import ShaderIR.Interp.Digest
import ShaderIR.Program.Typing
import ShaderIR.Walk

/-!
The reference semantics of programs. `Program.run` executes the root list from given inputs and
returns the `Trace` of what can be observed: every write to a variable that is not a temporary, how
many texture operations and calls were made, and whether the run was discarded. Loops are not
supported.

`Program.execute` does what one statement says and tells where control goes: into a body, or
nowhere. Places and sizes are counted in 64 bits, as on the machine, and wrap around. Memory is
taken to be as large as the sizes ask for.

`Program.executeFor` keeps the row of statements that are still to come and puts the chosen body of
a conditional in front of it, so that a body may enter itself any number of times.
-/

set_option autoImplicit false

namespace ShaderIR

/-- Why a program has no meaning. -/
inductive RunError
  | loop (id : NodeId)
  | notAPlace (id : NodeId)
  | malformed (id : NodeId)
deriving DecidableEq, Repr

/-- The wording of an error. -/
def RunError.message : RunError → String
  | .loop id => "loops are not supported (" ++ toString id ++ ")"
  | .notAPlace id => toString id ++ " is not an lvalue"
  | .malformed id => toString id ++ " is malformed"

/-- What can be observed of a run. -/
structure Trace where
  /-- The values of variables other than temporaries after each write, the most recent one first. -/
  writes : List (VarId × Lanes) := []
  textureSamples : Nat := 0
  calls : Nat := 0
  discarded : Bool := false

/-- The values that a variable had after each write to it, oldest first. -/
def Trace.assignments (trace : Trace) (id : VarId) : List Lanes :=
  ((trace.writes.filter fun write => write.1 == id).map Prod.snd).reverse

/-- The state of a run. -/
structure Machine where
  /-- The current value of every variable. -/
  slots : Array Lanes
  /-- How many calls with side effects have been made. -/
  sequence : Nat := 0
  trace : Trace := {}

/-- A part of a run. -/
abbrev Execution :=
  Walk RunError Machine

/-- Where control goes after a statement. -/
inductive Flow
  /-- Through a body, which has no statements unless a conditional chose it, and on to what
  follows. -/
  | through (body : List NodeId)
  | stop
deriving DecidableEq, Repr

/-- A run of lanes of one variable. Its offset is counted in 64 bits. -/
structure Place where
  root : VarId
  offset : Nat
  ty : Ty

namespace Program

/-! ### Expressions and places -/

/-- The element that an index lane selects: indices outside of the range go to its nearest end. -/
def clampIndex (lane : Lane) (length : Nat) : Nat :=
  min (lane.max 0).number.toUInt64.toNat (length - 1)

/-- Resolves a place of at most so many dereferences, given how the indices in it are evaluated. -/
def placeVia (program : Program) (evaluate : NodeId → Execution Lanes) :
    (steps : Nat) → NodeId → Execution Place
  | 0, _ => throwThe Crash .endless
  | steps + 1, id => do
    match ← program.node id with
    | .variable root => return ⟨root, 0, (← program.variableOf root).ty⟩
    | .index base position => do
      let place ← program.placeVia evaluate steps base
      let lane := (← evaluate position).lane 0
      match place.ty.element? with
      | none => throw (.malformed id)
      | some element =>
        let length := match place.ty with
          | .array _ length => length.toNat
          | ty => ty.lanes.toNat
        let skipped := clampIndex lane length * element.flatLen
        return ⟨place.root, Lanes.position place.offset skipped, element⟩
    | .field record number => do
      let place ← program.placeVia evaluate steps record
      match place.ty with
      | .record _ fields =>
        match fields[number]? with
        | none => throw (.malformed id)
        | some (_, ty) =>
          let skipped := Ty.fieldsLen (fields.take number)
          return ⟨place.root, Lanes.position place.offset skipped, ty⟩
      | _ => throw (.malformed id)
    | _ => throw (.notAPlace id)

/-- The lanes of a place, or nothing if they reach past the end of its variable or past the last
position of 64 bits. -/
def readPlace? (slots : Array Lanes) (place : Place) : Option Lanes :=
  let slot := slots.getD place.root.index []
  let stop := Lanes.position place.offset place.ty.flatLen
  if place.offset ≤ stop ∧ stop ≤ slot.length then
    some ((slot.drop place.offset).take (stop - place.offset))
  else none

/-- Evaluates an expression whose operands nest at most so deep. -/
def evaluateWithin (program : Program) : (steps : Nat) → NodeId → Execution Lanes
  | 0, _ => throwThe Crash .endless
  | steps + 1, id => do
    match ← program.node id with
    | .constant value => return value.lanes.map Literal.lane
    | .variable read => fetch (← get).slots read.index
    | .index .. | .field .. => do
      let place ← program.placeVia (program.evaluateWithin steps) program.chainBound id
      match readPlace? (← get).slots place with
      | some lanes => return lanes
      | none => throw (.malformed id)
    | .swizzle value mask => do
      let value ← program.evaluateWithin steps value
      return mask.lanes.map fun lane => value.lane lane.val
    | .apply op operands ty => do
      let values ← operands.mapM (program.evaluateWithin steps)
      if values.length ≠ op.arity then throw (.malformed id)
      return (op.apply values).resize (max ty.flatLen 1)
    | .texture op channel operands ty => do
      let values ← operands.toList.mapM (program.evaluateWithin steps)
      modify fun machine =>
        { machine with trace.textureSamples := machine.trace.textureSamples + 1 }
      return (Seed.texture op channel values).lanes ty.flatLen
    | _ => throw (.malformed id)

/-- Evaluates an expression. -/
def evaluate (program : Program) (id : NodeId) : Execution Lanes :=
  program.evaluateWithin program.chainBound id

/-- Resolves an lvalue to the lanes that it covers. -/
def place (program : Program) (id : NodeId) : Execution Place :=
  program.placeVia program.evaluate program.chainBound id

/-! ### Statements -/

/-- Writes a value through an lvalue and notes what its variable holds then. -/
def store (program : Program) (target : NodeId) (value : Lanes) (mask : UInt8) :
    Execution Unit := do
  let place ← program.place target
  let written ← program.variableOf place.root
  modify fun machine =>
    let slot :=
      (machine.slots.getD place.root.index []).write place.offset place.ty.flatLen mask value
    let writes := if written.mode = .temporary then machine.trace.writes
      else (place.root, slot) :: machine.trace.writes
    { machine with
      slots := machine.slots.setIfInBounds place.root.index slot
      trace.writes := writes }

/-- Makes a call: inputs are evaluated, then written arguments stored one by one, then the
result. -/
def executeCall (program : Program) (callee : SignatureId) (arguments : List NodeId)
    (result : Option NodeId) : Execution Unit := do
  let signature ← program.signature callee
  let passed := signature.params.zip arguments
  let inputs ← (passed.filter fun (param, _) => param.mode != .output).mapM fun (_, argument) =>
    program.evaluate argument
  let sequence := (← get).sequence
  modify fun machine => { machine with
    sequence := if signature.isPure then sequence else sequence + 1
    trace.calls := machine.trace.calls + 1 }
  passed.zipIdx.forM fun ((param, argument), number) => do
    if param.mode.writes then
      program.store argument ((Seed.written callee inputs number sequence).lanes param.ty.flatLen) 0
  match result with
  | none => pure ()
  | some target =>
    let before := if signature.isPure then none else some sequence
    program.store target
      ((Seed.returned callee inputs before).lanes signature.returnTy.flatLen) 0

/-- Executes a statement, but not the body that a conditional chooses. -/
def execute (program : Program) (id : NodeId) : Execution Flow := do
  match ← program.node id with
  | .assign target value mask => do
    program.store target (← program.evaluate value) mask
    return .through []
  | .call callee arguments result => do
    program.executeCall callee arguments result
    return .through []
  | .branch condition thenBody elseBody => do
    let chosen := (← program.evaluate condition).lane 0
    return .through (if chosen.isTrue then thenBody else elseBody)
  | .loop _ => throw (.loop id)
  | .ret value => do
    value.toList.forM fun value => do let _ ← program.evaluate value
    return .stop
  | .discard condition => do
    let fires ← match condition with
      | some condition => do pure ((← program.evaluate condition).lane 0).isTrue
      | none => pure true
    if fires then
      modify fun machine => { machine with trace.discarded := true }
      return .stop
    return .through []
  | _ => throw (.malformed id)

/-- Executes statements one after the other, each followed by the body that it chose, until one of
them stops the run or none is left; at most `count` statements. -/
def executeFor (program : Program) : (count : Nat) → List NodeId → Execution Unit
  | _, [] => return
  | 0, _ :: _ => throwThe Crash .endless
  | count + 1, statement :: rest => do
    match ← program.execute statement with
    | .through body => program.executeFor count (body ++ rest)
    | .stop => return

/-- More statements than any run comes to the end of. Statements with one parent each are executed
at most once, so that their number bounds the run. Only the condition ends a body that enters
itself, and `2 ^ 64` statements, one in a nanosecond, take five centuries. -/
def statementBound (program : Program) : Nat :=
  program.nodes.size + UInt64.size

/-- The values that variables start from; those that no input sets are derived from their ids. -/
def initialSlots (program : Program) (inputs : List (VarId × Lanes)) : Array Lanes :=
  program.vars.mapIdx fun index declared =>
    match inputs.lookup ⟨index⟩ with
    | some value => value
    | none => (Seed.input ⟨index⟩).lanes declared.ty.flatLen

/-- Executes a program from the top of its root list. -/
def run (program : Program) (inputs : List (VarId × Lanes)) :
    Except Crash (Except RunError Trace) := do
  let execution := program.executeFor program.statementBound program.body
  let (outcome, machine) ← execution.runFrom { slots := program.initialSlots inputs }
  return outcome.map fun _ => machine.trace

end Program

end ShaderIR
