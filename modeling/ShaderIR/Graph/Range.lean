import ShaderIR.Pass.Error
import ShaderIR.Program.Basic
import ShaderIR.Walk

/-!
Runs of statements, and the partition of a program into them. A `BlockRange` names a run by its list
and its first and last statement. `Program.partition` cuts every list after each conditional, loop,
call and return; the ranges come in the order of the program text, so that a control statement's
range is followed by the ranges of its bodies.
-/

set_option autoImplicit false

namespace ShaderIR

/-- A run of statements of one list. -/
structure BlockRange where
  list : ListRef
  first : NodeId
  last : NodeId
deriving DecidableEq, Repr, Inhabited

/-- The statements from one place of a list through another, which may be the place before it. -/
def sliceThrough {α : Type} (items : List α) (start stop : Nat) : Except Crash (List α) :=
  if start ≤ stop + 1 then .ok ((items.take (stop + 1)).drop start)
  else .error (.reversedRange start (stop + 1))

/-- The statements of a range; none if one of its ends has been taken out of the list. -/
def BlockRange.statements (range : BlockRange) (program : Program) :
    Except Crash (List NodeId) := do
  let statements ← program.list range.list
  match statements.idxOf? range.first, statements.idxOf? range.last with
  | some start, some stop => sliceThrough statements start stop
  | _, _ => return []

namespace Program

/-- The ranges of the rest of a list. An open range, given by its ends so far, goes on with the next
statement; `nested` gives the ranges of a body. -/
def rangesAfter (program : Program) (ref : ListRef)
    (nested : ListRef → Query PassError (List BlockRange)) :
    (opened : Option (NodeId × NodeId)) → List NodeId → Query PassError (List BlockRange)
  | none, [] => return []
  | some (first, last), [] => return [⟨ref, first, last⟩]
  | opened, statement :: rest => do
    let first := (opened.map Prod.fst).getD statement
    match ← program.node statement with
    | .branch .. | .loop .. => do
      let bodies ← (← program.nestedLists statement).mapM nested
      let following ← program.rangesAfter ref nested none rest
      return ⟨ref, first, statement⟩ :: (bodies.flatten ++ following)
    | .call .. | .ret .. => do
      let following ← program.rangesAfter ref nested none rest
      return ⟨ref, first, statement⟩ :: following
    | _ => program.rangesAfter ref nested (some (first, statement)) rest

/-- The ranges of a list that may still nest `budget` levels, itself included. -/
def rangesWithin (program : Program) (limit : Nat) : (budget : Nat) → ListRef →
    Query PassError (List BlockRange)
  | 0, _ => throw (.tooDeep limit)
  | budget + 1, ref => do
    let statements ← program.list ref
    program.rangesAfter ref (program.rangesWithin limit budget) none statements

/-- Cuts all statement lists of a program into ranges; bodies nest at most `limit` deep. -/
def partition (program : Program) (limit : Nat) : Query PassError (List BlockRange) :=
  program.rangesWithin limit (limit + 1) .root

end Program

end ShaderIR
