import ShaderIR.Graph.Basic

/-!
Edges between blocks. A block leads to where control can go after its last statement: into the
bodies of a conditional, past a conditional with a missing body, on to the next block of its list,
or to what comes after the list.
-/

set_option autoImplicit false

namespace ShaderIR

/-- One step of control from block to block. -/
structure Edge where
  source : BlockId
  target : BlockId
deriving DecidableEq, Repr

namespace Graph

/-- Where a conditional leads, given the first of its bodies and what comes next; a missing body is
passed by. -/
def branchTargets {α : Type} (thenFirst elseFirst next : Option α) : List α :=
  match thenFirst, elseFirst with
  | some thenFirst, some elseFirst => [thenFirst, elseFirst]
  | some body, none | none, some body => body :: next.toList
  | none, none => next.toList

/-- The edges out of the given blocks of one list and out of the blocks of their bodies. Control
goes to `after` at the end of the list; `nested` gives the edges of a body with what comes after
it. -/
def flowThrough (graph : Graph) (program : Program) (after : Option BlockId)
    (nested : ListRef → Option BlockId → Query PassError (List Edge)) :
    List BasicBlock → Query PassError (List Edge)
  | [] => return []
  | block :: rest => do
    let next := (rest.head?.map BasicBlock.id).or after
    let leadTo (targets : List BlockId) : List Edge := targets.map fun target => ⟨block.id, target⟩
    let edges ← match block.exit? with
      | none => pure []
      | some range => do
        match ← program.node range.last with
        | .branch .. => do
          let first (ref : ListRef) := (graph.blocksIn ref).head?.map BasicBlock.id
          let thenEdges ← nested (.thenBody range.last) next
          let elseEdges ← nested (.elseBody range.last) next
          pure (leadTo (branchTargets (first (.thenBody range.last)) (first (.elseBody range.last))
            next) ++ thenEdges ++ elseEdges)
        | .call .. => pure (leadTo next.toList)
        | .loop .. => throw (.unsupported (.loop range.last))
        | .ret .. => throw (.unsupported (.ret range.last))
        | _ => pure (leadTo (if rest.isEmpty then after.toList else []))
    return edges ++ (← graph.flowThrough program after nested rest)

/-- The edges of the blocks in a list that may still nest `budget` levels, itself included. -/
def flowWithin (graph : Graph) (program : Program) (limit : Nat) : (budget : Nat) → ListRef →
    (after : Option BlockId) → Query PassError (List Edge)
  | 0, _, _ => throw (.tooDeep limit)
  | budget + 1, ref, after =>
    graph.flowThrough program after (graph.flowWithin program limit budget) (graph.blocksIn ref)

/-- All edges between blocks that begin in the lists of a program. -/
def flow (graph : Graph) (program : Program) (limit : Nat) : Query PassError (List Edge) :=
  graph.flowWithin program limit (limit + 1) .root none

/-- Adds an edge. -/
def connect (graph : Graph) (edge : Edge) : Except Crash Graph := do
  let graph ← graph.modifyBlock edge.source fun block =>
    { block with successors := block.successors.insert edge.target }
  graph.modifyBlock edge.target fun block =>
    { block with predecessors := block.predecessors.insert edge.source }

end Graph

end ShaderIR
