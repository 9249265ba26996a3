import ShaderIR.Interp.Run
import ShaderIR.Proofs.Answers
import ShaderIR.Proofs.Outline.Order

/-!
The statements that are executed. `Program.trail` lists them, from the top of the root list on, when
every test of a conditional or a discard comes out as given. A run of the interpreter goes along
such a trail (`Program.exists_trails_of_executeFor`), and in a program that passes the check there
is one for all outcomes (`Program.DrawsCode.exists_trails`).
-/

set_option autoImplicit false

namespace ShaderIR

/-- Where control goes after a statement of this node, if its test comes out like this. -/
def Node.flowIf (holds : Bool) : Node → Flow
  | .branch _ thenBody elseBody => .through (if holds then thenBody else elseBody)
  | .discard (some _) => if holds then .stop else .through []
  | .discard none | .ret _ => .stop
  | _ => .through []

/-- The bodies that control may go through after a statement of this node. -/
def Node.ways : Node → List (List NodeId)
  | .branch _ thenBody elseBody => [thenBody, elseBody]
  | _ => [[]]

theorem Node.mem_ways_of_flowIf {node : Node} {holds : Bool} {body : List NodeId}
    (hflow : node.flowIf holds = .through body) : body ∈ node.ways := by
  cases node with
  | branch condition thenBody elseBody =>
    obtain rfl := Flow.through.inj hflow
    cases holds <;> simp [ways]
  | discard condition => cases condition <;> cases holds <;> simp_all [flowIf, ways]
  | ret => cases hflow
  | _ =>
    obtain rfl := Flow.through.inj hflow
    exact List.mem_singleton_self _

theorem Node.ways_of_lists {node : Node} {owner : NodeId} (hlists : node.lists owner = []) :
    node.ways = [[]] := by
  cases node with
  | branch => cases hlists
  | _ => rfl

/-- A statement that is executed, with where control goes after it, and what was left to execute
behind it before. -/
structure Event where
  statement : NodeId
  flow : Flow
  behind : List NodeId
deriving DecidableEq, Repr

/-- A run may end in the middle of a block at this event: a discard fires, or a conditional chooses
an empty body and nothing is left to execute after it. -/
def Event.CutsShort (program : Program) (event : Event) : Prop :=
  (event.flow = .stop ∧ ∃ condition, program.node event.statement = .ok (.discard condition)) ∨
    event.flow = .through [] ∧ event.behind = [] ∧
      ∃ condition thenBody elseBody,
        program.node event.statement = .ok (.branch condition thenBody elseBody)

namespace Program

/-- The statements that are executed of a row, at most so many, if the tests come out like this. -/
def trailFor (program : Program) (outcomes : NodeId → Bool) : (count : Nat) → List NodeId →
    Except Crash (List Event)
  | _, [] => return []
  | 0, _ :: _ => throw .endless
  | count + 1, statement :: rest => do
    let node ← program.node statement
    match node.flowIf (outcomes statement) with
    | .through body =>
      return ⟨statement, .through body, rest⟩ :: (← program.trailFor outcomes count (body ++ rest))
    | .stop => return [⟨statement, .stop, rest⟩]

/-- The statements that are executed from the top of the root list. -/
def trail (program : Program) (outcomes : NodeId → Bool) : Except Crash (List Event) :=
  program.trailFor outcomes program.statementBound program.body

/-- A row of statements can be executed along these events. -/
inductive Trails (program : Program) : List NodeId → List Event → Prop
  | nil : Trails program [] []
  | through {statement : NodeId} {rest body : List NodeId} {node : Node}
    {holds : Bool} {events : List Event} (hnode : program.node statement = .ok node)
    (hflow : node.flowIf holds = .through body) (hlater : Trails program (body ++ rest) events) :
    Trails program (statement :: rest) (⟨statement, .through body, rest⟩ :: events)
  | stop {statement : NodeId} {rest : List NodeId} {node : Node} {holds : Bool}
    (hnode : program.node statement = .ok node) (hflow : node.flowIf holds = .stop) :
    Trails program (statement :: rest) [⟨statement, .stop, rest⟩]

/-- The tests of these events come out like this. -/
def Agrees (program : Program) (outcomes : NodeId → Bool) (events : List Event) : Prop :=
  ∀ event ∈ events, ∃ node, program.node event.statement = .ok node ∧
    node.flowIf (outcomes event.statement) = event.flow

/-- Executing the statements of these events one after the other changes the machine like this. -/
inductive Follows (program : Program) : List Event → Machine → Machine → Prop
  | nil (machine : Machine) : Follows program [] machine machine
  | cons {event : Event} {events : List Event} {machine between machine' : Machine}
    (hevent : Walk.Answers (program.execute event.statement) machine event.flow between)
    (hlater : Follows program events between machine') :
    Follows program (event :: events) machine machine'

variable {program : Program} {outcomes : NodeId → Bool} {events later : List Event}
  {row rest : List NodeId}

namespace Trails

theorem head?_eq (htrails : program.Trails row events) :
    events.head?.map Event.statement = row.head? := by
  cases htrails <;> rfl

/-- A trail ends where a statement stops the run or nothing is left to execute. -/
theorem ends (htrails : program.Trails row events) :
    ∀ event ∈ events.getLast?, event.flow = .stop ∨ event.flow = .through [] ∧
      event.behind = [] := by
  induction htrails with
  | nil => simp
  | @through statement rest body node holds events _ _ hlater ih =>
    cases hlater' : events with
    | nil =>
      rw [hlater'] at hlater
      have hnone := hlater.head?_eq
      obtain ⟨rfl, rfl⟩ : body = [] ∧ rest = [] := by simpa using hnone.symm
      simp
    | cons next events => rwa [List.getLast?_cons_cons, ← hlater']
  | stop => simp

/-- Different statements have tests that come out on their own. -/
theorem exists_agrees (htrails : program.Trails row events)
    (hnodup : (events.map Event.statement).Nodup) : ∃ outcomes, program.Agrees outcomes events := by
  induction htrails with
  | nil => exact ⟨fun _ => true, by simp [Agrees]⟩
  | @through statement rest body node holds events hnode hflow _ ih =>
    obtain ⟨hfirst, hrest⟩ := List.nodup_cons.mp hnodup
    obtain ⟨outcomes, hagrees⟩ := ih hrest
    refine ⟨Function.update outcomes statement holds,
      List.forall_mem_cons.mpr ⟨⟨node, hnode, ?_⟩, ?_⟩⟩
    · rw [Function.update_self, hflow]
    · intro event hevent
      have hne : event.statement ≠ statement := fun hsame =>
        hfirst (List.mem_map.mpr ⟨event, hevent, hsame⟩)
      rw [Function.update_of_ne hne]
      exact hagrees event hevent
  | @stop statement rest node holds hnode hflow =>
    exact ⟨fun _ => holds, List.forall_mem_singleton.mpr ⟨node, hnode, hflow⟩⟩

theorem trailFor_eq (htrails : program.Trails row events)
    (hagrees : program.Agrees outcomes events) {count : Nat}
    (hcount : events.length ≤ count) : program.trailFor outcomes count row = .ok events := by
  induction htrails generalizing count with
  | nil => cases count <;> rfl
  | @through statement rest body node holds events hnode _ _ ih =>
    obtain ⟨count, rfl⟩ : ∃ less, count = less + 1 :=
      ⟨count - 1, by rw [List.length_cons] at hcount; omega⟩
    obtain ⟨⟨node', hnode', hflow⟩, hlater⟩ := List.forall_mem_cons.mp hagrees
    obtain rfl := Except.ok.inj (hnode.symm.trans hnode')
    rw [trailFor, hnode]
    change (match node.flowIf (outcomes statement) with
      | .through body => _
      | .stop => _) = _
    rw [hflow]
    dsimp only
    rw [ih hlater (Nat.le_of_succ_le_succ hcount)]
    rfl
  | @stop statement rest node holds hnode _ =>
    obtain ⟨count, rfl⟩ : ∃ less, count = less + 1 :=
      ⟨count - 1, by rw [List.length_singleton] at hcount; omega⟩
    obtain ⟨node', hnode', hflow⟩ := List.forall_mem_singleton.mp hagrees
    obtain rfl := Except.ok.inj (hnode.symm.trans hnode')
    rw [trailFor, hnode]
    change (match node.flowIf (outcomes statement) with
      | .through body => _
      | .stop => _) = _
    rw [hflow]
    rfl

end Trails

/-! ### Runs of the interpreter -/

/-- A statement sends control where its test says. -/
theorem exists_flowIf_of_execute {id : NodeId} {machine machine' : Machine} {flow : Flow}
    (hexecute : Walk.Answers (program.execute id) machine flow machine') :
    ∃ node holds, program.node id = .ok node ∧ node.flowIf holds = flow := by
  rw [execute] at hexecute
  simp only [Walk.answers_bind, Walk.answers_liftCrash] at hexecute
  obtain ⟨node, _, ⟨hnode, rfl⟩, hexecute⟩ := hexecute
  refine ⟨node, ?_⟩
  simp only [hnode, true_and]
  split at hexecute
  · simp only [Walk.answers_bind, Walk.answers_pure] at hexecute
    obtain ⟨_, _, _, _, _, _, rfl, -⟩ := hexecute
    exact ⟨true, rfl⟩
  · simp only [Walk.answers_bind, Walk.answers_pure] at hexecute
    obtain ⟨_, _, _, rfl, -⟩ := hexecute
    exact ⟨true, rfl⟩
  · simp only [Walk.answers_bind, Walk.answers_pure] at hexecute
    obtain ⟨lanes, _, _, rfl, -⟩ := hexecute
    exact ⟨(lanes.lane 0).isTrue, rfl⟩
  · exact absurd hexecute Walk.answers_throw
  · simp only [Walk.answers_bind, Walk.answers_pure] at hexecute
    obtain ⟨_, _, _, rfl, -⟩ := hexecute
    exact ⟨true, rfl⟩
  · next condition =>
    cases condition with
    | none =>
      simp only [pure_bind, if_pos, Walk.answers_bind, Walk.answers_pure] at hexecute
      obtain ⟨_, _, _, rfl, -⟩ := hexecute
      exact ⟨true, rfl⟩
    | some condition =>
      obtain ⟨lanes, between, -, hexecute⟩ := Walk.answers_bind.mp hexecute
      refine ⟨(lanes.lane 0).isTrue, ?_⟩
      rw [pure_bind] at hexecute
      rw [Node.flowIf]
      split at hexecute
      · next hfires =>
        simp only [Walk.answers_bind, Walk.answers_pure] at hexecute
        obtain ⟨_, _, _, rfl, -⟩ := hexecute
        exact if_pos hfires
      · next hfires =>
        obtain ⟨rfl, -⟩ := Walk.answers_pure.mp hexecute
        exact if_neg hfires
  · exact absurd hexecute Walk.answers_throw

/-- A run of the interpreter goes along a trail. -/
theorem exists_trails_of_executeFor {count : Nat} {machine machine' : Machine} {answer : Unit}
    (hrun : Walk.Answers (program.executeFor count row) machine answer machine') :
    ∃ events, program.Trails row events ∧ events.length ≤ count ∧
      program.Follows events machine machine' := by
  induction count generalizing row machine with
  | zero =>
    cases row with
    | nil =>
      obtain ⟨-, rfl⟩ := Walk.answers_pure.mp hrun
      exact ⟨[], .nil, Nat.le_refl _, .nil _⟩
    | cons => exact absurd hrun Walk.answers_throwCrash
  | succ count ih =>
    cases row with
    | nil =>
      obtain ⟨-, rfl⟩ := Walk.answers_pure.mp hrun
      exact ⟨[], .nil, Nat.zero_le _, .nil _⟩
    | cons statement rest =>
      rw [executeFor] at hrun
      obtain ⟨flow, between, hexecute, hlater⟩ := Walk.answers_bind.mp hrun
      obtain ⟨node, holds, hnode, hflow⟩ := exists_flowIf_of_execute hexecute
      cases flow with
      | through body =>
        obtain ⟨events, htrails, hlength, hfollows⟩ := ih hlater
        exact ⟨_, .through hnode hflow htrails, Nat.succ_le_succ hlength, .cons hexecute hfollows⟩
      | stop =>
        obtain ⟨-, rfl⟩ := Walk.answers_pure.mp hlater
        exact ⟨_, .stop hnode hflow, Nat.succ_le_succ (Nat.zero_le _), .cons hexecute (.nil _)⟩

/-! ### Trails of codes -/

/-- There is a trail of a code for all outcomes of its tests. -/
theorem DrawsCode.exists_trails {code : Code}
    (hdraws : program.DrawsCode code) (outcomes : NodeId → Bool)
    (hlater : ∃ later, program.Trails rest later ∧ program.Agrees outcomes later) :
    ∃ events, program.Trails (code.heads ++ rest) events ∧ program.Agrees outcomes events := by
  induction hdraws generalizing rest with
  | nil => exact hlater
  | @step statement code hstatement hlists _ ih =>
    have hnode := hstatement.node_eq
    cases hflow : statement.node.flowIf (outcomes statement.id) with
    | stop => exact ⟨_, .stop hnode hflow, List.forall_mem_singleton.mpr ⟨_, hnode, hflow⟩⟩
    | through body =>
      obtain ⟨events, htrails, hagrees⟩ := ih hlater
      obtain rfl :=
        List.mem_singleton.mp (Node.ways_of_lists hlists ▸ Node.mem_ways_of_flowIf hflow)
      exact ⟨_, .through hnode hflow htrails, List.forall_mem_cons.mpr ⟨⟨_, hnode, hflow⟩, hagrees⟩⟩
  | @branch statement condition thenBody elseBody code hstatement hbranch _ _ _ ihthen ihelse ih =>
    have hnode := hstatement.node_eq
    have hflow : statement.node.flowIf (outcomes statement.id) =
        .through (if outcomes statement.id then thenBody.heads else elseBody.heads) := by
            rw [hbranch]; rfl
    have hbody : ∃ events, program.Trails
        ((if outcomes statement.id then thenBody.heads else elseBody.heads) ++ (code.heads ++ rest))
          events ∧
          program.Agrees outcomes events := by
      split
      · exact ihthen (ih hlater)
      · exact ihelse (ih hlater)
    obtain ⟨events, htrails, hagrees⟩ := hbody
    exact ⟨_, .through hnode hflow htrails, List.forall_mem_cons.mpr ⟨⟨_, hnode, hflow⟩, hagrees⟩⟩
  | @loop statement body code hstatement hloop _ _ _ ih =>
    have hnode := hstatement.node_eq
    have hflow : statement.node.flowIf (outcomes statement.id) = .through [] := by rw [hloop]; rfl
    obtain ⟨events, htrails, hagrees⟩ := ih hlater
    exact ⟨_, .through hnode hflow htrails, List.forall_mem_cons.mpr ⟨⟨_, hnode, hflow⟩, hagrees⟩⟩

end Program

end ShaderIR
