import ShaderIR.Proofs.Numbering.Noted

/-!
What happens while a block is numbered, one event after the other: a node gets its value, or a
variable is written through a place (`NumberEvent`). `Program.events` lists the events of a
statement in the order of the numbering, and `Program.Passes` says how each of them changes what is
known of the block: a read takes the latest writes to its variable, a computation takes the number
of its key (`Node.keyFrom`), a call that writes arguments takes a number of its own, and a write
extends the history of its variable. A passage keeps the values of nodes
(`Program.Passes.value?_eq`), and what it keeps of all numbers in use is said once
(`Program.Passes.uses`): that they have been handed out (`Program.Passes.bounded`), or that they are
not the number of a call that writes arguments (`Program.Passes.secret_of_call`).
-/

set_option autoImplicit false

namespace ShaderIR

/-! ### Keys read off values -/

/-- The key of a computation whose operands have these values. -/
def Node.keyFrom (value? : NodeId → Option Value) : Node → Option Key
  | .constant value => some (.constant value)
  | .index base place => return .index (← value? base) (← value? place)
  | .field record number => return .field (← value? record) number
  | .swizzle value mask => return .swizzle (← value? value) mask
  | .apply op operands _ => return .apply op (← operands.mapM value?)
  | .texture op channel operands _ =>
    return .texture ⟨op, channel, operands.packedShape, ← operands.toList.mapM value?⟩
  | .call callee arguments _ => return .call callee (← arguments.mapM value?)
  | _ => none

/-- The nodes that a computation takes values from: all children but the place of a result. -/
def Node.inputs : Node → List NodeId
  | .call _ arguments _ => arguments
  | node => node.children

section KeyFrom

variable {value? : NodeId → Option Value}

private theorem mapM_eq_some_iff {ids : List NodeId} {values : List Value} :
    ids.mapM value? = some values ↔
      List.Forall₂ (fun id value => value? id = some value) ids values := by
  induction ids generalizing values with
  | nil => simp [eq_comm]
  | cons id ids ih =>
    simp only [List.mapM_cons, Option.bind_eq_bind, Option.pure_def, Option.bind_eq_some_iff,
      Option.some.injEq, List.forall₂_cons_left_iff, ih]
    exact ⟨fun ⟨value, hvalue, later, hlater, hsame⟩ => ⟨value, later, hvalue, hlater, hsame.symm⟩,
      fun ⟨value, later, hvalue, hlater, hsame⟩ => ⟨value, hvalue, later, hlater, hsame.symm⟩⟩

/-- A key is made of what its node does and of the values that it takes. -/
theorem Node.keyFrom_eq_some_iff {node : Node} {key : Key} : node.keyFrom value? = some key ↔
    node.head? = some key.head ∧
    List.Forall₂ (fun id value => value? id = some value) node.inputs key.operands := by
  cases node <;> cases key <;> simp [keyFrom, head?, Key.head, inputs, children, Key.operands,
    Option.bind_eq_some_iff, mapM_eq_some_iff, TextureKey.ext_iff, and_assoc, and_comm]

theorem Node.keyFrom_mono {value?' : NodeId → Option Value}
    {node : Node} {key : Key} (hkey : node.keyFrom value? = some key)
    (hmono : ∀ id value, value? id = some value → value?' id = some value) :
    node.keyFrom value?' = some key := by
  obtain ⟨hhead, hall⟩ := keyFrom_eq_some_iff.mp hkey
  exact keyFrom_eq_some_iff.mpr ⟨hhead, hall.imp fun id value => hmono id value⟩

end KeyFrom

/-! ### Events -/

/-- What happens while statements are numbered. -/
inductive NumberEvent
  /-- A node gets its value. -/
  | value (id : NodeId)
  /-- A variable is written through a place, a part of it or all of it. -/
  | write (target : NodeId) (root : VarId) (part : Bool)
deriving DecidableEq

/-- The node that gets its value. -/
def NumberEvent.valued? : NumberEvent → Option NodeId
  | .value id => some id
  | .write .. => none

/-- The nodes of an operand get their values one after the other, each after its children. -/
def Tree.events : Tree → List NumberEvent
  | ⟨id, _, children⟩ => children.flatMap events ++ [.value id]

theorem Tree.events_mk (id : NodeId) (node : Node) (children : List Tree) :
    events ⟨id, node, children⟩ = children.flatMap events ++ [.value id] := by
  rw [events]

namespace Program

/-- A store through a place: its indices get values, and then the variable behind it is written. -/
def storeEvents (program : Program) (mask : UInt8) (target : Tree) : List NumberEvent :=
  target.indices.flatMap Tree.events ++
    match target.root?, program.isPartialWrite target.id mask with
    | some root, .ok part => [.write target.id root part]
    | _, _ => []

/-- The events of a statement in the order of its numbering. A call takes its inputs, writes its
arguments, gets a value itself, and then writes its result. -/
def events (program : Program) (statement : Tree) : List NumberEvent :=
  match statement.node, statement.children with
  | .assign _ _ mask, [value, target] => value.events ++ program.storeEvents mask target
  | .call callee arguments _, children =>
    match program.signature callee with
    | .ok signature =>
      let passed := signature.params.zip (children.take arguments.length)
      ((passed.filter fun passed => passed.1.mode = .input).map Prod.snd).flatMap Tree.events ++
        (((passed.filter fun passed => passed.1.mode.writes).map Prod.snd).flatMap
          (program.storeEvents 0) ++
          .value statement.id :: (children.drop arguments.length).flatMap (program.storeEvents 0))
    | .error _ => []
  | _, operands => operands.flatMap Tree.events

theorem storeEvents_eq {program : Program} {target : Tree}
    {mask : UInt8} {root : VarId} {part : Bool}
    (hroot : target.root? = some root) (hpart : program.isPartialWrite target.id mask = .ok part) :
    program.storeEvents mask target = target.indices.flatMap Tree.events ++
      [.write target.id root part] := by
  rw [storeEvents, hroot, hpart]

theorem events_call {program : Program} {id : NodeId}
    {callee : SignatureId} {arguments : List Tree} {result : Option Tree}
    {signature : Signature} (hsignature : program.signature callee = .ok signature) :
    program.events
      ⟨id, .call callee (arguments.map Tree.id) (result.map Tree.id), arguments ++ result.toList⟩ =
      (((signature.params.zip arguments).filter fun passed => passed.1.mode = .input).map
        Prod.snd).flatMap Tree.events ++
        ((((signature.params.zip arguments).filter fun passed => passed.1.mode.writes).map
            Prod.snd).flatMap (program.storeEvents 0) ++ .value id ::
            result.toList.flatMap (program.storeEvents 0)) := by
  rw [events]
  simp only [hsignature]
  rw [List.take_left' (by simp), List.drop_left' (by simp)]

end Program

/-! ### Passing through events -/

namespace Numberer

/-- The same numbering with other nodes noted. -/
def withOccurrences (numberer : Numberer) (occurrences : List (NodeId × ValueNumber)) : Numberer :=
  { numberer with numbering.occurrences := occurrences }

@[simp] theorem occurrences_withOccurrences (numberer : Numberer)
    (occurrences : List (NodeId × ValueNumber)) :
    (numberer.withOccurrences occurrences).numbering.occurrences = occurrences :=
  rfl

/-- All numbers in use have a property, but for the value of the owner. -/
structure Uses (numberer : Numberer) (owner : Option NodeId) (used : ValueNumber → Prop) :
    Prop where
  table : ∀ key number, (key, number) ∈ numberer.table → used number
  histories : ∀ id history, numberer.histories.lookup id = some history → ∀ number ∈ history,
    used number
  values : ∀ id value, (id, value) ∈ numberer.numbering.values → id ∉ owner → ∀ number ∈ value,
    used number

/-- The number has been handed out, and it is known to the owner only. -/
def Secret (numberer : Numberer) (owner : Option NodeId) (number : ValueNumber) : Prop :=
  number.index < numberer.numbering.allocated ∧ numberer.Uses owner (· ≠ number)

/-- All numbers in use have been handed out. -/
def Bounded (numberer : Numberer) : Prop :=
  numberer.Uses none fun number => number.index < numberer.numbering.allocated

/-- What may be written: the value of a node that is no call that writes arguments, or a number that
nobody knows. -/
def Offers (numberer : Numberer) (program : Program) (value : Value) : Prop :=
  (∃ id, program.CallsPurely id ∧ numberer.numbering.value? id = some value) ∨
    ∃ number, value = [number] ∧ numberer.Secret none number

end Numberer

/-- One step of numbering: a number is handed out, or something happens. -/
inductive Program.Happens (program : Program) : Numberer → Option NumberEvent → Numberer → Prop
  | fresh (state : Numberer) : Happens program state none state.fresh.2
  /-- A variable reads as what was written to it. -/
  | read {state : Numberer} {id : NodeId} {read : VarId}
      (hnode : program.node id = .ok (.variable read)) :
    Happens program state (some (.value id)) ((state.read read).2.setValue id (state.read read).1)
  /-- A computation has the number of its key. -/
  | compute {state : Numberer} {id : NodeId} {node : Node} {key : Key}
    {occurrences : List (NodeId × ValueNumber)} (hnode : program.node id = .ok node)
    (hpurely : program.CallsPurely id) (hoccurrences : state.numbering.occurrences ⊆ occurrences)
    (hkey : node.keyFrom state.numbering.value? = some key) :
    Happens program state (some (.value id))
        (((state.numberOf key).2.setValue id [(state.numberOf key).1]).withOccurrences occurrences)
  /-- A call that writes arguments has a number of its own. -/
  | call {state : Numberer} {id : NodeId} {callee : SignatureId}
    {arguments : List NodeId} {result : Option NodeId}
    {signature : Signature} (hnode : program.node id = .ok (.call callee arguments result))
    (hsignature : program.signature callee = .ok signature) (hpure : signature.isPure = false) :
    Happens program state (some (.value id)) (state.fresh.2.setValue id [state.fresh.1])
  | write {state : Numberer} {target : NodeId} {root : VarId} {part : Bool} {value : Value}
    (hvalue : state.Offers program value) :
    Happens program state (some (.write target root part)) (state.write part root value)

/-- The numberer passes through these events in order. -/
inductive Program.Passes (program : Program) : Numberer → List NumberEvent → Numberer → Prop
  | nil (state : Numberer) : Passes program state [] state
  | step {state between stop : Numberer} {event : Option NumberEvent} {events : List NumberEvent}
    (hfirst : program.Happens state event between) (hrest : Passes program between events stop) :
    Passes program state (event.toList ++ events) stop

/-! ### What a passage keeps -/

namespace Numberer

variable {state stop : Numberer} {owner : Option NodeId} {used : ValueNumber → Prop} {bound : Nat}

theorem Uses.mono {used' : ValueNumber → Prop} (huses : state.Uses owner used)
    (hmono : ∀ number, used number → used' number) :
    state.Uses owner used' where
  table key number hmem := hmono number (huses.table key number hmem)
  histories id history hlookup number hmem :=
    hmono number (huses.histories id history hlookup number hmem)
  values id value hmem hother number hnumber :=
    hmono number (huses.values id value hmem hother number hnumber)

theorem Uses.congr (huses : state.Uses owner used) (htable : stop.table = state.table)
    (hhistories : stop.histories = state.histories)
    (hvalues : stop.numbering.values = state.numbering.values) :
    stop.Uses owner used where
  table := htable ▸ huses.table
  histories := hhistories ▸ huses.histories
  values := hvalues ▸ huses.values

theorem uses_nil : Uses {} owner used where
  table _ _ hentry := (List.not_mem_nil hentry).elim
  histories _ _ hlookup := by cases hlookup
  values _ _ hentry := (List.not_mem_nil hentry).elim

theorem mem_values_of_value? {id : NodeId} {value : Value}
    (hvalue : state.numbering.value? id = some value) :
    (id, value) ∈ state.numbering.values := by
  obtain ⟨before, after, hvalues, -⟩ := List.lookup_eq_some_iff.mp hvalue
  rw [hvalues]
  simp

@[simp] theorem value?_setValue_self (id : NodeId) (value : Value) :
    (state.setValue id value).numbering.value? id = some value :=
  List.lookup_cons_self

theorem value?_setValue_of_ne {id other : NodeId} (hne : other ≠ id) (value : Value) :
    (state.setValue id value).numbering.value? other = state.numbering.value? other := by
  have hapart : (other == id) = false := by simpa using hne
  simp [setValue, Numbering.value?, List.lookup_cons, hapart]

@[simp] theorem values_history (id : VarId) :
    (state.history id).2.numbering.values = state.numbering.values := by
  unfold history
  split <;> rfl

@[simp] theorem values_read (id : VarId) :
    (state.read id).2.numbering.values = state.numbering.values :=
  values_history id

@[simp] theorem values_numberOf (key : Key) :
    (state.numberOf key).2.numbering.values = state.numbering.values := by
  unfold numberOf
  split <;> rfl

@[simp] theorem values_write (part : Bool) (root : VarId) (value : Value) :
    (state.write part root value).numbering.values = state.numbering.values := by
  unfold write
  split
  · exact values_history root
  · rfl

/-- One more history is in use. -/
theorem Uses.addHistory (huses : state.Uses owner used) {id : VarId} {history : Value}
    (hhistory : ∀ number ∈ history, used number) (htable : stop.table = state.table)
    (hhistories : stop.histories = (id, history) :: state.histories)
    (hvalues : stop.numbering.values = state.numbering.values) : stop.Uses owner used where
  table := htable ▸ huses.table
  histories other found hlookup number hmem := by
    rw [hhistories, List.lookup_cons] at hlookup
    split at hlookup
    · obtain rfl := Option.some.inj hlookup
      exact hhistory number hmem
    · exact huses.histories other found hlookup number hmem
  values := hvalues ▸ huses.values

/-- One more value is in use. -/
theorem Uses.setValue (huses : state.Uses owner used) {id : NodeId} {value : Value}
    (hvalue : id ∉ owner → ∀ number ∈ value, used number) :
    (state.setValue id value).Uses owner used where
  table := huses.table
  histories := huses.histories
  values other found hmem hother number hnumber := by
    rcases List.mem_cons.mp hmem with hsame | hold
    · obtain ⟨rfl, rfl⟩ := Prod.mk.inj hsame
      exact hvalue hother number hnumber
    · exact huses.values other found hold hother number hnumber

section

variable (huses : state.Uses owner used) (hfresh : ∀ number : ValueNumber,
    state.numbering.allocated ≤ number.index → number.index < bound → used number)

include huses hfresh

theorem Uses.history {id : VarId} (hbound : (state.history id).2.numbering.allocated ≤ bound) :
    (∀ number ∈ (state.history id).1, used number) ∧ (state.history id).2.Uses owner used := by
  rcases state.history_cases id with ⟨history, hlookup, hhistory⟩ | hhistory
  · rw [hhistory]
    exact ⟨huses.histories id history hlookup, huses⟩
  · rw [hhistory] at hbound ⊢
    have hentry : ∀ number ∈ [state.fresh.1], used number :=
      List.forall_mem_singleton.mpr (hfresh _ le_rfl (Nat.lt_of_succ_le hbound))
    exact ⟨hentry, huses.addHistory hentry rfl rfl rfl⟩

theorem Uses.read {id : VarId} (hbound : (state.read id).2.numbering.allocated ≤ bound) :
    (∀ number ∈ (state.read id).1, used number) ∧ (state.read id).2.Uses owner used := by
  obtain ⟨hhistory, hstop⟩ := huses.history hfresh hbound
  exact ⟨fun number hmem => hhistory number (List.mem_of_mem_drop hmem), hstop⟩

theorem Uses.numberOf {key : Key} (hbound : (state.numberOf key).2.numbering.allocated ≤ bound) :
    used (state.numberOf key).1 ∧ (state.numberOf key).2.Uses owner used := by
  obtain ⟨number, hentry, hknows⟩ | ⟨-, hnew⟩ := state.numberOf_cases key
  · rw [hknows]
    exact ⟨huses.table key number hentry, huses⟩
  · rw [hnew] at hbound ⊢
    have hused : used state.fresh.1 := hfresh _ le_rfl (Nat.lt_of_succ_le hbound)
    refine ⟨hused, fun key' number hentry => ?_, huses.histories, huses.values⟩
    obtain ⟨rfl, rfl⟩ | hold := Numberer.mem_table_withKey.mp hentry
    · exact hused
    · exact huses.table key' number hold

theorem Uses.write {part : Bool} {root : VarId} {value : Value}
    (hbound : (state.write part root value).numbering.allocated ≤ bound)
    (hvalue : ∀ number ∈ value, used number) :
    (state.write part root value).Uses owner used := by
  unfold Numberer.write at hbound ⊢
  cases part with
  | true =>
    rw [if_pos rfl, writePart_eq] at hbound ⊢
    have htainted : (state.taint value).Uses owner used := huses.congr rfl rfl rfl
    have hle : ((state.taint value).history root).2.numbering.allocated + 1 ≤ bound := hbound
    obtain ⟨hhistory, hheld⟩ := htainted.history hfresh (Nat.le_of_succ_le hle)
    refine hheld.addHistory (fun number hmem => ?_) rfl rfl rfl
    rcases List.mem_append.mp hmem with hold | hnew
    · exact hhistory number hold
    · obtain rfl := List.mem_singleton.mp hnew
      exact hfresh _ (Advances.history (state.taint value) root).allocated_le hle
  | false =>
    refine huses.addHistory (fun number hmem => ?_) rfl rfl rfl
    rcases List.mem_append.mp hmem with hold | hnew
    · cases hlookup : state.histories.lookup root with
      | none => simp [hlookup] at hold
      | some history =>
        exact huses.histories root history hlookup number (by simpa [hlookup] using hold)
    · exact hvalue number hnew

end

/-- A new number is known to nobody. -/
theorem Bounded.secret_fresh (hbounded : state.Bounded) :
    state.fresh.2.Secret none state.fresh.1 := by
  refine ⟨Nat.lt_succ_self _, Uses.mono (hbounded.congr rfl rfl rfl) fun number hlt => ?_⟩
  rintro rfl
  exact Nat.lt_irrefl _ hlt

end Numberer

namespace Program.Passes

variable {program : Program} {state between stop : Numberer} {events later : List NumberEvent}
  {event : NumberEvent}

theorem of_happens (hfirst : program.Happens state (some event) stop) :
    program.Passes state [event] stop :=
  .step hfirst (.nil _)

theorem trans (hfirst : program.Passes state events between)
    (hsecond : program.Passes between later stop) :
    program.Passes state (events ++ later) stop := by
  induction hfirst with
  | nil => exact hsecond
  | step hfirst _ ih =>
    rw [List.append_assoc]
    exact .step hfirst (ih hsecond)

/-- A passage may be stopped after any of its events. -/
theorem exists_of_append (hpasses : program.Passes state (events ++ later) stop) :
    ∃ between, program.Passes state events between ∧ program.Passes between later stop := by
  generalize hall : events ++ later = all at hpasses
  induction hpasses generalizing events with
  | nil state =>
    obtain ⟨rfl, rfl⟩ := List.append_eq_nil_iff.mp hall
    exact ⟨state, .nil _, .nil _⟩
  | @step state _ stop event rest hfirst hrest ih =>
    cases event with
    | none =>
      obtain ⟨between, hbefore, hafter⟩ := ih hall
      exact ⟨between, .step hfirst hbefore, hafter⟩
    | some event =>
      rcases List.append_eq_cons_iff.mp (show events ++ later = event :: rest from hall)
        with ⟨rfl, rfl⟩ | ⟨events, rfl, hlater⟩
      · exact ⟨state, .nil _, .step hfirst hrest⟩
      · obtain ⟨between, hbefore, hafter⟩ := ih hlater.symm
        exact ⟨between, .step hfirst hbefore, hafter⟩

/-- What happens first happens after some numbers have been handed out. -/
theorem exists_of_cons (hpasses : program.Passes state (event :: later) stop) :
    ∃ before after, program.Passes state [] before ∧ program.Happens before (some event) after ∧
      program.Passes after later stop := by
  generalize hall : event :: later = all at hpasses
  induction hpasses with
  | nil => cases hall
  | @step state after stop first rest hfirst hrest ih =>
    cases first with
    | none =>
      obtain ⟨before, after, hbefore, hevent, hafter⟩ := ih hall
      exact ⟨before, after, .step hfirst hbefore, hevent, hafter⟩
    | some first =>
      obtain ⟨rfl, rfl⟩ := List.cons.inj hall
      exact ⟨state, after, .nil _, hfirst, hrest⟩

end Program.Passes

section Keeps

variable {program : Program} {state stop : Numberer} {event : Option NumberEvent}
  {events : List NumberEvent}

/-! Each step is a growth, and so is a passage. -/

theorem Program.Happens.advances (hhappens : program.Happens state event stop) :
    state.Advances stop := by
  cases hhappens with
  | fresh => exact .fresh _
  | read => exact (Numberer.Advances.read _ _).trans (.setValue _ _ _)
  | @compute id _ key _ _ _ hoccurrences _ =>
    refine ((Numberer.Advances.numberOf state key).trans
      (.setValue _ id [(state.numberOf key).1])).trans (.of_table le_rfl rfl ?_)
    simpa using hoccurrences
  | call => exact (Numberer.Advances.fresh _).trans (.setValue _ _ _)
  | write => exact .write _ _ _ _

theorem Program.Passes.advances (hpasses : program.Passes state events stop) :
    state.Advances stop := by
  induction hpasses with
  | nil => exact .refl _
  | step hfirst _ ih => exact hfirst.advances.trans ih

/-! Values stay as they are, but for the nodes that get one. -/

theorem Program.Happens.value?_eq (hhappens : program.Happens state event stop) {id : NodeId}
    (hother : event ≠ some (.value id)) : stop.numbering.value? id = state.numbering.value? id := by
  cases hhappens with
  | fresh => rfl
  | @read valued read _ =>
    rw [Numberer.value?_setValue_of_ne fun hsame => hother (by rw [hsame])]
    simp [Numbering.value?]
  | @compute valued _ key =>
    change ((state.numberOf key).2.setValue valued [(state.numberOf key).1]).numbering.value? id = _
    rw [Numberer.value?_setValue_of_ne fun hsame => hother (by rw [hsame])]
    simp [Numbering.value?]
  | call =>
    rw [Numberer.value?_setValue_of_ne fun hsame => hother (by rw [hsame])]
    rfl
  | write => simp [Numbering.value?]

theorem Program.Passes.value?_eq (hpasses : program.Passes state events stop) {id : NodeId}
    (hother : .value id ∉ events) : stop.numbering.value? id = state.numbering.value? id := by
  induction hpasses with
  | nil => rfl
  | step hfirst _ ih =>
    rw [List.mem_append, not_or] at hother
    rw [ih hother.2, hfirst.value?_eq fun hsame => hother.1 (by simp [hsame])]

/-- Only nodes that get a value have one in the end. -/
theorem Program.Passes.value_mem (hpasses : program.Passes state events stop)
    {id : NodeId} {value : Value} (hvalue : stop.numbering.value? id = some value)
    (hnone : state.numbering.value? id = none) : .value id ∈ events := by
  by_contra hother
  rw [hpasses.value?_eq hother, hnone] at hvalue
  cases hvalue

theorem Program.Happens.values_subset (hhappens : program.Happens state event stop) :
    state.numbering.values ⊆ stop.numbering.values := by
  cases hhappens with
  | fresh => exact List.Subset.refl _
  | @read _ read _ =>
    rw [← Numberer.values_read read]
    exact List.subset_cons_self _ _
  | @compute _ _ key =>
    rw [← Numberer.values_numberOf key]
    exact List.subset_cons_self _ _
  | call => exact List.subset_cons_self _ _
  | write => simp

/-! What holds of all numbers in use goes on to hold of them if it holds of the numbers that are
handed out, and of those that are written without being the value of a node. -/

section Uses

variable {owner : Option NodeId} {used : ValueNumber → Prop} {bound : Nat}
  (huses : state.Uses owner used) (howner : ∀ id ∈ owner, ¬ program.CallsPurely id)
  (hfresh : ∀ number : ValueNumber, state.numbering.allocated ≤ number.index →
    number.index < bound → used number) (hbound : stop.numbering.allocated ≤ bound)

include huses howner hfresh hbound

theorem Program.Happens.uses (hhappens : program.Happens state event stop)
    (hsecret : ∀ target root part,
      event = some (.write target root part) → ∀ number, state.Secret none number →
      used number) : stop.Uses owner used := by
  have hnew (hnext : state.numbering.allocated + 1 ≤ bound) : used state.fresh.1 :=
    hfresh _ le_rfl (Nat.lt_of_succ_le hnext)
  cases hhappens with
  | fresh => exact huses.congr rfl rfl rfl
  | read =>
    obtain ⟨hvalue, hread⟩ := huses.read hfresh hbound
    exact hread.setValue fun _ => hvalue
  | compute =>
    obtain ⟨hnumber, hcounted⟩ := huses.numberOf hfresh hbound
    exact (hcounted.setValue fun _ => List.forall_mem_singleton.mpr hnumber).congr rfl rfl rfl
  | call =>
    have hstart : state.fresh.2.Uses owner used := huses.congr rfl rfl rfl
    exact hstart.setValue fun _ => List.forall_mem_singleton.mpr (hnew hbound)
  | @write target root part value hvalue =>
    refine huses.write hfresh hbound ?_
    obtain ⟨id, hpurely, hvalue⟩ | ⟨number, rfl, hnumber⟩ := hvalue
    · exact huses.values id value (Numberer.mem_values_of_value? hvalue) fun hid =>
        howner id hid hpurely
    · exact List.forall_mem_singleton.mpr (hsecret target root part rfl number hnumber)

theorem Program.Passes.uses (hpasses : program.Passes state events stop)
    (hsecret : ∀ target root part, .write target root part ∈ events →
      ∀ (between : Numberer) (number : ValueNumber),
      state.numbering.values ⊆ between.numbering.values → between.numbering.allocated ≤ bound →
        between.Secret none number → used number) : stop.Uses owner used := by
  induction hpasses with
  | nil => exact huses
  | @step state between stop event events hfirst hrest ih =>
    have hbetween := hrest.advances.allocated_le.trans hbound
    refine ih (hfirst.uses huses howner hfresh hbetween
      fun target root part hwrite number hnumber => ?_)
      (fun number hge => hfresh number (hfirst.advances.allocated_le.trans hge)) hbound
      fun target root part hwrite later number hsubset hlater hnumber => ?_
    · exact hsecret target root part (by simp [hwrite]) state number (List.Subset.refl _)
        (hfirst.advances.allocated_le.trans hbetween) hnumber
    · exact hsecret target root part (List.mem_append_right _ hwrite) later number
        (List.Subset.trans hfirst.values_subset hsubset) hlater hnumber

end Uses

/-- All numbers in use go on to be numbers that have been handed out. -/
theorem Program.Passes.bounded (hpasses : program.Passes state events stop)
    (hbounded : state.Bounded) : stop.Bounded :=
  hpasses.uses (hbounded.mono fun _ hlt => hlt.trans_le hpasses.advances.allocated_le) nofun
    (fun _ _ hlt => hlt) le_rfl fun _ _ _ _ _ _ _ hle hnumber => hnumber.1.trans_le hle

/-- A number that nobody knows goes on to be known to nobody if nothing is written. -/
theorem Program.Passes.secret (hpasses : program.Passes state events stop) {number : ValueNumber}
    (hsecret : state.Secret none number)
    (hreads : ∀ target root part, .write target root part ∉ events) :
    stop.Secret none number := by
  refine ⟨hsecret.1.trans_le hpasses.advances.allocated_le, hpasses.uses hsecret.2 nofun ?_ le_rfl
    fun target root part hwrite => (hreads target root part hwrite).elim⟩
  rintro _ hge - rfl
  exact Nat.lt_irrefl _ (hsecret.1.trans_le hge)

/-- The number of a call that writes arguments stays a secret of the call. -/
theorem Program.Passes.secret_of_call (hpasses : program.Passes state events stop)
    {id : NodeId} {number : ValueNumber}
    (hsecret : state.Secret (some id) number) (hcall : ¬ program.CallsPurely id)
    (hvalue : (id, [number]) ∈ state.numbering.values) : stop.Secret (some id) number := by
  refine ⟨hsecret.1.trans_le hpasses.advances.allocated_le, hpasses.uses hsecret.2 ?_ ?_ le_rfl ?_⟩
  · rintro _ hid
    obtain rfl := Option.mem_some.mp hid
    exact hcall
  · rintro _ hge - rfl
    exact Nat.lt_irrefl _ (hsecret.1.trans_le hge)
  · -- whoever reads the value of the call knows the number
    rintro _ _ _ _ between _ hsubset - hother rfl
    exact hother.2.values id _ (hsubset hvalue) (by simp) _ (List.mem_singleton_self _) rfl

end Keeps

end ShaderIR
