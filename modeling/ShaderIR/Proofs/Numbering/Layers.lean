import ShaderIR.Proofs.Numbering.Passages
import ShaderIR.Proofs.Numbering.Types

/-!
What reads of a variable have to do with the writes before them. A write to a part of a variable
puts a new number on top of its history (`Program.Happens.exists_layer`), and all reads up to the
next full write have this number in their value (`Program.Passes.covers`,
`Numberer.Covers.mem_read`); a node that got its value earlier does not have it, so no such read
looks like an earlier node (`Graph.layers_of_numberStatements`).

Between writes the history of a variable stays as it is (`Program.Passes.lookup_eq`), but two reads
of it need not agree: a write to a part of another variable taints the number that it stores, and if
that number was the last full write, the second read goes back further than the first one.
`Graph.suffix_of_numberStatements` says how they are related.
-/

set_option autoImplicit false

namespace ShaderIR

namespace Numberer

/-! ### The latest writes -/

section Latest

variable {isPartial isPartial' : ValueNumber → Bool} {before after : Value} {number : ValueNumber}

/-- All of the latest writes but the first one are partial. -/
theorem isPartial_of_mem_tail_latest {history : Value}
    (hmem : number ∈ (latest isPartial history).tail) :
    isPartial number = true := by
  have hlayers :=
    List.prefix_iff_eq_take.mp (List.takeWhile_prefix isPartial (l := history.reverse))
  rw [List.take_reverse] at hlayers
  rw [latest, List.tail_drop] at hmem
  have hlater := List.drop_subset_drop_left history (show history.length -
    (history.reverse.takeWhile isPartial).length ≤ _ by omega) hmem
  rw [← List.mem_reverse, ← hlayers] at hlater
  exact List.all_eq_true.mp List.all_takeWhile number hlater

/-- The latest writes go back as long as the writes are partial. -/
theorem mem_latest (hlayers : ∀ layer ∈ number :: after, isPartial layer = true) :
    number ∈ latest isPartial (before ++ number :: after) := by
  rcases latest_cases isPartial (before ++ number :: after)
    with hall | ⟨earlier, full, later, hsplit, hfull, hlatest⟩
  · rw [hall]
    simp
  · rw [hlatest]
    have hapart : full ∉ number :: after :=
      fun hmem => Bool.false_ne_true (hfull.symm.trans (hlayers full hmem))
    rcases List.append_eq_append_iff.mp hsplit
      with ⟨between, hearlier, hlater⟩ | ⟨between, hbefore, hlater⟩
    · exact (hapart (hlater ▸ by simp)).elim
    · cases between with
      | nil =>
        rw [List.nil_append] at hlater
        exact (hapart (hlater ▸ List.mem_cons_self)).elim
      | cons first between =>
        obtain ⟨-, rfl⟩ := List.cons.inj hlater
        simp

theorem latest_ne_nil (isPartial : ValueNumber → Bool) {history : Value} (hne : history ≠ []) :
    latest isPartial history ≠ [] := by
  rcases latest_cases isPartial history with hall | ⟨_, _, _, -, -, hlatest⟩
  · rwa [hall]
  · simp [hlatest]

theorem length_takeWhile_le (hmono : ∀ number, isPartial number = true → isPartial' number = true)
    (history : Value) :
    (history.takeWhile isPartial).length ≤ (history.takeWhile isPartial').length := by
  induction history with
  | nil => exact le_rfl
  | cons first history ih =>
    by_cases hfirst : isPartial first = true
    · simpa [List.takeWhile_cons, hfirst, hmono first hfirst] using ih
    · simp [List.takeWhile_cons, hfirst]

/-- With more partial writes, the latest writes go back further. -/
theorem latest_suffix_latest (hmono : ∀ number, isPartial number = true → isPartial' number = true)
    (history : Value) : latest isPartial history <:+ latest isPartial' history := by
  have hle := length_takeWhile_le hmono history.reverse
  exact List.drop_suffix_drop_left _ (by omega)

end Latest

/-! ### Histories -/

section Histories

variable {state : Numberer} {root other : VarId} {history : Value}

theorem history_of_lookup (hlookup : state.histories.lookup root = some history)
    (hne : history ≠ []) : state.history root = (history, state) := by
  cases history with
  | nil => exact (hne rfl).elim
  | cons => rw [Numberer.history, hlookup]

theorem lookup_history (hlookup : state.histories.lookup root = some history) (hne : history ≠ []) :
    (state.history other).2.histories.lookup root = some history := by
  by_cases hsame : root = other
  · rw [← hsame, history_of_lookup hlookup hne, hlookup]
  · rcases state.history_cases other with ⟨_, -, hhistory⟩ | hhistory
    · rw [hhistory, hlookup]
    · rw [hhistory]
      change List.lookup root ((other, [state.fresh.1]) :: state.histories) = _
      rw [List.lookup_cons, beq_eq_false_iff_ne.mpr hsame, hlookup]

/-- What a variable has been asked for is there. -/
theorem lookup_history_self (state : Numberer) (root : VarId) :
    (state.history root).2.histories.lookup root = some (state.history root).1 ∧
    (state.history root).1 ≠ [] := by
  unfold Numberer.history
  split
  · next hlookup => exact ⟨hlookup, List.cons_ne_nil _ _⟩
  · exact ⟨List.lookup_cons_self, List.cons_ne_nil _ _⟩

/-- A write to a part of a variable puts a new number on top of its history, the last one to be
handed out. -/
theorem lookup_writePart (state : Numberer) (root : VarId) (value : Value) :
    (state.writePart root value).histories.lookup root =
      some (((state.taint value).history root).1 ++
        [⟨(state.writePart root value).numbering.allocated - 1⟩]) := by
  rw [writePart_eq]
  exact List.lookup_cons_self

theorem mem_partials_writePart (state : Numberer) (root : VarId) (value : Value) :
    ⟨(state.writePart root value).numbering.allocated - 1⟩ ∈
      (state.writePart root value).numbering.partials :=
  List.mem_cons_self

theorem allocated_lt_writePart (state : Numberer) (root : VarId) (value : Value) :
    state.numbering.allocated < (state.writePart root value).numbering.allocated :=
  Nat.lt_succ_of_le (Advances.history (state.taint value) root).allocated_le

theorem lookup_write_of_ne (hapart : root ≠ other) (part : Bool) (value : Value)
    (hlookup : state.histories.lookup root = some history) (hne : history ≠ []) :
    (state.write part other value).histories.lookup root = some history := by
  have hkey : (root == other) = false := beq_eq_false_iff_ne.mpr hapart
  cases part with
  | true =>
    have htainted : (state.taint value).histories.lookup root = some history := hlookup
    change List.lookup root ((other, _) :: ((state.taint value).history other).2.histories) = _
    rw [List.lookup_cons, hkey]
    exact lookup_history htainted hne
  | false =>
    change List.lookup root ((other, _) :: state.histories) = _
    rw [List.lookup_cons, hkey]
    exact hlookup

theorem partials_subset_write (state : Numberer) (part : Bool) (root : VarId) (value : Value) :
    state.numbering.partials ⊆ (state.write part root value).numbering.partials := by
  cases part with
  | true =>
    change _ ⊆ _ :: ((state.taint value).history root).2.numbering.partials
    rw [partials_history]
    exact List.subset_cons_of_subset _ (List.subset_append_right _ _)
  | false => exact List.Subset.refl _

/-- The variable was written in part, and since then in part only. -/
def Covers (numberer : Numberer) (root : VarId) (layer : ValueNumber) : Prop :=
  ∃ before after, numberer.histories.lookup root = some (before ++ layer :: after) ∧
    ∀ number ∈ layer :: after, number ∈ numberer.numbering.partials

theorem Covers.mem_read {layer : ValueNumber} (hcovers : state.Covers root layer) :
    layer ∈ (state.read root).1 := by
  obtain ⟨before, after, hlookup, hlayers⟩ := hcovers
  rw [read, history_of_lookup hlookup (by simp)]
  exact mem_latest fun number hmem => List.contains_iff_mem.mpr (hlayers number hmem)

theorem covers_writePart (state : Numberer) (root : VarId) (value : Value) :
    (state.writePart root value).Covers root
      ⟨(state.writePart root value).numbering.allocated - 1⟩ :=
  ⟨_, [], lookup_writePart state root value,
    List.forall_mem_singleton.mpr (mem_partials_writePart state root value)⟩

theorem Covers.writePart {layer : ValueNumber} (hcovers : state.Covers root layer) (value : Value) :
    (state.writePart root value).Covers root layer := by
  obtain ⟨before, after, hlookup, hlayers⟩ := hcovers
  have htainted :
      (state.taint value).histories.lookup root = some (before ++ layer :: after) := hlookup
  have hhistory := history_of_lookup htainted (by simp)
  have hlookup' := lookup_writePart state root value
  rw [hhistory, List.append_assoc, List.cons_append] at hlookup'
  refine ⟨before, _, hlookup', fun number hmem => ?_⟩
  rw [← List.cons_append, List.mem_append, List.mem_singleton] at hmem
  rcases hmem with hold | rfl
  · exact partials_subset_write state true root value (hlayers number hold)
  · exact mem_partials_writePart state root value

end Histories

end Numberer

/-! ### Writes in a passage -/

section Passages

variable {program : Program} {state stop : Numberer} {event : Option NumberEvent}
  {events : List NumberEvent} {root : VarId} {layer : ValueNumber} {history : Value}

theorem Program.Happens.partials_subset (hhappens : program.Happens state event stop) :
    state.numbering.partials ⊆ stop.numbering.partials := by
  cases hhappens with
  | fresh | call => exact List.Subset.refl _
  | @read _ read _ =>
    rw [← Numberer.partials_history read]
    exact List.Subset.refl _
  | @compute _ _ key =>
    rw [← Numberer.partials_numberOf key]
    exact List.Subset.refl _
  | write => exact Numberer.partials_subset_write _ _ _ _

theorem Program.Passes.partials_subset (hpasses : program.Passes state events stop) :
    state.numbering.partials ⊆ stop.numbering.partials := by
  induction hpasses with
  | nil => exact List.Subset.refl _
  | step hfirst _ ih => exact List.Subset.trans hfirst.partials_subset ih

/-- A history stays as it is while its variable is not written. -/
theorem Program.Happens.lookup_eq (hhappens : program.Happens state event stop)
    (hlookup : state.histories.lookup root = some history) (hne : history ≠ [])
    (hother : ∀ target part, event ≠ some (.write target root part)) :
    stop.histories.lookup root = some history := by
  cases hhappens with
  | fresh | call => exact hlookup
  | read => exact Numberer.lookup_history hlookup hne
  | @compute _ _ key => exact (Numberer.histories_numberOf state key).symm ▸ hlookup
  | @write target other part value =>
    exact Numberer.lookup_write_of_ne (fun hsame => hother target part (by rw [hsame])) part value
      hlookup hne

theorem Program.Passes.lookup_eq (hpasses : program.Passes state events stop)
    (hlookup : state.histories.lookup root = some history) (hne : history ≠ [])
    (hother : ∀ target part, .write target root part ∉ events) :
    stop.histories.lookup root = some history := by
  induction hpasses with
  | nil => exact hlookup
  | step hfirst _ ih =>
    refine ih (hfirst.lookup_eq hlookup hne fun target part hwrite => ?_) fun target part hmem => ?_
    · exact hother target part (by simp [hwrite])
    · exact hother target part (List.mem_append_right _ hmem)

theorem Program.Happens.covers (hhappens : program.Happens state event stop)
    (hcovers : state.Covers root layer)
    (hother : ∀ target, event ≠ some (.write target root false)) : stop.Covers root layer := by
  by_cases hwrite : ∃ target, event = some (.write target root true)
  · obtain ⟨target, rfl⟩ := hwrite
    cases hhappens with
    | write => exact hcovers.writePart _
  · obtain ⟨before, after, hlookup, hlayers⟩ := hcovers
    refine ⟨before, after, hhappens.lookup_eq hlookup (by simp) fun target part hsame => ?_,
      fun number hmem =>
        hhappens.partials_subset (hlayers number hmem)⟩
    cases part with
    | true => exact hwrite ⟨target, hsame⟩
    | false => exact hother target hsame

/-- A write to a part of a variable stays in its history up to the next full write. -/
theorem Program.Passes.covers (hpasses : program.Passes state events stop)
    (hcovers : state.Covers root layer) (hother : ∀ target, .write target root false ∉ events) :
    stop.Covers root layer := by
  induction hpasses with
  | nil => exact hcovers
  | step hfirst _ ih =>
    refine ih (hfirst.covers hcovers fun target hwrite => ?_) fun target hmem => ?_
    · exact hother target (by simp [hwrite])
    · exact hother target (List.mem_append_right _ hmem)

theorem Program.Happens.eq_of_read {id : NodeId}
    (hhappens : program.Happens state (some (.value id)) stop)
    (hread : program.node id = .ok (.variable root)) :
    stop = (state.read root).2.setValue id (state.read root).1 := by
  cases hhappens with
  | read hnode =>
    obtain rfl := Node.variable.inj (Except.ok.inj (hnode.symm.trans hread))
    rfl
  | compute hnode _ _ hkey =>
    obtain rfl := Except.ok.inj (hnode.symm.trans hread)
    cases hkey
  | call hnode => exact nomatch hnode.symm.trans hread

/-- A node that reads a variable gets its value at one point of a passage. -/
theorem Program.Passes.exists_of_read {span rest : List NumberEvent} {id : NodeId}
    (hpasses : program.Passes state (span ++ .value id :: rest) stop)
    (hnodup : (NumberEvent.valued (span ++ .value id :: rest)).Nodup)
    (hread : program.node id = .ok (.variable root)) :
    ∃ between, program.Passes state span between ∧
      stop.numbering.value? id = some (between.read root).1 ∧
      program.Passes ((between.read root).2.setValue id (between.read root).1) rest stop := by
  obtain ⟨middle, hspan, hlater⟩ := hpasses.exists_of_append
  obtain ⟨between, after, hsilent, hevent, hrest⟩ := hlater.exists_of_cons
  obtain rfl := hevent.eq_of_read hread
  rw [NumberEvent.valued_append, NumberEvent.valued_cons_value, List.nodup_append', List.nodup_cons,
    NumberEvent.mem_valued] at hnodup
  refine ⟨between, by simpa using hspan.trans hsilent, ?_, hrest⟩
  rw [hrest.value?_eq hnodup.2.1.1]
  exact Numberer.value?_setValue_self _ _

/-- The states of a passage around its events. -/
theorem Program.Passes.exists_states (hpasses : program.Passes state events stop) :
    ∃ states : Nat → Numberer × Numberer, ∀ before event after, events = before ++ event :: after →
      program.Passes state before (states before.length).1 ∧
      program.Happens (states before.length).1 (some event) (states before.length).2 ∧
      program.Passes (states before.length).2 after stop ∧
      ∀ span event' rest, after = span ++ event' :: rest →
        program.Passes (states before.length).2 span
          (states (before ++ event :: span).length).1 := by
  induction hpasses with
  | nil state => exact ⟨fun _ => (state, state), fun before event after hsplit => by simp at hsplit⟩
  | @step state between stop event events hfirst hrest ih =>
    obtain ⟨states, hstates⟩ := ih
    cases event with
    | none =>
      refine ⟨states, fun before event after hsplit => ?_⟩
      obtain ⟨hbefore, hrest⟩ := hstates before event after hsplit
      exact ⟨.step hfirst hbefore, hrest⟩
    | some event =>
      refine ⟨fun place => place.casesOn (state, between) states,
        fun before event' after hsplit => ?_⟩
      cases before with
      | nil =>
        obtain ⟨rfl, rfl⟩ := List.cons.inj hsplit
        exact ⟨.nil _, hfirst, hrest,
          fun span event' rest hspan => (hstates span event' rest hspan).1⟩
      | cons first before =>
        obtain ⟨rfl, htail⟩ := List.cons.inj hsplit
        obtain ⟨hbefore, hevent, hafter, hspans⟩ := hstates before event' after htail
        exact ⟨.step hfirst hbefore, hevent, hafter, hspans⟩

/-- Of two places in a row, one lies in front of the other one. -/
theorem exists_span_of_lt {α : Type} {first second : α} {before after before' after' : List α}
    (hsplit : before ++ first :: after = before' ++ second :: after')
    (hlt : before.length < before'.length) :
    ∃ span, before' = before ++ first :: span ∧ after = span ++ second :: after' := by
  rcases List.append_eq_append_iff.mp hsplit with ⟨between, rfl, hbetween⟩ | ⟨between, rfl, -⟩
  · cases between with
    | nil => simp at hlt
    | cons head span =>
      obtain ⟨rfl, hafter⟩ := List.cons.inj hbetween
      exact ⟨span, rfl, hafter⟩
  · simp only [List.length_append] at hlt
    omega

/-- Numbers that are written on top of a history are new. -/
theorem Program.Happens.exists_layer {target : NodeId}
    (hhappens : program.Happens state (some (.write target root true)) stop) :
    state.numbering.allocated < stop.numbering.allocated ∧
    stop.Covers root ⟨stop.numbering.allocated - 1⟩ := by
  cases hhappens with
  | @write _ _ _ value =>
    exact ⟨Numberer.allocated_lt_writePart state root value,
      Numberer.covers_writePart state root value⟩

end Passages

/-! ### Blocks -/

namespace Graph

variable {program : Program} {config limits : Config} {graph : Graph} {block : BasicBlock}
  {statements : List NodeId} {numbering : Numbering} {events : List NumberEvent}

/-- Each write to a part of a variable has a number, which has to do with such writes, occurs in no
value that was there before the write, belongs to no other such write, and occurs in the value of
all reads of the variable before the next full write to it, so that none of these reads has the
value of a node from before the write. -/
theorem layers_of_numberStatements (hcheck : program.check = .ok ())
    (hbuild : Query.Answers (build program limits) graph) (hblock : block ∈ graph.blocks)
    (hstatements : block.statements program = .ok statements)
    (hnumbering : Query.Answers (program.numberStatements statements config) numbering)
    (hevents : program.EventsOf statements events) :
    ∃ layer : Nat → ValueNumber, ∀ before target root after,
      events = before ++ .write target root true :: after →
      numbering.isPartial (layer before.length) = true ∧
      (∀ id value, .value id ∈ before →
        numbering.value? id = some value → layer before.length ∉ value) ∧
      (∀ before' target' root' after', events = before' ++ .write target' root' true :: after' →
        before'.length ≠ before.length → layer before'.length ≠ layer before.length) ∧
      ∀ span id rest, after = span ++ .value id :: rest → program.node id = .ok (.variable root) →
        (∀ target', .write target' root false ∉ span) →
        ∃ value, numbering.value? id = some value ∧ layer before.length ∈ value ∧
          ∀ earlier value', .value earlier ∈ before → numbering.value? earlier = some value' →
            value ≠ value' := by
  obtain ⟨hnodup, stop, hpasses, rfl⟩ :=
    exists_passes_of_numberStatements hcheck hbuild hblock hstatements hnumbering hevents
  obtain ⟨states, hstates⟩ := hpasses.exists_states
  refine ⟨fun place => ⟨(states place).2.numbering.allocated - 1⟩,
    fun before target root after hsplit => ?_⟩
  obtain ⟨hbefore, hwrite, hafter, hspans⟩ := hstates before _ after hsplit
  obtain ⟨hnew, hcovers⟩ := hwrite.exists_layer
  have hold {id : NodeId} {value : Value} (hid : .value id ∈ before)
      (hvalue : stop.numbering.value? id = some value) :
      ⟨(states before.length).2.numbering.allocated - 1⟩ ∉ value := by
    intro hmem
    have hlater : .value id ∉ .write target root true :: after := fun hlater => by
      rw [hsplit, NumberEvent.valued_append, List.nodup_append'] at hnodup
      exact hnodup.2.2 (NumberEvent.mem_valued.mpr hid) (NumberEvent.mem_valued.mpr hlater)
    rw [(Program.Passes.step hwrite hafter).value?_eq hlater] at hvalue
    have hbound := (hbefore.bounded Numberer.uses_nil).values id value
      (Numberer.mem_values_of_value? hvalue) (by simp) _ hmem
    exact absurd hbound (by change ¬ (_ - 1 < _); omega)
  refine ⟨?_, fun id value => hold, fun before' target' root' after' hsplit' hne hsame => ?_,
    fun span id rest hrest hread hother => ?_⟩
  · obtain ⟨_, _, -, hlayers⟩ := hcovers
    exact List.contains_iff_mem.mpr (hafter.partials_subset (hlayers _ List.mem_cons_self))
  · obtain ⟨hbefore', hwrite', hafter', hspans'⟩ := hstates before' _ after' hsplit'
    have hnew' := hwrite'.exists_layer.1
    have hsame : (states before'.length).2.numbering.allocated - 1 =
        (states before.length).2.numbering.allocated - 1 :=
      congrArg ValueNumber.index hsame
    rcases Nat.lt_or_gt_of_ne hne with hlt | hlt
    · obtain ⟨span, rfl, hspan⟩ := exists_span_of_lt (hsplit'.symm.trans hsplit) hlt
      have hle := (hspans' span _ _ hspan).advances.allocated_le
      omega
    · obtain ⟨span, rfl, hspan⟩ := exists_span_of_lt (hsplit.symm.trans hsplit') hlt
      have hle := (hspans span _ _ hspan).advances.allocated_le
      omega
  · subst hrest
    have hlater : (NumberEvent.valued (span ++ .value id :: rest)).Nodup := by
      rw [hsplit, NumberEvent.valued_append, NumberEvent.valued_cons_write, List.nodup_append']
        at hnodup
      exact hnodup.2.1
    obtain ⟨between, hspan, hvalue, -⟩ := hafter.exists_of_read hlater hread
    have hmem := (hspan.covers hcovers hother).mem_read
    exact ⟨_, hvalue, hmem, fun earlier value' hearlier hvalue' hsame =>
      hold hearlier hvalue' (hsame ▸ hmem)⟩

/-- Of two reads of a variable with no write to it in between, the later one goes back at least as
far as the earlier one, and no further if what the earlier one goes back to has never to do with a
partial write. -/
theorem suffix_of_numberStatements (hcheck : program.check = .ok ())
    (hbuild : Query.Answers (build program limits) graph) (hblock : block ∈ graph.blocks)
    (hstatements : block.statements program = .ok statements)
    (hnumbering : Query.Answers (program.numberStatements statements config) numbering)
    (hevents : program.EventsOf statements events)
    {before span after : List NumberEvent} {id id' : NodeId} {root : VarId}
    (hsplit : events = before ++ .value id :: (span ++ .value id' :: after))
    (hread : program.node id = .ok (.variable root))
    (hread' : program.node id' = .ok (.variable root))
    (hother : ∀ target part, .write target root part ∉ span) :
    ∃ earlier first layers, numbering.value? id = some (first :: layers) ∧
      numbering.value? id' = some (earlier ++ first :: layers) ∧
      (numbering.isPartial first = false → earlier = []) := by
  obtain ⟨hnodup, stop, hpasses, rfl⟩ :=
    exists_passes_of_numberStatements hcheck hbuild hblock hstatements hnumbering hevents
  subst hsplit
  obtain ⟨state, -, hvalue, hafter⟩ := hpasses.exists_of_read hnodup hread
  have hlater : (NumberEvent.valued (span ++ .value id' :: after)).Nodup := by
    rw [NumberEvent.valued_append, NumberEvent.valued_cons_value, List.nodup_append',
      List.nodup_cons] at hnodup
    exact hnodup.2.1.2
  obtain ⟨between, hspan, hvalue', hrest⟩ := hafter.exists_of_read hlater hread'
  obtain ⟨hlookup, hne⟩ := state.lookup_history_self root
  have hsame := Numberer.history_of_lookup (hspan.lookup_eq hlookup hne hother) hne
  rw [Numberer.read, hsame] at hvalue'
  have hpartials : (state.history root).2.numbering.partials ⊆ between.numbering.partials :=
    hspan.partials_subset
  have hmono (number : ValueNumber)
      (hpartial : (state.history root).2.numbering.isPartial number = true) :
      between.numbering.isPartial number = true :=
    List.contains_iff_mem.mpr (hpartials (List.contains_iff_mem.mp hpartial))
  obtain ⟨earlier, hearlier⟩ := Numberer.latest_suffix_latest hmono (state.history root).1
  obtain ⟨first, layers, hfirst⟩ := List.exists_cons_of_ne_nil (Numberer.latest_ne_nil
    (state.history root).2.numbering.isPartial hne)
  rw [hfirst] at hearlier
  refine ⟨earlier, first, layers, hvalue.trans (congrArg some hfirst),
    hvalue'.trans (congrArg some hearlier.symm), fun hfull => ?_⟩
  by_contra hlonger
  obtain ⟨head, tail, rfl⟩ := List.exists_cons_of_ne_nil hlonger
  have hmem : first ∈ (Numberer.latest between.numbering.isPartial (state.history root).1).tail :=
    hearlier ▸ by simp
  have hpartial := Numberer.isPartial_of_mem_tail_latest hmem
  have hlast :=
    (Program.Passes.step (.read hread') hrest).partials_subset (List.contains_iff_mem.mp hpartial)
  exact Bool.false_ne_true (hfull.symm.trans (List.contains_iff_mem.mpr hlast))

/-- A variable is written twice and read. Then a part of another variable is written with what it
holds, and both are read. -/
def taintedCopy : Program where
  nodes := #[.variable ⟨2⟩, .variable ⟨0⟩, .assign ⟨0⟩ ⟨1⟩ 0, .variable ⟨2⟩, .variable ⟨1⟩,
    .assign ⟨3⟩ ⟨4⟩ 0, .variable ⟨3⟩, .variable ⟨2⟩, .assign ⟨6⟩ ⟨7⟩ 0, .variable ⟨4⟩,
    .variable ⟨1⟩, .assign ⟨9⟩ ⟨10⟩ 1, .variable ⟨3⟩, .variable ⟨2⟩, .assign ⟨12⟩ ⟨13⟩ 0,
    .variable ⟨5⟩, .variable ⟨4⟩, .assign ⟨15⟩ ⟨16⟩ 0]
  vars := #[⟨"p", .float, .input⟩, ⟨"q", .float, .input⟩, ⟨"x", .float, .auto⟩,
    ⟨"a", .float, .auto⟩, ⟨"y", .vector .float 2, .auto⟩, ⟨"z", .vector .float 2, .auto⟩]
  body := [⟨2⟩, ⟨5⟩, ⟨8⟩, ⟨11⟩, ⟨14⟩, ⟨17⟩]

/-- The block of `taintedCopy`. -/
def taintedCopyBlock : BasicBlock where
  id := ⟨0⟩
  ranges := [⟨.root, ⟨2⟩, ⟨17⟩⟩]

/-- What is known of the block of `taintedCopy`. -/
def taintedCopyNumbering : Numbering where
  values := [(⟨16⟩, [⟨2⟩, ⟨3⟩]), (⟨13⟩, [⟨0⟩, ⟨1⟩]), (⟨10⟩, [⟨1⟩]), (⟨7⟩, [⟨1⟩]), (⟨4⟩, [⟨1⟩]),
    (⟨1⟩, [⟨0⟩])]
  partials := [⟨3⟩, ⟨1⟩]
  allocated := 4

/-- An assignment of one variable to another one. -/
def copyTree (statement target value : NodeId) (written read : VarId) (mask : UInt8) : Tree :=
  ⟨statement, .assign target value mask,
    [⟨value, .variable read, []⟩, ⟨target, .variable written, []⟩]⟩

theorem draws_copyTree {statement target value : NodeId} {written read : VarId} {mask : UInt8}
    (hstatement : program.node statement = .ok (.assign target value mask))
    (htarget : program.node target = .ok (.variable written))
    (hvalue : program.node value = .ok (.variable read)) :
    program.Draws (copyTree statement target value written read mask) :=
  .intro hstatement rfl (by simpa using ⟨.intro hvalue rfl (by simp), .intro htarget rfl (by simp)⟩)

theorem events_copyTree (statement target value : NodeId) (written read : VarId)
    {mask : UInt8} (part : Bool) (hpart : program.isPartialWrite target mask = .ok part) :
    program.events (copyTree statement target value written read mask) =
      [.value value, .write target written part] := by
  rw [copyTree, Program.events]
  simp [Program.storeEvents, Tree.events_mk, Tree.indices, Tree.root?, Tree.fold_mk, hpart]

theorem eventsOf_taintedCopy :
    taintedCopy.EventsOf taintedCopy.body [.value ⟨1⟩, .write ⟨0⟩ ⟨2⟩ false, .value ⟨4⟩,
      .write ⟨3⟩ ⟨2⟩ false, .value ⟨7⟩, .write ⟨6⟩ ⟨3⟩ false, .value ⟨10⟩, .write ⟨9⟩ ⟨4⟩ true,
      .value ⟨13⟩, .write ⟨12⟩ ⟨3⟩ false, .value ⟨16⟩, .write ⟨15⟩ ⟨5⟩ false] := by
  refine ⟨[copyTree ⟨2⟩ ⟨0⟩ ⟨1⟩ ⟨2⟩ ⟨0⟩ 0, copyTree ⟨5⟩ ⟨3⟩ ⟨4⟩ ⟨2⟩ ⟨1⟩ 0,
      copyTree ⟨8⟩ ⟨6⟩ ⟨7⟩ ⟨3⟩ ⟨2⟩ 0, copyTree ⟨11⟩ ⟨9⟩ ⟨10⟩ ⟨4⟩ ⟨1⟩ 1,
    copyTree ⟨14⟩ ⟨12⟩ ⟨13⟩ ⟨3⟩ ⟨2⟩ 0, copyTree ⟨17⟩ ⟨15⟩ ⟨16⟩ ⟨5⟩ ⟨4⟩ 0], rfl, ?_, ?_⟩
  · simp only [List.forall_mem_cons, List.not_mem_nil, false_imp_iff, implies_true, and_true]
    exact ⟨draws_copyTree rfl rfl rfl, draws_copyTree rfl rfl rfl, draws_copyTree rfl rfl rfl,
      draws_copyTree rfl rfl rfl, draws_copyTree rfl rfl rfl, draws_copyTree rfl rfl rfl⟩
  · simp only [List.flatMap_cons, List.flatMap_nil]
    rw [events_copyTree ⟨2⟩ ⟨0⟩ ⟨1⟩ ⟨2⟩ ⟨0⟩ false rfl,
      events_copyTree ⟨5⟩ ⟨3⟩ ⟨4⟩ ⟨2⟩ ⟨1⟩ false rfl,
      events_copyTree ⟨8⟩ ⟨6⟩ ⟨7⟩ ⟨3⟩ ⟨2⟩ false rfl, events_copyTree ⟨11⟩ ⟨9⟩ ⟨10⟩ ⟨4⟩ ⟨1⟩ true rfl,
      events_copyTree ⟨14⟩ ⟨12⟩ ⟨13⟩ ⟨3⟩ ⟨2⟩ false rfl,
      events_copyTree ⟨17⟩ ⟨15⟩ ⟨16⟩ ⟨5⟩ ⟨4⟩ false rfl]
    rfl

theorem check_taintedCopy : taintedCopy.check = .ok () := rfl

theorem answers_taintedCopy :
    Query.Answers (build taintedCopy {}) ⟨#[some taintedCopyBlock], false⟩ ∧
    taintedCopyBlock ∈ Graph.blocks ⟨#[some taintedCopyBlock], false⟩ ∧
    taintedCopyBlock.statements taintedCopy = .ok taintedCopy.body ∧
    Query.Answers (taintedCopy.numberStatements taintedCopy.body {}) taintedCopyNumbering := by
  have hnumbering :
      (taintedCopy.numberStatements taintedCopy.body {}).run = .ok (.ok taintedCopyNumbering) := by
    decide +kernel
  exact ⟨rfl, by decide, rfl, hnumbering⟩

theorem layers_of_numberStatements_taintedCopy :
    ∃ layer value, taintedCopyNumbering.isPartial layer = true ∧
    taintedCopyNumbering.value? ⟨16⟩ = some value ∧ layer ∈ value ∧
      ∀ id ∈ [⟨1⟩, ⟨4⟩, ⟨7⟩, ⟨10⟩], ∀ value', taintedCopyNumbering.value? id = some value' →
        value ≠ value' := by
  obtain ⟨hbuild, hblock, hstatements, hnumbering⟩ := answers_taintedCopy
  obtain ⟨layer, hlayers⟩ := layers_of_numberStatements check_taintedCopy hbuild hblock hstatements
      hnumbering eventsOf_taintedCopy
  obtain ⟨hpartial, -, -, hreads⟩ := hlayers [_, _, _, _, _, _, _] ⟨9⟩ ⟨4⟩ _ rfl
  obtain ⟨value, hvalue, hmem, hearlier⟩ := hreads [_, _] ⟨16⟩ _ rfl rfl (by simp)
  refine ⟨_, value, hpartial, hvalue, hmem, fun id hid value' => hearlier id value' ?_⟩
  simp only [List.mem_cons, List.not_mem_nil, or_false] at hid
  rcases hid with rfl | rfl | rfl | rfl <;> simp

theorem suffix_of_numberStatements_taintedCopy : ∃ earlier first layers,
    taintedCopyNumbering.value? ⟨7⟩ = some (first :: layers) ∧
      taintedCopyNumbering.value? ⟨13⟩ = some (earlier ++ first :: layers) ∧
      (taintedCopyNumbering.isPartial first = false → earlier = []) := by
  obtain ⟨hbuild, hblock, hstatements, hnumbering⟩ := answers_taintedCopy
  have hunwritten : ∀ target part, NumberEvent.write target ⟨2⟩ part ∉
      [NumberEvent.write ⟨6⟩ ⟨3⟩ false, .value ⟨10⟩, .write ⟨9⟩ ⟨4⟩ true] := by simp
  exact suffix_of_numberStatements check_taintedCopy hbuild
    hblock hstatements hnumbering eventsOf_taintedCopy
    (show _ = [_, _, _, _] ++ _ :: ([_, _, _] ++ _ :: _) from rfl) rfl rfl hunwritten

/-- Two reads of a variable with no write to it in between need not agree. -/
theorem value?_ne_taintedCopy : taintedCopy.check = .ok () ∧ ∃ graph numbering before span after,
    Query.Answers (build taintedCopy {}) graph ∧ taintedCopyBlock ∈ graph.blocks ∧
    taintedCopyBlock.statements taintedCopy = .ok taintedCopy.body ∧
    Query.Answers (taintedCopy.numberStatements taintedCopy.body {}) numbering ∧
    taintedCopy.EventsOf taintedCopy.body (before ++ .value ⟨7⟩ :: (span ++ .value ⟨13⟩ :: after)) ∧
    taintedCopy.node ⟨7⟩ = .ok (.variable ⟨2⟩) ∧ taintedCopy.node ⟨13⟩ = .ok (.variable ⟨2⟩) ∧
    (∀ target part, .write target ⟨2⟩ part ∉ span) ∧
      numbering.value? ⟨7⟩ ≠ numbering.value? ⟨13⟩ := by
  obtain ⟨hbuild, hblock, hstatements, hnumbering⟩ := answers_taintedCopy
  exact ⟨check_taintedCopy, _, _, [_, _, _, _], [_, _, _], _, hbuild, hblock, hstatements,
    hnumbering, eventsOf_taintedCopy, rfl, rfl, by simp, by decide⟩

end Graph

end ShaderIR
