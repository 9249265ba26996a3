import Mathlib.Data.List.Flatten
import ShaderIR.Proofs.Graph.Coverage
import ShaderIR.Proofs.Numbering.Events

/-!
The numbering of a block passes through its events. Operands that are numbered get their values one
after the other, and keep them (`Numbers.passes`); what is stored through a place is a number that
nobody knows (`Overwrites.passes`), or the value of a node (`NumbersStatement.passes`). No node of a
block gets two values (`Program.nodup_valued`), so the value of a node at the end of a block is the
one that it got. `Graph.exists_passes_of_numberStatements` collects this for a block of a checked
program.
-/

set_option autoImplicit false

namespace ShaderIR

/-! ### Which nodes get values -/

/-- The nodes that get values. -/
def NumberEvent.valued (events : List NumberEvent) : List NodeId :=
  events.filterMap NumberEvent.valued?

@[simp] theorem NumberEvent.mem_valued {events : List NumberEvent} {id : NodeId} :
    id ∈ valued events ↔ .value id ∈ events := by
  rw [valued, List.mem_filterMap]
  constructor
  · rintro ⟨event, hevent, hid⟩
    cases event with
    | value found =>
      obtain rfl := Option.some.inj hid
      exact hevent
    | write => cases hid
  · exact fun hevent => ⟨_, hevent, rfl⟩

@[simp] theorem NumberEvent.valued_append (events later : List NumberEvent) :
    valued (events ++ later) = valued events ++ valued later :=
  List.filterMap_append

@[simp] theorem NumberEvent.valued_cons_value (id : NodeId) (events : List NumberEvent) :
    valued (.value id :: events) = id :: valued events :=
  rfl

@[simp] theorem NumberEvent.valued_cons_write (target : NodeId)
    (root : VarId) (part : Bool) (events : List NumberEvent) :
    valued (.write target root part :: events) = valued events :=
  rfl

@[simp] theorem NumberEvent.valued_nil : valued [] = [] :=
  rfl

theorem NumberEvent.valued_flatMap {α : Type} (items : List α) (events : α → List NumberEvent) :
    valued (items.flatMap events) = items.flatMap fun item => valued (events item) := by
  induction items with
  | nil => rfl
  | cons item items ih => rw [List.flatMap_cons, valued_append, ih, List.flatMap_cons]

/-- All nodes of an operand get values. -/
theorem Tree.perm_valued (tree : Tree) : (NumberEvent.valued tree.events).Perm tree.ids := by
  induction tree using Tree.induction with
  | step id node children ih =>
    rw [events_mk, ids_mk, NumberEvent.valued_append, NumberEvent.valued_flatMap]
    refine (List.perm_append_singleton _ _).trans (List.Perm.cons _ ?_)
    exact List.Perm.flatMap_left _ ih

theorem Tree.value_mem_events {tree : Tree} {id : NodeId} :
    .value id ∈ tree.events ↔ id ∈ tree.ids := by
  rw [← NumberEvent.mem_valued, tree.perm_valued.mem_iff]

theorem Tree.value_mem_flatMap_events {trees : List Tree} {id : NodeId} :
    .value id ∈ trees.flatMap events ↔ id ∈ trees.flatMap ids := by
  simp only [List.mem_flatMap, value_mem_events]

theorem Tree.write_not_mem_events (tree : Tree) (target : NodeId) (root : VarId) (part : Bool) :
    .write target root part ∉ tree.events := by
  induction tree using Tree.induction with
  | step id node children ih => simpa [events_mk] using ih

theorem Tree.write_not_mem_flatMap_events (trees : List Tree)
    (target : NodeId) (root : VarId) (part : Bool) :
    .write target root part ∉ trees.flatMap events := by
  simp [List.mem_flatMap, write_not_mem_events]

/-- The indices in a place are different nodes of it. -/
theorem Tree.count_indices_le (tree : Tree) (id : NodeId) :
    (tree.indices.flatMap ids).count id ≤ tree.ids.count id := by
  have hcount := Nat.le_of_add_right_le (tree.count_spine_le id)
  rw [Role.loose, List.map_flatMap] at hcount
  exact hcount

theorem Tree.nodup_indices {tree : Tree} (hnodup : tree.ids.Nodup) :
    (tree.indices.flatMap ids).Nodup :=
  List.nodup_iff_count_le_one.mpr fun id =>
    (tree.count_indices_le id).trans (List.nodup_iff_count_le_one.mp hnodup id)

theorem Tree.indices_subset (tree : Tree) : tree.indices.flatMap ids ⊆ tree.ids := fun id hid =>
  List.count_pos_iff.mp ((List.count_pos_iff.mpr hid).trans_le (tree.count_indices_le id))

/-! ### Operands -/

section Passages

variable {program : Program} {eligible : NodeKinds} {state stop : Numberer} {trees : List Tree}
  {values : List Value}

theorem Program.callsPurely_of_isStatement {id : NodeId}
    {node : Node} (hnode : program.node id = .ok node)
    (hoperand : node.isStatement = false) : program.CallsPurely id := by
  intro callee arguments result hcall
  obtain rfl := Except.ok.inj (hnode.symm.trans hcall)
  cases hoperand

/-- Noting a node is no more than giving it a value, as far as values are concerned. -/
theorem Numberer.exists_noted_eq (state : Numberer)
    (eligible : NodeKinds) (tree : Tree) (number : ValueNumber) :
    ∃ occurrences, state.numbering.occurrences ⊆ occurrences ∧
      state.noted eligible tree number = (state.setValue tree.id [number]).withOccurrences
        occurrences := by
  refine ⟨(state.noted eligible tree number).numbering.occurrences,
    (Advances.noted _ _ _ _).occurrences_subset, ?_⟩
  unfold noted
  split <;> rfl

/-- A node that computes something from values that it finds gets the number of its key. -/
theorem Program.Happens.noted (eligible : NodeKinds) {tree : Tree} {key : Key}
    (hdraws : program.Draws tree) (hpurely : program.CallsPurely tree.id)
    (hkey : tree.node.keyFrom state.numbering.value? = some key) :
    program.Happens state (some (.value tree.id))
      ((state.numberOf key).2.noted eligible tree (state.numberOf key).1) := by
  obtain ⟨occurrences, hsubset, hnoted⟩ :=
    (state.numberOf key).2.exists_noted_eq eligible tree (state.numberOf key).1
  rw [Numberer.occurrences_numberOf] at hsubset
  exact hnoted ▸ .compute hdraws.node_eq hpurely hsubset hkey

@[simp] theorem Numberer.value?_noted (state : Numberer)
    (eligible : NodeKinds) (tree : Tree) (number : ValueNumber) :
    (state.noted eligible tree number).numbering.value? tree.id = some [number] := by
  obtain ⟨occurrences, -, hnoted⟩ := state.exists_noted_eq eligible tree number
  rw [hnoted]
  exact value?_setValue_self _ _

theorem Numbers.callsPurely (hnumbers : Numbers eligible state trees values stop)
    (hdraws : ∀ tree ∈ trees, program.Draws tree) :
    ∀ tree ∈ trees, program.CallsPurely tree.id := by
  induction hnumbers with
  | nil => simp
  | read _ ih =>
    obtain ⟨hfirst, hrest⟩ := List.forall_mem_cons.mp hdraws
    exact List.forall_mem_cons.mpr ⟨Program.callsPurely_of_isStatement hfirst.node_eq rfl, ih hrest⟩
  | compute _ _ hoperand _ _ _ ih =>
    obtain ⟨hfirst, hrest⟩ := List.forall_mem_cons.mp hdraws
    exact List.forall_mem_cons.mpr
      ⟨Program.callsPurely_of_isStatement hfirst.node_eq hoperand, ih hrest⟩

/-- Numbered operands get their values one after the other. -/
theorem Numbers.passes (hnumbers : Numbers eligible state trees values stop)
    (hdraws : ∀ tree ∈ trees, program.Draws tree) (hnodup : (trees.flatMap Tree.ids).Nodup) :
    program.Passes state (trees.flatMap Tree.events) stop ∧
      List.Forall₂ (fun tree value => stop.numbering.value? tree.id = some value) trees values := by
  induction hnumbers with
  | nil => exact ⟨.nil _, .nil⟩
  | @read state stop id read children rest values hrest ih =>
    obtain ⟨hfirst, hlater⟩ := List.forall_mem_cons.mp hdraws
    obtain rfl : children = [] := Tree.eq_nil_of_ids hfirst.children_eq
    simp only [List.flatMap_cons, Tree.ids_mk, List.flatMap_nil, List.cons_append, List.nil_append,
      List.nodup_cons] at hnodup
    obtain ⟨hpasses, hvalues⟩ := ih hlater hnodup.2
    refine ⟨?_, .cons ?_ hvalues⟩
    · rw [List.flatMap_cons, Tree.events_mk]
      exact (Program.Passes.of_happens (.read hfirst.node_eq)).trans hpasses
    · rw [hpasses.value?_eq (Tree.value_mem_flatMap_events.not.mpr hnodup.1)]
      exact Numberer.value?_setValue_self _ _
  | @compute state between stop tree rest values key hhead hoperand hchildren hrest ih ih' =>
    obtain ⟨hfirst, hlater⟩ := List.forall_mem_cons.mp hdraws
    obtain ⟨id, node, children⟩ := tree
    simp only [List.flatMap_cons, Tree.ids_mk, List.cons_append, List.nodup_cons,
      List.nodup_append', List.mem_append, not_or] at hnodup
    obtain ⟨⟨-, hid⟩, hbelow, hbehind, -⟩ := hnodup
    obtain ⟨hpasses, hvalues⟩ := ih (fun child => hfirst.child) hbelow
    obtain ⟨hpasses', hvalues'⟩ := ih' hlater hbehind
    have hinputs : node.inputs = children.map Tree.id := by
      rw [← hfirst.children_eq]
      cases node <;> first | rfl | cases hoperand
    have hkey : node.keyFrom between.numbering.value? = some key :=
      Node.keyFrom_eq_some_iff.mpr ⟨hhead, hinputs ▸ List.forall₂_map_left_iff.mpr hvalues⟩
    have hpurely := Program.callsPurely_of_isStatement hfirst.node_eq hoperand
    have hcompute := Program.Happens.noted eligible hfirst hpurely hkey
    refine ⟨?_, .cons ?_ hvalues'⟩
    · rw [List.flatMap_cons, Tree.events_mk]
      exact (hpasses.trans (.of_happens hcompute)).trans hpasses'
    · rw [hpasses'.value?_eq (Tree.value_mem_flatMap_events.not.mpr hid)]
      exact Numberer.value?_noted _ eligible ⟨id, node, children⟩ _

/-- What is stored through places are numbers that nobody knows. -/
theorem Overwrites.passes (hwrites : Overwrites program eligible state trees stop)
    (hdraws : ∀ target ∈ trees, program.Draws target) (hnodup : (trees.flatMap Tree.ids).Nodup)
    (hbounded : state.Bounded) :
    program.Passes state (trees.flatMap (program.storeEvents 0)) stop := by
  induction hwrites with
  | nil => exact .nil _
  | @cons state between stop target rest values root part hindices hroot hpart hrest ih =>
    obtain ⟨hfirst, hlater⟩ := List.forall_mem_cons.mp hdraws
    rw [List.flatMap_cons, List.nodup_append'] at hnodup
    have hindices := (hindices.passes (fun position hmem => hfirst.subtree position
      (Tree.subtrees_subset_of_mem_indices position hmem position.mem_subtrees_self))
      (Tree.nodup_indices hnodup.1)).1
    have hstored : program.Passes state (target.indices.flatMap Tree.events) between :=
      .step (.fresh state) hindices
    have hsecret := hindices.secret hbounded.secret_fresh (Tree.write_not_mem_flatMap_events _)
    have hwrite : program.Happens between (some (.write target.id root part))
        (between.write part root [state.fresh.1]) :=
      .write (.inr ⟨state.fresh.1, rfl, hsecret⟩)
    have hstore := hstored.trans (.of_happens hwrite)
    rw [List.flatMap_cons, Program.storeEvents_eq hroot hpart]
    exact hstore.trans (ih hlater hnodup.2.1 (hstore.bounded hbounded))

end Passages

/-! ### Statements -/

section Statements

variable {program : Program} {eligible : NodeKinds} {state stop : Numberer} {statement : Tree}

/-- Storing the value of a node through a place that the node is not part of. -/
theorem Program.Passes.store {id : NodeId} {target : Tree}
    {value : Value} {indices : List Value} {root : VarId}
    {part : Bool} {mask : UInt8} (hindices : Numbers eligible state target.indices indices stop)
    (hdraws : program.Draws target) (hnodup : target.ids.Nodup) (hroot : target.root? = some root)
    (hpart : program.isPartialWrite target.id mask = .ok part) (hpurely : program.CallsPurely id)
    (hvalue : state.numbering.value? id = some value) (hid : id ∉ target.ids) :
    program.Passes state (program.storeEvents mask target) (stop.write part root value) := by
  have hpasses := (hindices.passes (fun position hmem => hdraws.subtree position
    (Tree.subtrees_subset_of_mem_indices position hmem position.mem_subtrees_self))
    (Tree.nodup_indices hnodup)).1
  rw [Program.storeEvents_eq hroot hpart]
  refine hpasses.trans (.of_happens (.write (.inl ⟨id, hpurely, ?_⟩)))
  rw [hpasses.value?_eq fun hmem =>
    hid (target.indices_subset (Tree.value_mem_flatMap_events.mp hmem)), hvalue]

/-- A call that leaves its arguments alone takes all of them as inputs. -/
theorem Program.events_call_of_isPure (id : NodeId) {callee : SignatureId}
    {arguments : List Tree} (result : Option Tree) {signature : Signature}
    (hsignature : program.signature callee = .ok signature) (hpure : signature.isPure = true)
    (hlength : signature.params.length = arguments.length) :
    program.events ⟨id, .call callee (arguments.map Tree.id) (result.map Tree.id),
      arguments ++ result.toList⟩ = arguments.flatMap Tree.events ++ .value id ::
        result.toList.flatMap (program.storeEvents 0) := by
  have hmode {passed : Param × Tree} (hpassed : passed ∈ signature.params.zip arguments) :
      passed.1.mode = .input :=
    eq_of_beq (List.all_eq_true.mp hpure passed.1 (List.of_mem_zip hpassed).1)
  rw [events_call hsignature,
    List.filter_eq_self.mpr fun passed hpassed => by simpa using hmode hpassed,
    List.filter_eq_nil_iff.mpr fun passed hpassed => by simp [hmode hpassed, ParamMode.writes],
    List.map_snd_zip hlength.ge]
  rfl

/-- A row of operands that a call passes in one way is a part of its arguments. -/
theorem Signature.passed_sublist (signature : Signature) {arguments : List Tree}
    (hlength : signature.params.length = arguments.length) (way : Param × Tree → Bool) :
    (((signature.params.zip arguments).filter way).map Prod.snd).Sublist arguments := by
  have hzip := ((List.filter_sublist (p := way) (l := signature.params.zip arguments)).map Prod.snd)
  rwa [List.map_snd_zip hlength.ge] at hzip

/-- A call that leaves its arguments alone computes something from their values. -/
theorem Program.Passes.call {called : Numberer} {id : NodeId} {callee : SignatureId}
    {signature : Signature} {arguments : List Tree} (result : Option Tree) {values : List Value}
    (hsignature : program.signature callee = .ok signature) (hpure : signature.isPure = true)
    (harguments : Numbers eligible state arguments values called)
    (hdraws : program.Draws ⟨id, .call callee (arguments.map Tree.id) (result.map Tree.id),
        arguments ++ result.toList⟩) (hnodup : (arguments.flatMap Tree.ids).Nodup) :
    program.CallsPurely id ∧ program.Passes state (arguments.flatMap Tree.events) called ∧
      (Node.call callee (arguments.map Tree.id) (result.map Tree.id)).keyFrom
        called.numbering.value? = some (.call callee values) := by
  obtain ⟨hpasses, hvalues⟩ :=
    harguments.passes (fun argument hmem => hdraws.child (List.mem_append_left _ hmem)) hnodup
  refine ⟨fun callee' arguments' result' hcall => ?_, hpasses,
    Node.keyFrom_eq_some_iff.mpr ⟨rfl, List.forall₂_map_left_iff.mpr hvalues⟩⟩
  obtain ⟨rfl, -, -⟩ := Node.call.inj (Except.ok.inj (hdraws.node_eq.symm.trans hcall))
  exact ⟨signature, hsignature, hpure⟩

/-- Numbering a statement passes through its events. -/
theorem NumbersStatement.passes (hnumbers : NumbersStatement program eligible state statement stop)
    (hdraws : program.Draws statement)
    (hsound : program.Sound statement) (hnodup : statement.ids.Nodup)
    (hbounded : state.Bounded) : program.Passes state (program.events statement) stop := by
  cases hnumbers with
  | @assign valued between id target value mask stored indices root part hvalue hindices
      hroot hpart =>
    have hchild : ∀ child ∈ [value, target], program.Draws child := fun child => hdraws.child
    obtain ⟨hvalueDraws, htarget⟩ := by simpa using hchild
    simp only [Tree.ids_mk, List.flatMap_cons, List.flatMap_nil, List.append_nil, List.nodup_cons,
      List.nodup_append'] at hnodup
    obtain ⟨-, hvalueIds, htargetIds, hapart⟩ := hnodup
    obtain ⟨hpasses, hvalues⟩ :=
      hvalue.passes (by simpa using hvalueDraws) (by simpa using hvalueIds)
    have hpurely :=
      hvalue.callsPurely (by simpa using hvalueDraws) value (List.mem_singleton_self _)
    have hstore := Program.Passes.store hindices htarget htargetIds hroot hpart hpurely
      (List.forall₂_cons.mp hvalues).1 (hapart value.id_mem_ids)
    simpa [Program.events] using hpasses.trans hstore
  | @stored called between id callee signature arguments target values indices root part hsignature
      hpure harguments hindices hroot hpart =>
    have hcall :
        program.Sound ⟨id, .call callee (arguments.map Tree.id) ((some target).map Tree.id),
      arguments ++ (some target).toList⟩ := hsound
    have hevents :=
      Program.events_call_of_isPure id (some target) hsignature hpure (hcall.of_call hsignature).1
    simp only [Option.map_some, Option.toList_some, List.flatMap_cons, List.flatMap_nil,
      List.append_nil] at hevents
    simp only [Tree.ids_mk, List.flatMap_append, List.flatMap_cons, List.flatMap_nil,
      List.append_nil, List.nodup_cons, List.nodup_append', List.mem_append, not_or] at hnodup
    obtain ⟨⟨-, hid⟩, hargumentIds, htargetIds, -⟩ := hnodup
    obtain ⟨hpurely, hpasses, hkey⟩ :=
      Program.Passes.call (some target) hsignature hpure harguments hdraws hargumentIds
    have hcompute := Program.Happens.noted eligible hdraws hpurely hkey
    have hstore := Program.Passes.store hindices
      (hdraws.child (List.mem_append_right _ (List.mem_singleton_self _)))
      htargetIds hroot hpart hpurely (Numberer.value?_noted _ eligible _ _) hid
    rw [hevents]
    exact hpasses.trans (.step hcompute hstore)
  | @dropped called id callee signature arguments values hsignature hpure harguments =>
    have hcall :
        program.Sound ⟨id, .call callee (arguments.map Tree.id) ((none : Option Tree).map Tree.id),
      arguments ++ (none : Option Tree).toList⟩ := by simpa using hsound
    have hevents :=
      Program.events_call_of_isPure id none hsignature hpure (hcall.of_call hsignature).1
    simp only [Option.map_none, Option.toList_none, List.flatMap_nil, List.append_nil] at hevents
    rw [Tree.ids_mk, List.nodup_cons] at hnodup
    obtain ⟨hpurely, hpasses, hkey⟩ :=
      Program.Passes.call none hsignature hpure harguments (by simpa using hdraws) hnodup.2
    rw [hevents]
    exact hpasses.trans (.of_happens (.compute hdraws.node_eq hpurely (by simp) hkey))
  | @effectful called overwritten _ id callee signature arguments result values hsignature hpure
      hinputs hwritten hresult =>
    obtain ⟨hlength, -⟩ := hsound.of_call hsignature
    simp only [Tree.ids_mk, List.flatMap_append, List.nodup_cons, List.nodup_append'] at hnodup
    obtain ⟨-, hargumentIds, hresultIds, -⟩ := hnodup
    have hargument : ∀ argument ∈ arguments, program.Draws argument := fun argument hmem =>
      hdraws.child (List.mem_append_left _ hmem)
    have hpassed (way : Param × Tree → Bool) :
        (((signature.params.zip arguments).filter way).map Prod.snd).Sublist arguments :=
        signature.passed_sublist hlength way
    obtain ⟨hpasses, -⟩ :=
      hinputs.passes (fun tree hmem => hargument tree ((hpassed _).subset hmem))
      (hargumentIds.sublist ((hpassed _).flatMap _))
    have hwrites :=
      hpasses.trans (hwritten.passes (fun tree hmem => hargument tree ((hpassed _).subset hmem))
      (hargumentIds.sublist ((hpassed _).flatMap _)) (hpasses.bounded hbounded))
    have hcalled := hwrites.trans (.of_happens (.call hdraws.node_eq hsignature hpure))
    have hlast := hcalled.trans (hresult.passes (fun tree hmem =>
        hdraws.child (List.mem_append_right _ hmem)) hresultIds (hcalled.bounded hbounded))
    simpa [Program.events_call hsignature] using hlast
  | @operands _ _ values hwrites hoperands =>
    have hevents : program.events statement = statement.children.flatMap Tree.events := by
      cases hsound with
      | assign => exact absurd rfl hwrites.1
      | call => exact absurd rfl hwrites.2
      | _ => rfl
    obtain ⟨id, node, children⟩ := statement
    rw [Tree.ids_mk, List.nodup_cons] at hnodup
    rw [hevents]
    exact (hoperands.passes (fun child => hdraws.child) hnodup.2).1

theorem NumbersStatements.passes {statements : List Tree}
    (hnumbers : NumbersStatements program eligible state statements stop)
    (hdraws : ∀ statement ∈ statements, program.Draws statement)
    (hsound : ∀ statement ∈ statements, program.Sound statement)
    (hnodup : ∀ statement ∈ statements, statement.ids.Nodup) (hbounded : state.Bounded) :
    program.Passes state (statements.flatMap program.events) stop := by
  induction hnumbers with
  | nil => exact .nil _
  | cons hfirst _ ih =>
    rw [List.forall_mem_cons] at hdraws hsound hnodup
    have hpasses := hfirst.passes hdraws.1 hsound.1 hnodup.1 hbounded
    exact hpasses.trans (ih hdraws.2 hsound.2 hnodup.2 (hpasses.bounded hbounded))

/-! ### Each node gets one value -/

theorem Program.valued_storeEvents (program : Program) (mask : UInt8) (target : Tree) :
    (NumberEvent.valued (program.storeEvents mask target)).Perm
      (target.indices.flatMap Tree.ids) := by
  have hindices : (target.indices.flatMap fun position => NumberEvent.valued position.events).Perm
      (target.indices.flatMap Tree.ids) :=
        List.Perm.flatMap_left _ fun position _ => position.perm_valued
  rw [storeEvents]
  split <;> simpa [NumberEvent.valued_flatMap] using hindices

theorem Program.count_valued_storeEvents_le (program : Program)
    (mask : UInt8) (target : Tree) (id : NodeId) :
    (NumberEvent.valued (program.storeEvents mask target)).count id ≤ target.ids.count id :=
  ((program.valued_storeEvents mask target).count_eq id).trans_le (target.count_indices_le id)

theorem Program.count_valued_flatMap_le {items : List Tree} {events : Tree → List NumberEvent}
    (hle : ∀ item ∈ items, ∀ id, (NumberEvent.valued (events item)).count id ≤ item.ids.count id)
    (id : NodeId) :
    (NumberEvent.valued (items.flatMap events)).count id ≤ (items.flatMap Tree.ids).count id := by
  induction items with
  | nil => exact le_rfl
  | cons item items ih =>
    obtain ⟨hfirst, hrest⟩ := List.forall_mem_cons.mp hle
    simp only [List.flatMap_cons, NumberEvent.valued_append, List.count_append]
    exact Nat.add_le_add (hfirst id) (ih hrest)

/-- A statement gives each of its nodes at most one value. -/
theorem Program.count_valued_le (hsound : program.Sound statement) (id : NodeId) :
    (NumberEvent.valued (program.events statement)).count id ≤ statement.ids.count id := by
  have hoperands (children : List Tree) :
      (NumberEvent.valued (children.flatMap Tree.events)).count id ≤
      (children.flatMap Tree.ids).count id :=
    count_valued_flatMap_le (fun child _ id => (child.perm_valued.count_eq id).le) id
  have hstores (targets : List Tree) :
      (NumberEvent.valued (targets.flatMap (program.storeEvents 0))).count id ≤
      (targets.flatMap Tree.ids).count id :=
    count_valued_flatMap_le (fun target _ => program.count_valued_storeEvents_le 0 target) id
  cases hsound with
  | assign root target value mask =>
    have hvalue := value.perm_valued.count_eq id
    have htarget := program.count_valued_storeEvents_le mask target id
    simp only [events, NumberEvent.valued_append, Tree.ids_mk, List.flatMap_cons, List.flatMap_nil,
      List.append_nil, List.count_append, List.count_cons]
    omega
  | call root callee arguments result signature hsignature hlength =>
    have hperm :=
      ((perm_parts_call root result hsignature hlength).map Prod.snd).flatMap_right Tree.ids
    rw [map_snd_parts (.call root callee arguments result signature hsignature hlength ‹_› ‹_›)]
      at hperm
    have hrole (role : Role) (items : List Tree) :
        (items.map (role, ·)).map Prod.snd = items := by simp
    have hchildren := hperm.count_eq id
    simp only [List.map_append, hrole, List.flatMap_append, List.count_append] at hchildren
    have hinputs := hoperands (((signature.params.zip arguments).filter
      fun passed => passed.1.mode = .input).map Prod.snd)
    have hwritten := hstores
      (((signature.params.zip arguments).filter fun passed => passed.1.mode.writes).map Prod.snd)
    have hresult := hstores result.toList
    rw [events_call hsignature]
    simp only [NumberEvent.valued_append, NumberEvent.valued_cons_value, Tree.ids_mk,
      List.flatMap_append, List.count_append, List.count_cons]
    omega
  | branch | loop | ret | discard =>
    rw [Tree.ids_mk, List.count_cons]
    exact (hoperands _).trans (Nat.le_add_right _ _)

/-- No node of a block gets two values. -/
theorem Program.nodup_valued {statements : List Tree}
    (hsound : ∀ statement ∈ statements, program.Sound statement)
    (hnodup : (statements.flatMap Tree.ids).Nodup) :
    (NumberEvent.valued (statements.flatMap program.events)).Nodup :=
  List.nodup_iff_count_le_one.mpr fun id =>
    (count_valued_flatMap_le (fun statement hmem => count_valued_le (hsound statement hmem))
      id).trans (List.nodup_iff_count_le_one.mp hnodup id)

end Statements

/-! ### Values that stay -/

section Frames

variable {program : Program} {eligible : NodeKinds} {state stop : Numberer} {trees : List Tree}
  {values : List Value} {id : NodeId}

theorem Numberer.value?_noted_self (state : Numberer)
    (eligible : NodeKinds) (tree : Tree) (number : ValueNumber) :
    (state.noted eligible tree number).numbering.value? tree.id = some [number] := by
  obtain ⟨occurrences, -, hnoted⟩ := state.exists_noted_eq eligible tree number
  rw [hnoted]
  exact value?_setValue_self ..

theorem Numberer.value?_noted_of_ne (state : Numberer)
    {tree : Tree} (number : ValueNumber) (hne : id ≠ tree.id) :
    (state.noted eligible tree number).numbering.value? id = state.numbering.value? id := by
  obtain ⟨occurrences, -, hnoted⟩ := state.exists_noted_eq eligible tree number
  rw [hnoted]
  exact value?_setValue_of_ne hne _

/-- Only the nodes of the operands get new values. -/
theorem Numbers.value?_eq (hnumbers : Numbers eligible state trees values stop)
    (hid : id ∉ trees.flatMap Tree.ids) :
    stop.numbering.value? id = state.numbering.value? id := by
  induction hnumbers with
  | nil => rfl
  | read _ ih =>
    rw [List.flatMap_cons, List.mem_append, not_or, Tree.ids_mk, List.mem_cons, not_or] at hid
    rw [ih hid.2, Numberer.value?_setValue_of_ne hid.1.1, Numbering.value?, Numberer.values_read]
    rfl
  | @compute _ _ _ tree _ _ _ _ _ _ _ ih ih' =>
    obtain ⟨root, node, children⟩ := tree
    rw [List.flatMap_cons, List.mem_append, not_or, Tree.ids_mk, List.mem_cons, not_or] at hid
    rw [ih' hid.2, Numberer.value?_noted_of_ne _ _ hid.1.1, Numbering.value?,
      Numberer.values_numberOf]
    exact ih hid.1.2

theorem Numberer.value?_write (state : Numberer) (part : Bool) (root : VarId) (value : Value) :
    (state.write part root value).numbering.value? id = state.numbering.value? id := by
  rw [Numbering.value?, values_write]
  rfl

theorem Overwrites.value?_eq (hwrites : Overwrites program eligible state trees stop)
    (hid : id ∉ trees.flatMap Tree.ids) : stop.numbering.value? id = state.numbering.value? id := by
  induction hwrites with
  | nil => rfl
  | @cons _ _ _ target _ _ _ _ hindices _ _ _ ih =>
    rw [List.flatMap_cons, List.mem_append, not_or] at hid
    rw [ih hid.2, Numberer.value?_write,
      hindices.value?_eq fun hmem => hid.1 (target.indices_subset hmem)]
    rfl

/-- A statement gives values to its own nodes only. -/
theorem NumbersStatement.value?_eq {statement : Tree}
    (hnumbers : NumbersStatement program eligible state statement stop)
    (hid : id ∉ statement.ids) : stop.numbering.value? id = state.numbering.value? id := by
  cases hnumbers with
  | @assign valued stop root target value mask stored indices written part hvalue hindices
      hroot hpart =>
    simp only [Tree.ids_mk, List.flatMap_cons, List.flatMap_nil, List.append_nil, List.mem_cons,
      List.mem_append, not_or] at hid
    rw [Numberer.value?_write, hindices.value?_eq fun hmem => hid.2.2 (target.indices_subset hmem),
      hvalue.value?_eq (by simpa using hid.2.1)]
  | @stored called stop root callee signature arguments target values indices written part
      hsignature hpure harguments hindices hroot hpart =>
    simp only [Tree.ids_mk, List.flatMap_append, List.flatMap_cons, List.flatMap_nil,
      List.append_nil, List.mem_cons, List.mem_append, not_or] at hid
    rw [Numberer.value?_write, hindices.value?_eq fun hmem => hid.2.2 (target.indices_subset hmem),
      Numberer.value?_noted_of_ne _ _ hid.1, Numbering.value?, Numberer.values_numberOf]
    exact harguments.value?_eq hid.2.1
  | @dropped called root callee signature arguments values hsignature hpure harguments =>
    rw [Tree.ids_mk, List.mem_cons, not_or] at hid
    rw [Numberer.value?_setValue_of_ne hid.1, Numbering.value?, Numberer.values_numberOf]
    exact harguments.value?_eq hid.2
  | @effectful called overwritten stop root callee signature arguments result values hsignature
      hpure hinputs hwritten hresult =>
    simp only [Tree.ids_mk, List.flatMap_append, List.mem_cons, List.mem_append, not_or] at hid
    obtain ⟨hne, harguments, hresultIds⟩ := hid
    have hpassed (way : Param × Tree → Bool) :
        id ∉ (((signature.params.zip arguments).filter way).map Prod.snd).flatMap Tree.ids :=
          fun hmem => by
            obtain ⟨argument, hargument, hmem⟩ := List.mem_flatMap.mp hmem
            obtain ⟨passed, hpassed, rfl⟩ := List.mem_map.mp hargument
            exact harguments
              (List.mem_flatMap.mpr ⟨_, (List.of_mem_zip (List.mem_of_mem_filter hpassed)).2, hmem⟩)
    rw [hresult.value?_eq hresultIds, Numberer.value?_setValue_of_ne hne]
    exact (hwritten.value?_eq (hpassed _)).trans (hinputs.value?_eq (hpassed _))
  | @operands _ _ values hwrites hoperands =>
    obtain ⟨root, node, children⟩ := statement
    rw [Tree.ids_mk, List.mem_cons, not_or] at hid
    exact hoperands.value?_eq hid.2

theorem NumbersStatements.value?_eq {statements : List Tree}
    (hnumbers : NumbersStatements program eligible state statements stop)
    (hid : id ∉ statements.flatMap Tree.ids) :
    stop.numbering.value? id = state.numbering.value? id := by
  induction hnumbers with
  | nil => rfl
  | cons hfirst _ ih =>
    rw [List.flatMap_cons, List.mem_append, not_or] at hid
    rw [ih hid.2, hfirst.value?_eq hid.1]

end Frames

/-! ### Blocks -/

section Values

variable {program : Program} {state stop : Numberer} {events before after : List NumberEvent}

/-- What has a value keeps it if no node gets two values. -/
theorem Program.Passes.value?_mono (hpasses : program.Passes {} before state)
    (hlater : program.Passes state after stop)
    (hnodup : (NumberEvent.valued (before ++ after)).Nodup) {id : NodeId} {value : Value}
    (hvalue : state.numbering.value? id = some value) : stop.numbering.value? id = some value := by
  have hbefore := hpasses.value_mem hvalue rfl
  rw [NumberEvent.valued_append, List.nodup_append'] at hnodup
  rw [hlater.value?_eq fun hafter => hnodup.2.2 (NumberEvent.mem_valued.mpr hbefore)
    (NumberEvent.mem_valued.mpr hafter), hvalue]

/-- A node gets its value at one point of a passage. -/
theorem Program.Passes.exists_of_value (hpasses : program.Passes {} events stop)
    (hnodup : (NumberEvent.valued events).Nodup) {id : NodeId} (hid : .value id ∈ events) :
    ∃ before after state state', events = before ++ .value id :: after ∧
      program.Passes {} before state ∧ program.Happens state (some (.value id)) state' ∧
        program.Passes state' after stop ∧ stop.numbering.value? id = state'.numbering.value? id ∧
          ∀ other value, state.numbering.value? other = some value →
            stop.numbering.value? other = some value := by
  obtain ⟨before, after, rfl⟩ := List.append_of_mem hid
  obtain ⟨middle, hbefore, hrest⟩ := hpasses.exists_of_append
  obtain ⟨state, state', hsilent, hevent, hafter⟩ := hrest.exists_of_cons
  have hstart : program.Passes {} before state := by simpa using hbefore.trans hsilent
  refine ⟨before, after, state, state', rfl, hstart, hevent, hafter,
    hafter.value?_eq fun hmem => ?_, fun other value =>
      hstart.value?_mono (.step hevent hafter) hnodup⟩
  rw [NumberEvent.valued_append, NumberEvent.valued_cons_value, List.nodup_append', List.nodup_cons]
    at hnodup
  exact hnodup.2.1.1 (NumberEvent.mem_valued.mpr hmem)

end Values

/-! ### The values of noted nodes -/

/-- What has been noted has its number as a value. -/
def Numberer.Recorded (numberer : Numberer) : Prop :=
  ∀ id number, (id, number) ∈ numberer.numbering.occurrences →
    (id, [number]) ∈ numberer.numbering.values

section Recorded

variable {program : Program} {eligible : NodeKinds} {state stop : Numberer}

theorem Numberer.Recorded.mono (hrecorded : state.Recorded)
    (hoccurrences : stop.numbering.occurrences = state.numbering.occurrences)
    (hvalues : state.numbering.values ⊆ stop.numbering.values) : stop.Recorded :=
      fun id number hnoted =>
  hvalues (hrecorded id number (hoccurrences ▸ hnoted))

theorem Numberer.Recorded.noted (hrecorded : state.Recorded)
    (eligible : NodeKinds) (tree : Tree) (number : ValueNumber) :
    (state.noted eligible tree number).Recorded := by
  intro id other hnoted
  have hself : (tree.id, [number]) ∈ (state.noted eligible tree number).numbering.values :=
    Numberer.mem_values_of_value? (state.value?_noted_self eligible tree number)
  have hkeep : (id, [other]) ∈ state.numbering.values →
      (id, [other]) ∈ (state.noted eligible tree number).numbering.values := by
    obtain ⟨occurrences, -, hsame⟩ := state.exists_noted_eq eligible tree number
    rw [hsame]
    exact List.mem_cons_of_mem _
  unfold Numberer.noted at hnoted
  split at hnoted
  · rcases List.mem_append.mp hnoted with hold | hnew
    · exact hkeep (hrecorded id other hold)
    · obtain ⟨rfl, rfl⟩ := Prod.mk.inj (List.mem_singleton.mp hnew)
      exact hself
  · exact hkeep (hrecorded id other hnoted)

theorem Numbers.recorded {trees : List Tree} {values : List Value}
    (hnumbers : Numbers eligible state trees values stop)
    (hrecorded : state.Recorded) : stop.Recorded := by
  induction hnumbers with
  | nil => exact hrecorded
  | @read state stop id read children rest values _ ih =>
    refine ih (hrecorded.mono (by simp) ?_)
    rw [← Numberer.values_read read]
    exact List.subset_cons_self _ _
  | @compute state between stop tree rest values key _ _ _ _ ih ih' =>
    exact ih' (((ih hrecorded).mono (by simp) (by simp)).noted eligible tree _)

theorem Overwrites.recorded {trees : List Tree}
    (hwrites : Overwrites program eligible state trees stop)
    (hrecorded : state.Recorded) : stop.Recorded := by
  induction hwrites with
  | nil => exact hrecorded
  | cons hindices _ _ _ ih =>
    exact ih
      ((hindices.recorded (hrecorded.mono rfl (List.Subset.refl _))).mono (by simp) (by simp))

theorem NumbersStatement.recorded {statement : Tree}
    (hnumbers : NumbersStatement program eligible state statement stop)
    (hrecorded : state.Recorded) : stop.Recorded := by
  cases hnumbers with
  | assign hvalue hindices =>
    exact (hindices.recorded (hvalue.recorded hrecorded)).mono (by simp) (by simp)
  | @stored called _ _ callee _ _ _ values _ _ _ _ _ harguments hindices =>
    have hcounted : (called.numberOf (.call callee values)).2.Recorded :=
      (harguments.recorded hrecorded).mono (by simp) (by simp)
    exact (hindices.recorded (hcounted.noted eligible _ _)).mono (by simp) (by simp)
  | @dropped called id callee signature arguments values _ _ harguments =>
    refine (harguments.recorded hrecorded).mono (by simp) ?_
    rw [← Numberer.values_numberOf (.call callee values)]
    exact List.subset_cons_self _ _
  | effectful _ _ hinputs hwritten hresult =>
    exact hresult.recorded ((hwritten.recorded (hinputs.recorded hrecorded)).mono rfl
      (List.subset_cons_self _ _))
  | operands _ hoperands => exact hoperands.recorded hrecorded

theorem NumbersStatements.recorded {statements : List Tree}
    (hnumbers : NumbersStatements program eligible state statements stop)
    (hrecorded : state.Recorded) :
    stop.Recorded := by
  induction hnumbers with
  | nil => exact hrecorded
  | cons hfirst _ ih => exact ih (hfirst.recorded hrecorded)

theorem Program.Passes.map_fst_values {events : List NumberEvent}
    (hpasses : program.Passes state events stop) :
    stop.numbering.values.map Prod.fst = (NumberEvent.valued events).reverse ++
      state.numbering.values.map Prod.fst := by
  induction hpasses with
  | nil => rfl
  | step hfirst _ ih =>
    rw [ih, NumberEvent.valued_append, List.reverse_append, List.append_assoc]
    congr 1
    cases hfirst with
    | fresh | call => rfl
    | read => simp [Numberer.setValue, NumberEvent.valued, NumberEvent.valued?]
    | compute =>
      simp [Numberer.withOccurrences, Numberer.setValue, NumberEvent.valued, NumberEvent.valued?]
    | write => simp [NumberEvent.valued, NumberEvent.valued?]

/-- The value of a noted node is its number. -/
theorem NumbersStatements.value?_of_occurrence {statements : List Tree}
    (hnumbers : NumbersStatements program eligible {} statements stop)
    (hdraws : ∀ statement ∈ statements, program.Draws statement)
    (hsound : ∀ statement ∈ statements, program.Sound statement)
    (hnodup : (statements.flatMap Tree.ids).Nodup)
    {id : NodeId} {number : ValueNumber} (hnoted : (id, number) ∈ stop.numbering.occurrences) :
    stop.numbering.value? id = some [number] := by
  have hpasses := hnumbers.passes hdraws hsound (List.nodup_flatMap.mp hnodup).1 Numberer.uses_nil
  have hvalues := hpasses.map_fst_values
  have hkeys : (stop.numbering.values.map Prod.fst).Nodup := by
    rw [hvalues, List.map_nil, List.append_nil, List.nodup_reverse]
    exact Program.nodup_valued hsound hnodup
  have hnone : Numberer.Recorded {} := fun _ _ hmem => by cases hmem
  have hvalue := hnumbers.recorded hnone id number hnoted
  obtain ⟨before, after, hsplit⟩ := List.append_of_mem hvalue
  rw [hsplit, List.map_append, List.nodup_append'] at hkeys
  refine List.lookup_eq_some_iff.mpr ⟨before, after, hsplit, fun entry hentry => bne_iff_ne.mpr ?_⟩
  rintro rfl
  exact hkeys.2.2 (List.mem_map_of_mem hentry) (by simp)

end Recorded

/-- These are the events of a row of statements, whose trees the program holds. -/
def Program.EventsOf (program : Program) (statements : List NodeId)
    (events : List NumberEvent) : Prop :=
  ∃ trees : List Tree, trees.map Tree.id = statements ∧ (∀ tree ∈ trees, program.Draws tree) ∧
    trees.flatMap program.events = events

theorem Program.Draws.unique_row {program : Program} {trees trees' : List Tree}
    (hdraws : ∀ tree ∈ trees, program.Draws tree) (hdraws' : ∀ tree ∈ trees', program.Draws tree)
    (hids : trees.map Tree.id = trees'.map Tree.id) : trees = trees' := by
  induction trees generalizing trees' with
  | nil => exact (List.map_eq_nil_iff.mp hids.symm).symm
  | cons tree trees ih =>
    obtain ⟨tree', rest, rfl, hid, hrest⟩ := List.map_eq_cons_iff.mp hids.symm
    rw [List.forall_mem_cons] at hdraws hdraws'
    rw [hdraws.1.unique hdraws'.1 hid.symm, ih hdraws.2 hdraws'.2 hrest.symm]

namespace Graph

variable {program : Program} {config limits : Config} {graph : Graph} {block : BasicBlock}
  {statements : List NodeId}

section

variable (hcheck : program.check = .ok ()) (hbuild : Query.Answers (build program limits) graph)
  (hblock : block ∈ graph.blocks) (hstatements : block.statements program = .ok statements)

include hcheck hbuild hblock hstatements

/-- The statements of a block are sound trees that share no node. -/
theorem exists_trees_of_block :
    ∃ trees : List Tree, trees.map Tree.id = statements ∧ (trees.flatMap Tree.ids).Nodup ∧
    (∀ tree ∈ trees, program.Draws tree) ∧ (∀ tree ∈ trees, program.Sound tree) ∧
      ∀ tree ∈ trees, ∀ operand ∈ tree.children, program.SoundOperand operand := by
  obtain ⟨code, houtlines, hbuilt⟩ := exists_built_of_build hcheck hbuild
  have hrow := (hbuilt.depicts.holds block hblock).statements houtlines.frames
  obtain rfl := Except.ok.inj (hrow.symm.trans hstatements)
  obtain ⟨trees, htrees, hids⟩ := hbuilt.depicts.exists_trees hblock
  have hnodup : trees.Nodup :=
    List.Nodup.of_map Tree.id (hids ▸ hbuilt.depicts.nodup_row houtlines.nodup_order hblock)
  obtain ⟨row, hperm, hsublist⟩ := List.subperm_of_subset hnodup htrees
  exact ⟨trees, hids,
    (hperm.flatMap_right _).nodup_iff.mp (houtlines.nodup.sublist (hsublist.flatMap _)),
    fun tree htree => houtlines.draws.statement tree (htrees htree), fun tree htree =>
      houtlines.sound tree (htrees htree), fun tree htree => houtlines.operands tree (htrees htree)⟩

theorem exists_eventsOf_of_block : ∃ events, program.EventsOf statements events := by
  obtain ⟨trees, hids, -, hdraws, -⟩ := exists_trees_of_block hcheck hbuild hblock hstatements
  exact ⟨_, trees, hids, hdraws, rfl⟩

/-- The numbering of a block is the end of a passage through its events from nothing, in which no
node gets two values. -/
theorem exists_passes_of_numberStatements {numbering : Numbering}
    (hnumbering : Query.Answers (program.numberStatements statements config) numbering)
    {events : List NumberEvent} (hevents : program.EventsOf statements events) :
    (NumberEvent.valued events).Nodup ∧ ∃ stop, program.Passes {} events stop ∧
      stop.numbering = numbering := by
  obtain ⟨trees, rfl, hnodup, hdraws, hsound, hoperands⟩ :=
    exists_trees_of_block hcheck hbuild hblock hstatements
  obtain ⟨trees', hids, hdraws', rfl⟩ := hevents
  obtain rfl := Program.Draws.unique_row hdraws' hdraws hids
  obtain ⟨stop, hnumbers, rfl, -⟩ :=
    Program.exists_numbers_of_numberStatements hdraws hsound hoperands hnumbering
  refine ⟨Program.nodup_valued hsound hnodup, stop,
    hnumbers.passes hdraws hsound (fun tree htree => ?_) Numberer.uses_nil, rfl⟩
  exact (List.nodup_flatMap.mp hnodup).1 tree htree

end

end Graph

end ShaderIR
