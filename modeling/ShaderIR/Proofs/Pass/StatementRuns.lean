import ShaderIR.Proofs.Interp.Locality
import ShaderIR.Proofs.Pass.LiftingRuns
import ShaderIR.Proofs.Rows

/-!
Runs of edited statements. `Program.parts` lists the operands of a statement with their roles, and
`Program.Undisturbed` says that nothing is taken out of a written place that an earlier store of the
same statement could change. `Program.Performs.withChildren` says that such a statement does after
its rows what the old one does, up to the temporaries and the texture operations that are not
repeated.
-/

set_option autoImplicit false

namespace ShaderIR

/-! ### The operands of a statement -/

/-- What the arguments of a call are to it. -/
def Signature.roles (signature : Signature) : List Role :=
  signature.params.map fun param => if param.mode = .input then .value else .place

/-- The operands of a statement with what they are to it, where the value of an assignment has a
role of its own. -/
def Program.parts (program : Program) (valueRole : Role) (statement : Tree) : List (Role × Tree) :=
  match statement.node, statement.children with
  | .assign .., [value, target] => [(valueRole, value), (.place, target)]
  | .call callee .., operands =>
    match program.signature callee with
    | .ok signature => (signature.roles ++ [Role.place]).zip operands
    | .error _ => []
  | _, operands => operands.map (Role.value, ·)

/-- The arguments that a call both reads and writes. -/
def Program.updated (program : Program) (statement : Tree) : List Tree :=
  match statement.node with
  | .call callee ids _ =>
    match program.signature callee with
    | .ok signature => ((signature.params.zip (statement.children.take ids.length)).filter
        fun passed => passed.1.mode == .inout).map Prod.snd
    | .error _ => []
  | _ => []

/-- The places that a statement writes to, in order. -/
def Program.writtenBy (program : Program) (statement : Tree) : List Tree :=
  ((program.parts .value statement).filter fun item => item.1 = .place).map Prod.snd

/-- A store in the first place leaves alone what is taken out of the second one. -/
def Tree.Spares (verdict : Verdict) (earlier later : Tree) : Prop :=
  ∀ below ∈ Role.place.loose later, verdict below ≠ none → ∀ root ∈ earlier.root?,
    root ∉ below.reads

/-- No store of a statement changes what is taken out of a place that is written later. -/
def Program.Undisturbed (program : Program) (verdict : Verdict) (statement : Tree) : Prop :=
  (program.writtenBy statement).Pairwise (Tree.Spares verdict)

namespace Program

variable {program program' : Program}

theorem parts_congr (hsignatures : program'.signatures = program.signatures)
    (valueRole : Role) (statement : Tree) :
    program'.parts valueRole statement = program.parts valueRole statement := by
  simp only [parts, signature_congr hsignatures]

theorem writtenBy_congr (hsignatures : program'.signatures = program.signatures)
    (statement : Tree) : program'.writtenBy statement = program.writtenBy statement := by
  rw [writtenBy, writtenBy, parts_congr hsignatures]

theorem parts_call {id : NodeId} {callee : SignatureId}
    {arguments : List Tree} {result : Option Tree}
    {signature : Signature} (hsignature : program.signature callee = .ok signature)
    (hlength : signature.params.length = arguments.length) {valueRole : Role} :
    program.parts valueRole ⟨id, .call callee (arguments.map Tree.id) (result.map Tree.id),
      arguments ++ result.toList⟩ =
        signature.roles.zip arguments ++ result.toList.map (Role.place, ·) := by
  rw [parts]
  simp only [hsignature]
  rw [List.zip_append (by simp [Signature.roles, hlength])]
  cases result <;> rfl

theorem map_snd_parts {statement : Tree} (hsound : program.Sound statement) (valueRole : Role) :
    (program.parts valueRole statement).map Prod.snd = statement.children := by
  cases hsound with
  | call id callee arguments result signature hsignature hlength =>
    rw [parts_call hsignature hlength, List.map_append,
      List.map_snd_zip (by simp [Signature.roles, hlength])]
    simp
  | _ => simp [parts]

/-! ### Defined operands -/

/-- What is taken out of an operand is defined. -/
def Ready (program : Program) (verdict : Verdict) (slots : Array Lanes) (role : Role)
    (tree : Tree) : Prop :=
  ∀ below ∈ role.loose tree, verdict below ≠ none → (below.reading program.vars slots).Defined

end Program

theorem Tree.defined_of_mem_subtrees {vars : Array Variable} {slots : Array Lanes} {tree : Tree}
    (hlinked : tree.Linked) (hdefined : (tree.reading vars slots).Defined) :
    ∀ below ∈ tree.subtrees, (below.reading vars slots).Defined := by
  induction tree using Tree.induction with
  | step id node children ih =>
    refine Tree.forall_subtrees_mk.mpr ⟨hdefined, fun child hchild => ?_⟩
    exact ih child hchild (hlinked.child hchild)
      (Tree.defined_of_mem_children hlinked hdefined child hchild)

theorem Tree.subtrees_subset_of_mem_indices {tree : Tree} :
    ∀ position ∈ tree.indices, position.subtrees ⊆ tree.subtrees := by
  induction tree using Tree.indices.induct with
  | case1 id base place baseTree position ih =>
    simp only [Tree.indices, List.forall_mem_cons]
    refine ⟨fun below hbelow => ?_, fun other hother below hbelow => ?_⟩
    · exact Tree.mem_subtrees_of_mem_children (by simp) hbelow
    · exact Tree.mem_subtrees_of_mem_children List.mem_cons_self (ih other hother hbelow)
  | case2 id recordId number record ih =>
    simp only [Tree.indices]
    exact fun other hother below hbelow =>
      Tree.mem_subtrees_of_mem_children List.mem_cons_self (ih other hother hbelow)
  | case3 tree hindex hfield =>
    simp [Tree.indices]

theorem Role.loose_subset_subtrees {role : Role} {tree : Tree} :
    role.loose tree ⊆ tree.subtrees := by
  cases role with
  | place =>
    intro below hbelow
    obtain ⟨position, hposition, hbelow⟩ := List.mem_flatMap.mp hbelow
    exact Tree.subtrees_subset_of_mem_indices position hposition hbelow
  | _ => exact List.Subset.refl _

/-! ### Stores -/

/-- A run is at the same point as another one, up to its temporaries and to what it has counted. -/
structure Machine.Follows (bound : Nat) (machine machine' : Machine) : Prop where
  same : ∀ index < bound, machine'.slots[index]? = machine.slots[index]?
  sequence : machine'.sequence = machine.sequence
  writes : machine'.trace.writes = machine.trace.writes
  discarded : machine'.trace.discarded = machine.trace.discarded

/-- The variables from an index on are left alone. -/
def Machine.KeepsFrom (bound : Nat) (machine machine' : Machine) : Prop :=
  ∀ index, bound ≤ index → machine'.slots[index]? = machine.slots[index]?

namespace Machine

variable {bound : Nat} {machine machine' : Machine}

theorem Follows.sampled (hfollows : Follows bound machine machine') (count count' : Nat) :
    Follows bound (machine.sampled count) (machine'.sampled count') :=
  ⟨hfollows.same, hfollows.sequence, hfollows.writes, hfollows.discarded⟩

theorem Follows.called (hfollows : Follows bound machine machine') (signature : Signature) :
    Follows bound (machine.called signature) (machine'.called signature) where
  same := hfollows.same
  sequence := by simp only [Machine.called, hfollows.sequence]
  writes := hfollows.writes
  discarded := hfollows.discarded

end Machine

theorem Role.Steady.trans {program : Program} {verdict : Verdict} {role : Role}
    {slots between later : Array Lanes} {tree : Tree}
    (hfirst : role.Steady program verdict slots between tree)
    (hsecond : role.Steady program verdict between later tree) :
    role.Steady program verdict slots later tree :=
  fun below hbelow htaken => (hsecond below hbelow htaken).trans (hfirst below hbelow htaken)

namespace Program

variable {program program' : Program} {verdict : Verdict} {Solid : Prop}

theorem Stores.slots_eq {target : Tree} {value : Lanes} {mask : UInt8} {machine machine' : Machine}
    (hstores : program.Stores target value mask machine machine') {index : Nat}
    (hindex : ∀ root ∈ target.root?, index ≠ root.index) :
    machine'.slots[index]? = machine.slots[index]? := by
  obtain ⟨place, hplace, rfl⟩ := hstores
  exact Array.getElem?_setIfInBounds_ne (hindex _ (Tree.root?_eq_of_place hplace)).symm

/-- What is spared by a store is found to be the same after it. -/
theorem Stores.steady {target later : Tree} {value : Lanes} {mask : UInt8}
    {machine machine' : Machine} (hstores : program.Stores target value mask machine machine')
    (hspares : target.Spares verdict later) :
    Role.place.Steady program verdict machine.slots machine'.slots later := by
  intro below hbelow htaken
  refine Tree.reading_congr fun read hread => hstores.slots_eq fun root hroot hsame => ?_
  have hsame : read = root := by
    cases read
    cases root
    exact congrArg VarId.mk hsame
  exact hspares below hbelow htaken root hroot (hsame ▸ hread)

/-- A value is stored through an edited place as it is through the old one. -/
theorem Stores.follows {target target' : Tree} {value : Lanes} {mask : UInt8}
    {machine machine₁ machine' : Machine}
    (hvars : ∀ (index : Nat) declared, program.vars[index]? = some declared →
      program'.vars[index]? = some declared)
    (hstores : program.Stores target value mask machine machine₁)
    (hagrees : Tree.AgreesAs program program' Solid machine.slots machine'.slots
      (.place, target) target') (hfollows : Machine.Follows program.vars.size machine machine') :
    ∃ machine₁', program'.Stores target' value mask machine' machine₁' ∧
      Machine.Follows program.vars.size machine₁ machine₁' ∧
      Machine.KeepsFrom program.vars.size machine' machine₁' := by
  obtain ⟨place, hplace, rfl⟩ := hstores
  obtain ⟨place', hplace', -, rfl | ⟨hsolid, -⟩⟩ := hagrees.place place hplace
  · have hroot := Tree.root_lt_of_place hplace
    have hslot :
        machine'.slots.getD place'.root.index [] = machine.slots.getD place'.root.index [] := by
      rw [Array.getD_eq_getD_getElem?, Array.getD_eq_getD_getElem?, hfollows.same _ hroot]
    have hdeclared := hvars _ _ (Array.getElem?_eq_getElem hroot)
    refine ⟨_, ⟨place', hplace', rfl⟩, ⟨fun index hindex => ?_, hfollows.sequence, ?_,
      hfollows.discarded⟩, fun index hindex => ?_⟩
    · simp only [Machine.stored, Machine.sampled_slots, hslot, Array.getElem?_setIfInBounds]
      have hsize : place'.root.index < machine'.slots.size ↔
          place'.root.index < machine.slots.size := by
        have hsame := hfollows.same _ hroot
        grind
      simp only [hsize, hfollows.same index hindex]
    · simp only [Machine.stored, hslot, hdeclared, Array.getElem?_eq_getElem hroot, Machine.sampled,
        hfollows.writes]
    · exact Array.getElem?_setIfInBounds_ne (by omega)
  · exact absurd rfl hsolid.1

/-- Values are stored through edited places as they are through the old ones, when no store changes
what has been taken out of a later place. -/
theorem StoresAll.follows {stores stores' : List (Tree × Lanes)}
    {slots after : Array Lanes} {next : Nat} {machine machine₁ machine' : Machine}
    (hvars : ∀ (index : Nat) declared, program.vars[index]? = some declared →
      program'.vars[index]? = some declared) (hstores : program.StoresAll stores machine machine₁)
    (hitems : List.Forall₂ (fun store store' => store'.2 = store.2 ∧
        Lifted.StandsFor program program' verdict Solid slots after next (.place, store.1) store'.1)
      stores stores') (hspares : (stores.map Prod.fst).Pairwise (Tree.Spares verdict))
    (hsteady : ∀ store ∈ stores, Role.place.Steady program verdict slots machine.slots store.1)
    (hfollows : Machine.Follows program.vars.size machine machine')
    (hafter : ∀ index, program.vars.size ≤ index → machine'.slots[index]? = after[index]?) :
    ∃ machine₁', program'.StoresAll stores' machine' machine₁' ∧
      Machine.Follows program.vars.size machine₁ machine₁' ∧
      Machine.KeepsFrom program.vars.size machine' machine₁' := by
  induction hstores generalizing stores' machine' with
  | nil =>
    cases hitems
    exact ⟨machine', .nil _, hfollows, fun _ _ => rfl⟩
  | @cons target value rest machine between machine₁ hfirst _ ih =>
    obtain ⟨⟨target', value'⟩, rest', ⟨hvalue, hagrees⟩, hrestItems, rfl⟩ :=
      List.forall₂_cons_left_iff.mp hitems
    obtain rfl : value' = value := hvalue
    obtain ⟨hsparesRest, hspares⟩ := List.pairwise_cons.mp hspares
    obtain ⟨hsteadyFirst, hsteady⟩ := List.forall_mem_cons.mp hsteady
    obtain ⟨between', hfirst', hfollows', hkeeps⟩ := hfirst.follows hvars
      (hagrees _ _ hfollows.same (fun index _ => hafter index) hsteadyFirst) hfollows
    obtain ⟨machine₁', hrest', hfollows₁, hkeeps₁⟩ := ih hrestItems hspares
      (fun store hstore => (hsteady store hstore).trans
        (hfirst.steady (hsparesRest store.1 (List.mem_map_of_mem hstore))))
      hfollows' (fun index hindex => (hkeeps index hindex).trans (hafter index hindex))
    exact ⟨machine₁', .cons hfirst' hrest', hfollows₁, fun index hindex =>
      (hkeeps₁ index hindex).trans (hkeeps index hindex)⟩

/-- What is taken out of the places of a row of stores is defined before the first one. -/
theorem StoresAll.ready {stores : List (Tree × Lanes)} {machine machine' : Machine}
    (hstores : program.StoresAll stores machine machine')
    (hspares : (stores.map Prod.fst).Pairwise (Tree.Spares verdict))
    (hlinked : ∀ store ∈ stores, store.1.Linked) :
    ∀ store ∈ stores, program.Ready verdict machine.slots .place store.1 := by
  induction hstores with
  | nil => simp
  | @cons target value rest machine between machine' hfirst _ ih =>
    obtain ⟨hsparesRest, hspares⟩ := List.pairwise_cons.mp hspares
    obtain ⟨hlinked, hlinkedRest⟩ := List.forall_mem_cons.mp hlinked
    refine List.forall_mem_cons.mpr ⟨?_, fun store hstore below hbelow htaken => ?_⟩
    · obtain ⟨place, hplace, -⟩ := hfirst
      exact fun below hbelow _ => Tree.defined_of_mem_subtrees hlinked
        (Or.inr (by rw [hplace]; rfl)) below (Role.loose_subset_subtrees hbelow)
    · have hsame :=
        hfirst.steady (hsparesRest store.1 (List.mem_map_of_mem hstore)) below hbelow htaken
      rw [← hsame]
      exact ih hspares hlinkedRest store hstore below hbelow htaken

end Program

/-! ### Calls -/

namespace Signature

variable {α : Type} {signature : Signature} {arguments : List α}

/-- The places of the stores in arguments are the written arguments. -/
theorem map_fst_writtenFrom (written : Nat → Ty → Lanes) (number : Nat) :
    (writtenFrom written number signature.params arguments).map Prod.fst =
      ((signature.roles.zip arguments).filter fun item => item.1 = .place).map Prod.snd := by
  unfold roles
  generalize signature.params = params
  induction params generalizing arguments number with
  | nil => simp [writtenFrom]
  | cons param params ih =>
    cases arguments with
    | nil => simp [writtenFrom]
    | cons argument arguments =>
      rw [writtenFrom, List.map_append, ih]
      cases hmode : param.mode <;> simp [ParamMode.writes, hmode]

/-- The same values are stored in edited arguments. -/
theorem forall₂_writtenFrom {R : Role × α → α → Prop} (written : Nat → Ty → Lanes) (number : Nat)
    {arguments' : List α} (hlength : signature.params.length = arguments.length)
    (hitems : List.Forall₂ R (signature.roles.zip arguments) arguments') :
    List.Forall₂ (fun store store' => store'.2 = store.2 ∧ R (.place, store.1) store'.1)
      (writtenFrom written number signature.params arguments)
      (writtenFrom written number signature.params arguments') := by
  unfold roles at hitems
  revert hlength hitems
  generalize signature.params = params
  intro hlength hitems
  induction params generalizing arguments arguments' number with
  | nil => simp [writtenFrom]
  | cons param params ih =>
    cases arguments with
    | nil => simp at hlength
    | cons argument arguments =>
      rw [List.map_cons, List.zip_cons_cons] at hitems
      obtain ⟨argument', rest', hfirst, hrest, rfl⟩ := List.forall₂_cons_left_iff.mp hitems
      have hlater := ih (number + 1) (by simpa using hlength) hrest
      rw [writtenFrom, writtenFrom]
      refine List.rel_append ?_ hlater
      cases hmode : param.mode <;> simp_all [ParamMode.writes]

/-- A call of edited arguments reads the edited ones of those that it reads. -/
theorem forall₂_inputs {R : Role × α → α → Prop} {arguments' : List α}
    (hlength : signature.params.length = arguments.length)
    (hitems : List.Forall₂ R (signature.roles.zip arguments) arguments') :
    List.Forall₂ (fun argument argument' => ∃ role, R (role, argument) argument')
      (signature.inputs arguments) (signature.inputs arguments') := by
  unfold roles at hitems
  unfold inputs
  revert hlength hitems
  generalize signature.params = params
  intro hlength hitems
  induction params generalizing arguments arguments' with
  | nil => simp
  | cons param params ih =>
    cases arguments with
    | nil => simp at hlength
    | cons argument arguments =>
      rw [List.map_cons, List.zip_cons_cons] at hitems
      obtain ⟨argument', rest', hfirst, hrest, rfl⟩ := List.forall₂_cons_left_iff.mp hitems
      have hlater := ih (by simpa using hlength) hrest
      rw [List.zip_cons_cons, List.zip_cons_cons]
      cases hmode : param.mode with
      | output => simpa [hmode] using hlater
      | _ =>
        rw [List.filter_cons_of_pos (by simp [hmode]), List.filter_cons_of_pos (by simp [hmode])]
        exact .cons ⟨_, hfirst⟩ hlater

end Signature

namespace Program

variable {program program' : Program} {verdict : Verdict} {Solid : Prop}

theorem lanesOf?_of_forall₂ {machine machine' : Machine} {operands operands' : List Tree}
    (hoperands : List.Forall₂ (fun operand operand' => ∀ lanes,
      (operand.reading program.vars machine.slots).lanes = some lanes →
        (operand'.reading program'.vars machine'.slots).lanes = some lanes) operands operands')
    {values : List Lanes} (hvalues : program.lanesOf? machine operands = some values) :
    program'.lanesOf? machine' operands' = some values := by
  induction hoperands generalizing values with
  | nil => exact hvalues
  | cons hfirst _ ih =>
    obtain ⟨lanes, later, hlanes, hlater, rfl⟩ := lanesOf?_cons_eq_some_iff.mp hvalues
    exact lanesOf?_cons_eq_some_iff.mpr ⟨lanes, later, hfirst lanes hlanes, ih hlater, rfl⟩

theorem map_fst_stores (id : NodeId) {callee : SignatureId} {arguments : List Tree}
    {result : Option Tree} {signature : Signature}
    (hsignature : program.signature callee = .ok signature)
    (hlength : signature.params.length = arguments.length) (inputs : List Lanes) (sequence : Nat) :
    (signature.stores callee inputs sequence arguments result).map Prod.fst =
      program.writtenBy ⟨id, .call callee (arguments.map Tree.id) (result.map Tree.id),
        arguments ++ result.toList⟩ := by
  rw [writtenBy, parts_call hsignature hlength, Signature.stores, List.map_append,
    Signature.map_fst_writtenFrom, List.filter_append, List.map_append]
  congr 1
  cases result <;> simp

theorem defined_of_lanesOf? {machine : Machine} {operands : List Tree} {values : List Lanes}
    (hvalues : program.lanesOf? machine operands = some values) :
    ∀ operand ∈ operands, (operand.reading program.vars machine.slots).Defined := by
  induction operands generalizing values with
  | nil => simp
  | cons first rest ih =>
    obtain ⟨lanes, later, hlanes, hlater, -⟩ := lanesOf?_cons_eq_some_iff.mp hvalues
    exact List.forall_mem_cons.mpr ⟨Or.inl (by rw [hlanes]; rfl), ih hlater⟩

theorem ready_of_defined {slots : Array Lanes} {role : Role} {tree : Tree} (hlinked : tree.Linked)
    (hdefined : (tree.reading program.vars slots).Defined) :
    program.Ready verdict slots role tree :=
  fun below hbelow _ => Tree.defined_of_mem_subtrees hlinked hdefined below
    (Role.loose_subset_subtrees hbelow)

theorem mem_stores_of_mem_parts {id : NodeId} {callee : SignatureId} {arguments : List Tree}
    {result : Option Tree} {signature : Signature}
    (hsignature : program.signature callee = .ok signature)
    (hlength : signature.params.length = arguments.length) (inputs : List Lanes) (sequence : Nat)
    {valueRole : Role} {item : Role × Tree}
    (hitem : item ∈ program.parts valueRole ⟨id, .call callee (arguments.map Tree.id)
        (result.map Tree.id), arguments ++ result.toList⟩) (hrole : item.1 = .place) :
    ∃ store ∈ signature.stores callee inputs sequence arguments result, store.1 = item.2 := by
  refine List.mem_map.mp ?_
  rw [map_fst_stores id hsignature hlength, writtenBy, parts_call hsignature hlength]
  rw [parts_call hsignature hlength] at hitem
  exact List.mem_map_of_mem (List.mem_filter.mpr ⟨hitem, by simpa using hrole⟩)

theorem mem_inputs_of_mem_parts {id : NodeId} {callee : SignatureId} {arguments : List Tree}
    {result : Option Tree} {signature : Signature}
    (hsignature : program.signature callee = .ok signature)
    (hlength : signature.params.length = arguments.length) {valueRole : Role} {item : Role × Tree}
    (hitem : item ∈ program.parts valueRole ⟨id, .call callee (arguments.map Tree.id)
        (result.map Tree.id), arguments ++ result.toList⟩) (hrole : item.1 ≠ .place) :
    item.2 ∈ signature.inputs arguments := by
  rw [parts_call hsignature hlength, List.mem_append] at hitem
  rcases hitem with hitem | hitem
  · rw [Signature.roles, List.zip_map_left] at hitem
    obtain ⟨⟨param, argument⟩, hpassed, rfl⟩ := List.mem_map.mp hitem
    refine List.mem_map.mpr ⟨(param, argument), List.mem_filter.mpr ⟨hpassed, ?_⟩, rfl⟩
    cases hmode : param.mode <;> simp_all
  · obtain ⟨place, -, rfl⟩ := List.mem_map.mp hitem
    exact absurd rfl hrole

/-- What is taken out of a statement that can be performed is defined before it. -/
theorem Performs.ready {statement : Tree} {machine machine' : Machine} {outcome : Outcome}
    (hperforms : program.Performs statement machine outcome machine')
    (hsound : program.Sound statement) (hlinked : ∀ operand ∈ statement.children, operand.Linked)
    (hundisturbed : program.Undisturbed verdict statement) {valueRole : Role} :
    ∀ item ∈ program.parts valueRole statement,
      program.Ready verdict machine.slots item.1 item.2 := by
  cases hsound with
  | assign id target value mask hplace =>
    obtain ⟨-, lanes, hlanes, place, htarget, -⟩ := hperforms
    simp only [List.forall_mem_cons] at hlinked
    simp only [parts, List.forall_mem_cons]
    exact ⟨ready_of_defined hlinked.1 (Or.inl (by rw [hlanes]; rfl)), ready_of_defined hlinked.2.1
        (Or.inr (by rw [← Machine.sampled_slots, htarget]; rfl)), by simp⟩
  | call id callee arguments result signature hsignature hlength =>
    obtain ⟨-, signature', inputs, hsignature', hinputs, hstores⟩ := performs_call.mp hperforms
    obtain rfl : signature = signature' := Except.ok.inj (hsignature.symm.trans hsignature')
    intro item hitem
    by_cases hrole : item.1 = .place
    · obtain ⟨store, hstore, hsame⟩ := mem_stores_of_mem_parts hsignature hlength inputs
        machine.sequence hitem hrole
      have hready := @StoresAll.ready _ verdict _ _ _ hstores
        (by rw [map_fst_stores id hsignature hlength]; exact hundisturbed) (fun store hstore => ?_)
        store hstore
      · rw [hrole, ← hsame]
        exact hready
      · refine hlinked _ ?_
        rw [← map_snd_parts (.call id callee arguments result signature hsignature hlength ‹_› ‹_›)
          .value]
        have hwritten : store.1 ∈ (signature.stores callee inputs machine.sequence arguments
          result).map Prod.fst := List.mem_map_of_mem hstore
        rw [map_fst_stores id hsignature hlength, writtenBy] at hwritten
        obtain ⟨item, hitem, hsame⟩ := List.mem_map.mp hwritten
        exact List.mem_map.mpr ⟨item, List.mem_of_mem_filter hitem, hsame⟩
    · have hinput := mem_inputs_of_mem_parts hsignature hlength hitem hrole
      exact ready_of_defined (hlinked _ (List.mem_append_left _ (inputs_subset _ _ hinput)))
        (defined_of_lanesOf? hinputs _ hinput)
  | branch id condition =>
    obtain ⟨lanes, hlanes, -⟩ := hperforms
    simp only [parts, List.map_cons, List.map_nil, List.forall_mem_cons]
    exact ⟨ready_of_defined (hlinked _ List.mem_cons_self) (Or.inl (by rw [hlanes]; rfl)), by simp⟩
  | loop => exact hperforms.elim
  | ret id value =>
    obtain ⟨-, hvalues, -⟩ := hperforms
    obtain ⟨values, hvalues⟩ := Option.isSome_iff_exists.mp hvalues
    simp only [parts, List.forall_mem_map]
    exact fun operand hoperand => ready_of_defined (hlinked _ hoperand)
      (defined_of_lanesOf? hvalues _ hoperand)
  | discard id condition =>
    obtain ⟨values, hvalues, -⟩ := hperforms
    simp only [parts, List.forall_mem_map]
    exact fun operand hoperand => ready_of_defined (hlinked _ hoperand)
      (defined_of_lanesOf? hvalues _ hoperand)

/-! ### Edited statements -/

private theorem exists_toList_of_forall₂ {α β γ : Type} {R : α → β → Prop} {value : Option γ}
    {change : γ → α} {items' : List β} (hitems : List.Forall₂ R (value.toList.map change) items') :
    ∃ value' : Option β, items' = value'.toList ∧ value'.isSome = value.isSome ∧
      ∀ held ∈ value, ∀ held' ∈ value', R (change held) held' := by
  cases value with
  | none =>
    cases hitems
    exact ⟨none, rfl, rfl, by simp⟩
  | some held =>
    obtain ⟨held', rest', hfirst, hrest, rfl⟩ := List.forall₂_cons_left_iff.mp hitems
    cases hrest
    exact ⟨some held', rfl, rfl, by simpa using hfirst⟩

/-- An edited call is a call of edited arguments. -/
theorem exists_withChildren_call {R : Role × Tree → Tree → Prop} {id : NodeId}
    {callee : SignatureId} {arguments : List Tree} {result : Option Tree} {signature : Signature}
    {valueRole : Role} {parts' : List Tree} (hsignature : program.signature callee = .ok signature)
    (hlength : signature.params.length = arguments.length)
    (hparts : List.Forall₂ R (program.parts valueRole ⟨id, .call callee (arguments.map Tree.id)
          (result.map Tree.id), arguments ++ result.toList⟩) parts') :
    ∃ (arguments' : List Tree) (result' : Option Tree), parts' = arguments' ++ result'.toList ∧
      arguments'.length = arguments.length ∧ result'.isSome = result.isSome ∧
      List.Forall₂ R (signature.roles.zip arguments) arguments' ∧
      List.Forall₂ R (result.toList.map (Role.place, ·)) result'.toList ∧
      Tree.withChildren ⟨id, .call callee (arguments.map Tree.id) (result.map Tree.id),
        arguments ++ result.toList⟩ parts' = ⟨id, .call callee (arguments'.map Tree.id)
          (result'.map Tree.id), arguments' ++ result'.toList⟩ := by
  rw [parts_call hsignature hlength] at hparts
  obtain ⟨arguments', rest', rfl, hitems, hrest⟩ := exists_append_of_forall₂ hparts
  obtain ⟨result', rfl, hsome, -⟩ := exists_toList_of_forall₂ hrest
  have hcount := hitems.length_eq
  rw [List.length_zip, Signature.roles, List.length_map, hlength, Nat.min_self] at hcount
  have hids : (arguments' ++ result'.toList).map Tree.id =
      arguments'.map Tree.id ++ (result'.map Tree.id).toList := by
    cases result' <;> simp
  refine ⟨arguments', result', rfl, hcount.symm, hsome, hitems, hrest, ?_⟩
  unfold Tree.withChildren
  dsimp only
  rw [hids, Node.refill_call (by simpa using hcount.symm) (by simpa using hsome)]

private theorem Calls.follows {callee : SignatureId} {arguments arguments' : List Tree}
    {result result' : Option Tree} {signature : Signature} {machine machine₁ machine' : Machine}
    {after : Array Lanes} {next : Nat} {id : NodeId}
    (hvars : ∀ (index : Nat) declared, program.vars[index]? = some declared →
      program'.vars[index]? = some declared)
    (hsignatures : program'.signatures = program.signatures)
    (hcalls : program.Calls callee arguments result machine machine₁)
    (hsignature : program.signature callee = .ok signature)
    (hlength : signature.params.length = arguments.length)
    (hundisturbed : program.Undisturbed verdict ⟨id, .call callee (arguments.map Tree.id)
        (result.map Tree.id), arguments ++ result.toList⟩) (hitems : List.Forall₂
      (Lifted.StandsFor program program' verdict Solid machine.slots after next)
      (signature.roles.zip arguments) arguments') (hresult : List.Forall₂
      (Lifted.StandsFor program program' verdict Solid machine.slots after next)
      (result.toList.map (Role.place, ·)) result'.toList)
    (hfollows : Machine.Follows program.vars.size machine machine')
    (hafter : machine'.slots = after) :
    ∃ machine₁', program'.Calls callee arguments' result' machine' machine₁' ∧
      Machine.Follows program.vars.size machine₁ machine₁' ∧
      Machine.KeepsFrom program.vars.size machine' machine₁' := by
  obtain ⟨found, inputs, hfound, hinputs, hstores⟩ := hcalls
  obtain rfl : signature = found := Except.ok.inj (hsignature.symm.trans hfound)
  have hvalues : program'.lanesOf? machine' (signature.inputs arguments') = some inputs := by
    refine lanesOf?_of_forall₂ ((Signature.forall₂_inputs hlength hitems).imp ?_) hinputs
    rintro operand operand' ⟨role, hstands⟩ lanes hlanes
    exact (hstands _ _ hfollows.same (fun _ _ _ => by rw [hafter]) fun _ _ _ => rfl).lanes
      lanes hlanes
  have hstores' : List.Forall₂ (fun store store' => store'.2 = store.2 ∧
      Lifted.StandsFor program program' verdict Solid machine.slots after next (.place, store.1)
        store'.1) (signature.stores callee inputs machine.sequence arguments result)
      (signature.stores callee inputs machine'.sequence arguments' result') := by
    rw [hfollows.sequence]
    refine List.rel_append (Signature.forall₂_writtenFrom _ _ hlength hitems) ?_
    rw [List.forall₂_map_left_iff] at hresult
    rw [List.forall₂_map_left_iff, List.forall₂_map_right_iff]
    exact hresult.imp fun _ _ hstands => ⟨rfl, hstands⟩
  obtain ⟨machine₁', hall, hfollows₁, hkeeps⟩ := hstores.follows hvars hstores'
    (by rw [map_fst_stores id hsignature hlength]; exact hundisturbed) (fun _ _ _ _ _ => rfl)
    ((hfollows.sampled _ ((signature.inputs arguments').map Tree.samples).sum).called signature)
    (fun _ _ => by rw [← hafter]; rfl)
  exact ⟨machine₁', ⟨signature, inputs, (signature_congr hsignatures callee).trans hsignature,
      hvalues, hall⟩, hfollows₁, hkeeps⟩

/-- An edited statement does what the old one does, when no store of it changes what has been taken
out of a later place. -/
theorem Performs.withChildren {statement : Tree} {machine machine₁ start : Machine}
    {outcome : Outcome} {next next' : Nat} {memory' : Temporaries} {valueRole : Role}
    {parts' : List Tree} {rows : List Row} {after : Array Lanes} {expected : Expected}
    (hperforms : program.Performs statement machine outcome machine₁)
    (hsound : program.Sound statement)
    (hvars : ∀ (index : Nat) declared, program.vars[index]? = some declared →
      program'.vars[index]? = some declared)
    (hsignatures : program'.signatures = program.signatures)
    (hundisturbed : program.Undisturbed verdict statement)
    (hreproduces : Lifted.Reproduces program program' verdict Solid expected machine.slots
      next next' memory' (program.parts valueRole statement) parts' rows start after)
    (hfollows : Machine.Follows program.vars.size machine start) :
    ∃ machine₁', program'.Performs (statement.withChildren parts')
        { start.sampled (rows.map fun row => row.value.samples).sum with slots := after } outcome
        machine₁' ∧
      Machine.Follows program.vars.size machine₁ machine₁' ∧
      ∀ index, program.vars.size ≤ index → machine₁'.slots[index]? = after[index]? := by
  have hagrees := hreproduces.agrees
  obtain ⟨middle, hmiddle⟩ : ∃ middle, middle = { start.sampled (rows.map fun row =>
    row.value.samples).sum with slots := after } := ⟨_, rfl⟩
  have hfollows : Machine.Follows program.vars.size machine middle := by
    subst hmiddle
    exact ⟨hreproduces.mirrors.same, hfollows.sequence, hfollows.writes, hfollows.discarded⟩
  have hafter : middle.slots = after := by rw [hmiddle]
  -- Before the statement itself changes anything, all edited operands agree with the old ones.
  have hnow : List.Forall₂ (fun item tree' => Tree.AgreesAs program program' Solid machine.slots
      middle.slots item tree') (program.parts valueRole statement) parts' :=
    hagrees.imp fun item tree' hstands => hstands _ _ hfollows.same (fun _ _ _ => by rw [hafter])
      fun _ _ _ => rfl
  rw [← hmiddle, ← hafter]
  clear hmiddle
  cases hsound with
  | assign id target value mask hplace =>
    obtain ⟨rfl, lanes, hlanes, htarget⟩ := hperforms
    obtain ⟨value', others, hvalue, hothers, rfl⟩ := List.forall₂_cons_left_iff.mp hnow
    obtain ⟨target', none', hplaceAgrees, hnone, rfl⟩ := List.forall₂_cons_left_iff.mp hothers
    cases hnone
    rw [← Machine.sampled_slots middle value'.samples] at hplaceAgrees
    obtain ⟨machine₁', htarget', hfollows₁, hkeeps⟩ := htarget.follows
      hvars hplaceAgrees (hfollows.sampled value.samples value'.samples)
    exact ⟨machine₁', ⟨rfl, lanes, hvalue.lanes lanes hlanes, htarget'⟩, hfollows₁, hkeeps⟩
  | call id callee arguments result signature hsignature hlength =>
    obtain ⟨rfl, hcalls⟩ := performs_call.mp hperforms
    obtain ⟨arguments', result', rfl, -, -, hitems, hresult', hnode⟩ :=
      exists_withChildren_call hsignature hlength hagrees
    obtain ⟨machine₁', hcalls', hfollows₁, hkeeps⟩ := hcalls.follows hvars hsignatures hsignature
      hlength hundisturbed hitems hresult' hfollows hafter
    refine ⟨machine₁', ?_, hfollows₁, hkeeps⟩
    rw [hnode]
    exact performs_call.mpr ⟨rfl, hcalls'⟩
  | branch id condition thenBody elseBody =>
    obtain ⟨lanes, hlanes, rfl, rfl⟩ := hperforms
    obtain ⟨condition', rest', hcondition, hrest, rfl⟩ := List.forall₂_cons_left_iff.mp hnow
    cases hrest
    exact ⟨_, ⟨lanes, hcondition.lanes lanes hlanes, rfl, rfl⟩, hfollows.sampled _ _,
      fun _ _ => rfl⟩
  | loop => exact hperforms.elim
  | ret id value =>
    obtain ⟨rfl, hvalues, rfl⟩ := hperforms
    obtain ⟨values, hvalues⟩ := Option.isSome_iff_exists.mp hvalues
    have hvalues' := lanesOf?_of_forall₂ ((List.forall₂_map_left_iff.mp hnow).imp
      fun _ _ hagree => hagree.lanes) hvalues
    obtain ⟨value', rfl, hsome, -⟩ := exists_toList_of_forall₂ hnow
    refine ⟨_, ?_, hfollows.sampled _ (value'.toList.map Tree.samples).sum, fun _ _ => rfl⟩
    cases value <;> cases value' <;> simp only [Option.isSome, reduceCtorEq] at hsome <;>
      exact ⟨rfl, Option.isSome_iff_exists.mpr ⟨values, hvalues'⟩, rfl⟩
  | discard id condition =>
    obtain ⟨values, hvalues, rfl, rfl⟩ := hperforms
    have hvalues' := lanesOf?_of_forall₂ ((List.forall₂_map_left_iff.mp hnow).imp
      fun _ _ hagree => hagree.lanes) hvalues
    obtain ⟨condition', rfl, hsome, -⟩ := exists_toList_of_forall₂ hnow
    refine ⟨if fires values then
      { middle.sampled (condition'.toList.map Tree.samples).sum with trace.discarded := true }
      else middle.sampled (condition'.toList.map Tree.samples).sum, ?_, ?_, ?_⟩
    · cases condition <;> cases condition' <;> simp only [Option.isSome, reduceCtorEq] at hsome <;>
        exact ⟨values, hvalues', rfl, rfl⟩
    · split
      · exact ⟨hfollows.same, hfollows.sequence, hfollows.writes, rfl⟩
      · exact hfollows.sampled _ _
    · split <;> exact fun _ _ => rfl

end Program

/-! ### Counts -/

/-- How many calls a statement makes. -/
def Node.calls : Node → Nat
  | .call .. => 1
  | _ => 0

private theorem sum_inputs_add_sum_written {params : List Param} {arguments : List Tree}
    (hlength : params.length = arguments.length) (written : Nat → Ty → Lanes) (number : Nat) :
    ((((params.zip arguments).filter fun passed => passed.1.mode != .output).map Prod.snd).map
        Tree.samples).sum +
      ((Signature.writtenFrom written number params arguments).map
        fun store => store.1.samples).sum =
      (arguments.map Tree.samples).sum +
      ((((params.zip arguments).filter fun passed => passed.1.mode == .inout).map Prod.snd).map
        Tree.samples).sum := by
  induction params generalizing arguments number with
  | nil =>
    obtain rfl := List.eq_nil_of_length_eq_zero hlength.symm
    simp [Signature.writtenFrom]
  | cons param params ih =>
    cases arguments with
    | nil => simp at hlength
    | cons argument arguments =>
      have hrest := ih (by simpa using hlength) (number + 1)
      rw [Signature.writtenFrom, List.zip_cons_cons]
      cases hmode : param.mode <;> simp [hmode, ParamMode.writes] at hrest ⊢ <;> omega

namespace Program

variable {program program' : Program} {verdict : Verdict} {Solid : Prop}

theorem updated_call {id : NodeId} {callee : SignatureId}
    {arguments : List Tree} {result : Option Tree}
    {signature : Signature} (hsignature : program.signature callee = .ok signature) :
    program.updated ⟨id, .call callee (arguments.map Tree.id) (result.map Tree.id),
      arguments ++ result.toList⟩ =
        ((signature.params.zip arguments).filter fun passed => passed.1.mode == .inout).map
          Prod.snd := by
  simp only [updated, hsignature]
  rw [List.take_left' (by simp)]

theorem StoresAll.counts {stores : List (Tree × Lanes)} {machine machine' : Machine}
    (hstores : program.StoresAll stores machine machine') :
    machine'.trace.textureSamples = machine.trace.textureSamples +
        (stores.map fun store => store.1.samples).sum ∧
      machine'.trace.calls = machine.trace.calls := by
  induction hstores with
  | nil => simp
  | cons hfirst _ ih =>
    obtain ⟨place, -, rfl⟩ := hfirst
    refine ⟨?_, ih.2⟩
    rw [ih.1, List.map_cons, List.sum_cons, ← Nat.add_assoc]
    rfl

/-- A statement makes the texture operations of its operands, those of the arguments that it both
reads and writes twice. -/
theorem Performs.counts {statement : Tree} {machine machine' : Machine} {outcome : Outcome}
    (hperforms : program.Performs statement machine outcome machine')
    (hsound : program.Sound statement) :
    machine'.trace.textureSamples = machine.trace.textureSamples +
        (statement.children.map Tree.samples).sum +
          ((program.updated statement).map Tree.samples).sum ∧
      machine'.trace.calls = machine.trace.calls + statement.node.calls := by
  cases hsound with
  | assign id target value mask hplace =>
    obtain ⟨-, lanes, hlanes, place, htarget, rfl⟩ := hperforms
    simp [Machine.stored, Machine.sampled, updated, Node.calls, Nat.add_assoc]
  | call id callee arguments result signature hsignature hlength =>
    obtain ⟨-, found, inputs, hfound, -, hstores⟩ := performs_call.mp hperforms
    obtain rfl : signature = found := Except.ok.inj (hsignature.symm.trans hfound)
    obtain ⟨hsamples, hcalls⟩ := hstores.counts
    refine ⟨?_, hcalls⟩
    have hsum := sum_inputs_add_sum_written hlength (fun number ty =>
      (Seed.written callee inputs number machine.sequence).lanes ty.flatLen) 0
    have hresult : ((result.toList.map fun place => (place, (Seed.returned callee inputs
        (if signature.isPure then none else some machine.sequence)).lanes
          signature.returnTy.flatLen)).map fun store => store.1.samples) =
        result.toList.map Tree.samples := by
      simp
    rw [hsamples, updated_call hsignature, Signature.stores, List.map_append, List.sum_append,
      hresult, List.map_append, List.sum_append]
    simp only [Machine.called, Machine.sampled, Signature.inputs] at hsum ⊢
    omega
  | branch id condition =>
    obtain ⟨lanes, -, -, rfl⟩ := hperforms
    simp [Machine.sampled, updated, Node.calls]
  | loop => exact hperforms.elim
  | ret id value =>
    obtain ⟨-, -, rfl⟩ := hperforms
    simp [Machine.sampled, updated, Node.calls]
  | discard id condition =>
    obtain ⟨values, -, -, rfl⟩ := hperforms
    split <;> simp [Machine.sampled, updated, Node.calls]

/-- An edited statement is sound if its places are places. -/
theorem Sound.withChildren {statement : Tree} {valueRole : Role} {parts' : List Tree}
    (hsound : program.Sound statement) (hsignatures : program'.signatures = program.signatures)
    (hplaces : List.Forall₂ (fun item tree' => item.1 = .place → item.2.isPlace = true →
      tree'.isPlace = true) (program.parts valueRole statement) parts') :
    program'.Sound (statement.withChildren parts') := by
  cases hsound with
  | assign id target value mask hplace =>
    obtain ⟨value', others, -, hothers, rfl⟩ := List.forall₂_cons_left_iff.mp hplaces
    obtain ⟨target', none', htarget, hnone, rfl⟩ := List.forall₂_cons_left_iff.mp hothers
    cases hnone
    exact .assign id target' value' mask (htarget rfl hplace)
  | call id callee arguments result signature hsignature hlength hwritten hresult =>
    obtain ⟨arguments', result', rfl, hcount, hsome, hitems, hplace, hnode⟩ :=
      exists_withChildren_call hsignature hlength hplaces
    rw [hnode]
    refine .call id callee arguments' result' signature
      ((signature_congr hsignatures callee).trans hsignature) (hlength.trans hcount.symm) ?_ ?_
    · intro param argument' hpassed hwrites
      obtain ⟨index, hindex, hget⟩ := List.getElem_of_mem hpassed
      rw [List.getElem_zip, Prod.mk.injEq] at hget
      obtain ⟨rfl, rfl⟩ := hget
      rw [List.length_zip] at hindex
      have hitem := (List.forall₂_iff_get.mp hitems).2 index
        (by simp [Signature.roles]; omega) (by omega)
      simp only [List.get_eq_getElem, List.getElem_zip, Signature.roles, List.getElem_map] at hitem
      refine hitem ?_ (hwritten _ _ (List.mem_iff_getElem.mpr
        ⟨index, by rw [List.length_zip]; omega, List.getElem_zip⟩) hwrites)
      rw [if_neg]
      intro hmode
      rw [hmode] at hwrites
      cases hwrites
    · cases result with
      | none => cases result' <;> simp_all
      | some place =>
        cases result' with
        | none => simp
        | some place' =>
          obtain ⟨hsame, -⟩ := List.forall₂_cons.mp hplace
          simpa using hsame rfl (hresult place rfl)
  | branch id condition thenBody elseBody =>
    obtain ⟨condition', none', -, hnone, rfl⟩ := List.forall₂_cons_left_iff.mp hplaces
    cases hnone
    exact .branch id condition' thenBody elseBody
  | loop id body =>
    cases hplaces
    exact .loop id body
  | ret id value =>
    obtain ⟨value', rfl, hsome, -⟩ := exists_toList_of_forall₂ hplaces
    cases value <;> cases value' <;> simp only [Option.isSome, reduceCtorEq] at hsome
    · exact .ret id none
    · next value' => exact .ret id (some value')
  | discard id condition =>
    obtain ⟨condition', rfl, hsome, -⟩ := exists_toList_of_forall₂ hplaces
    cases condition <;> cases condition' <;> simp only [Option.isSome, reduceCtorEq] at hsome
    · exact .discard id none
    · next condition' => exact .discard id (some condition')

private theorem sum_updated_le {params : List Param} {arguments arguments' : List Tree}
    (hlength : params.length = arguments.length)
    (hitems : List.Forall₂ (fun (argument argument' : Tree) => argument'.samples ≤ argument.samples)
      arguments arguments') :
    ((((params.zip arguments').filter fun passed => passed.1.mode == .inout).map Prod.snd).map
        Tree.samples).sum ≤
      ((((params.zip arguments).filter fun passed => passed.1.mode == .inout).map Prod.snd).map
        Tree.samples).sum := by
  induction params generalizing arguments arguments' with
  | nil => simp
  | cons param params ih =>
    cases hitems with
    | nil => simp at hlength
    | cons hfirst hrest =>
      have hlater := ih (by simpa using hlength) hrest
      rw [List.zip_cons_cons, List.zip_cons_cons]
      cases hmode : param.mode with
      | inout =>
        rw [List.filter_cons_of_pos (by simp [hmode]), List.filter_cons_of_pos (by simp [hmode])]
        exact Nat.add_le_add hfirst hlater
      | _ =>
        rw [List.filter_cons_of_neg (by simp [hmode]), List.filter_cons_of_neg (by simp [hmode])]
        exact hlater

theorem sum_updated_withChildren_le {statement : Tree} {valueRole : Role} {parts' : List Tree}
    (hsound : program.Sound statement) (hsignatures : program'.signatures = program.signatures)
    (hsamples : List.Forall₂ (fun item tree' => tree'.samples ≤ item.2.samples)
      (program.parts valueRole statement) parts') :
    ((program'.updated (statement.withChildren parts')).map Tree.samples).sum ≤
      ((program.updated statement).map Tree.samples).sum := by
  cases hsound with
  | call id callee arguments result signature hsignature hlength =>
    obtain ⟨arguments', result', rfl, hcount, hsome, hitems, -, hnode⟩ :=
      exists_withChildren_call hsignature hlength hsamples
    have hsignature' : program'.signature callee = .ok signature := by
      rw [← hsignature, Program.signature, Program.signature, hsignatures]
    rw [hnode, updated_call hsignature, updated_call hsignature']
    refine sum_updated_le hlength ?_
    have harguments : (signature.roles.zip arguments).map Prod.snd = arguments :=
      List.map_snd_zip (by simp [Signature.roles, hlength])
    rw [← harguments, List.forall₂_map_left_iff]
    exact hitems
  | ret id value =>
    obtain ⟨value', rfl, hsome, -⟩ := exists_toList_of_forall₂ hsamples
    cases value <;> cases value' <;> simp only [Option.isSome, reduceCtorEq]
      at hsome <;> exact le_rfl
  | discard id condition =>
    obtain ⟨condition', rfl, hsome, -⟩ := exists_toList_of_forall₂ hsamples
    cases condition <;> cases condition' <;> simp only [Option.isSome, reduceCtorEq] at hsome <;>
      exact le_rfl
  | assign id target value mask hplace =>
    obtain ⟨value', others, -, hothers, rfl⟩ := List.forall₂_cons_left_iff.mp hsamples
    obtain ⟨target', none', htarget, hnone, rfl⟩ := List.forall₂_cons_left_iff.mp hothers
    exact le_rfl
  | branch id condition thenBody elseBody =>
    obtain ⟨condition', none', -, hnone, rfl⟩ := List.forall₂_cons_left_iff.mp hsamples
    exact le_rfl
  | loop id body => exact le_rfl

end Program

/-! ### Rows and their statement -/

/-- A run is at the same point as another one and has counted no more, if `Exact` just as much. -/
structure Machine.Shadows (bound : Nat) (Exact : Prop) (machine machine' : Machine) : Prop
    extends Machine.Follows bound machine machine' where
  samples : machine'.trace.textureSamples ≤ machine.trace.textureSamples
  calls : machine'.trace.calls ≤ machine.trace.calls
  exact : Exact → machine'.trace.textureSamples = machine.trace.textureSamples ∧
    machine'.trace.calls = machine.trace.calls

theorem Node.Alike.calls_eq {node node' : Node} (halike : node.Alike node') :
    node.calls = node'.calls := by
  cases halike <;> rfl

namespace Program

variable {program program' : Program} {verdict : Verdict} {Solid Exact : Prop}

/-- The rows that have been taken out of a statement and then the edited statement do what the old
statement does. -/
theorem Performs.edited {statement : Tree} {machine machine₁ start : Machine} {outcome : Outcome}
    {memory memory' : Temporaries} {next next' : Nat} {valueRole : Role} {parts' : List Tree}
    {rows : List Row} {expected : Expected}
    (hperforms : program.Performs statement machine outcome machine₁)
    (hsound : program.Sound statement) (hlinked : statement.Linked)
    (hlifted : Lifted verdict memory next (program.parts valueRole statement) parts' rows
      memory' next') (hvars : ∀ (index : Nat) declared, program.vars[index]? = some declared →
      program'.vars[index]? = some declared)
    (hsignatures : program'.signatures = program.signatures) (hbound : program.vars.size ≤ next)
    (hdeclares : Lifted.Declares program' rows)
    (hundisturbed : program.Undisturbed verdict statement)
    (hliftable : ∀ item ∈ program.parts valueRole statement,
      item.1.Liftable program verdict Solid expected machine.slots item.2)
    (hexact : Exact → (∀ tree number, verdict tree ≠ some (some number)) ∧
      ∀ tree ∈ program.updated statement, tree.samples = 0)
    (hshadows : Machine.Shadows program.vars.size Exact machine start)
    (hmirrors : program'.Mirrors program.vars.size machine.slots start.slots)
    (hholds : program'.Holds program.vars.size expected memory next start.slots) :
    ∃ between machine₁', program'.PerformsAll (rows.map Row.statement) start between ∧
      program'.Performs (statement.withChildren parts') between outcome machine₁' ∧
      Machine.Shadows program.vars.size Exact machine₁ machine₁' ∧
      program'.Mirrors program.vars.size machine₁.slots machine₁'.slots ∧
      program'.Holds program.vars.size expected memory' next' machine₁'.slots ∧
      ∀ index < next, program.vars.size ≤ index →
        machine₁'.slots[index]? = start.slots[index]? := by
  obtain ⟨after, hreproduces⟩ := hlifted.runs hvars hsignatures hbound hdeclares hliftable start
    hmirrors hholds
  obtain ⟨machine₁', hperforms', hfollows, hkeeps⟩ :=
    hperforms.withChildren hsound hvars hsignatures hundisturbed hreproduces hshadows.toFollows
  refine ⟨_, machine₁', hreproduces.performs, hperforms', ⟨hfollows, ?_, ?_, ?_⟩,
    ⟨hfollows.same, ?_⟩, ?_, ?_⟩
  all_goals
    obtain ⟨hpointwise, hle, heq⟩ :=
      hlifted.samples_le fun item hitem => (hliftable item hitem).linked
    obtain ⟨hsamples, hcalls⟩ := hperforms.counts hsound
    obtain ⟨hsamples', hcalls'⟩ := hperforms'.counts
      (hsound.withChildren hsignatures hlifted.isPlace)
    have hupdated := sum_updated_withChildren_le hsound hsignatures hpointwise
    have hchildren := map_snd_parts hsound valueRole
    have halike := Tree.alike_withChildren hlinked parts'
      (by rw [hlifted.length_eq, ← hchildren, List.length_map])
    have hitems : (program.parts valueRole statement).map (fun item => item.2.samples) =
        statement.children.map Tree.samples := by
      rw [← hchildren, List.map_map]
      rfl
    rw [hitems] at hle heq
    simp only [Tree.withChildren_children, Machine.sampled, ← halike.calls_eq] at hsamples' hcalls'
  · have := hshadows.samples
    omega
  · have := hshadows.calls
    omega
  · intro hexactly
    obtain ⟨hnever, hzero⟩ := hexact hexactly
    have hsum := heq hnever
    have hnone : ((program.updated statement).map Tree.samples).sum = 0 :=
      List.sum_eq_zero_iff_forall_eq_nat.mpr fun count hcount => by
        obtain ⟨tree, htree, rfl⟩ := List.mem_map.mp hcount
        exact hzero tree htree
    obtain ⟨hsame, hsame'⟩ := hshadows.exact hexactly
    omega
  · intro index declared hindex hdeclared
    obtain ⟨lanes, hlanes, hlength⟩ := hreproduces.mirrors.sized index declared hindex hdeclared
    exact ⟨lanes, (hkeeps index hindex).trans hlanes, hlength⟩
  · intro number temporary hlookup
    obtain ⟨hindex, hlt, lanes, declared, hexpected, hdeclared, hslot⟩ :=
      hreproduces.holds number temporary hlookup
    exact ⟨hindex, hlt, lanes, declared, hexpected, hdeclared, (hkeeps _ hindex).trans hslot⟩
  · exact fun index hlt hindex => (hkeeps index hindex).trans (hreproduces.same index hlt)

/-- A statement is sound, and its operands are so. -/
structure SoundStatement (program : Program) (statement : Tree) : Prop where
  sound : program.Sound statement
  operands : ∀ operand ∈ statement.children, program.SoundOperand operand

theorem soundStatement_row {row : Row} (hvalue : program.SoundOperand row.value)
    (hlt : row.temporary.index < program.vars.size) : program.SoundStatement row.statement := by
  refine ⟨.assign row.id row.target row.value 0 (by rw [Row.target, Tree.isPlace, Tree.fold_mk]),
    ?_⟩
  simp only [Row.statement, List.forall_mem_cons]
  refine ⟨hvalue,
    Tree.forall_subtrees_mk.mpr ⟨⟨rfl, fun read hread => ?_, by simp⟩, by simp⟩, by simp⟩
  cases hread
  exact hlt

/-- The rows and the edited statement are as sound as the old statement. -/
theorem SoundStatement.edited {statement : Tree} {memory memory' : Temporaries} {next next' : Nat}
    {valueRole : Role} {parts' : List Tree} {rows : List Row}
    (hsound : program.SoundStatement statement) (hlinked : statement.Linked)
    (hlifted : Lifted verdict memory next (program.parts valueRole statement) parts'
      rows memory' next') (hsignatures : program'.signatures = program.signatures)
    (hvars : program.vars.size ≤ program'.vars.size) (hnext : next' ≤ program'.vars.size)
    (hmemory : ∀ number temporary, memory.lookup number = some temporary → temporary.index < next) :
    (∀ edited ∈ rows.map Row.statement ++ [statement.withChildren parts'],
      program'.SoundStatement edited) ∧
      ∀ number temporary, memory'.lookup number = some temporary → temporary.index < next' := by
  have hparts : ∀ item ∈ program.parts valueRole statement, item.2 ∈ statement.children :=
    fun item hitem => map_snd_parts hsound.sound valueRole ▸ List.mem_map_of_mem hitem
  obtain ⟨hedited, hrows, hmemory'⟩ := hlifted.sound hvars hnext hmemory
    (fun item hitem => hlinked.child (hparts item hitem))
    (fun item hitem => hsound.operands _ (hparts item hitem))
  refine ⟨List.forall_mem_append.mpr ⟨fun edited hmem => ?_, ?_⟩, hmemory'⟩
  · obtain ⟨row, hrow, rfl⟩ := List.mem_map.mp hmem
    exact soundStatement_row (hrows row hrow).1 (hrows row hrow).2
  · simpa using ⟨hsound.sound.withChildren hsignatures hlifted.isPlace, hedited⟩

end Program

end ShaderIR
