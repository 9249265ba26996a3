import ShaderIR.Proofs.Numbering.Keys
import ShaderIR.Proofs.Pass.StatementRuns

/-!
What numbers stand for, seen from the end of a block. The table of keys that numbering ends with
says of every operand what it has been computed from: `Labelled` are operands with their values, in
which computations have the number of their key, and variables read as something known. Every
statement labels its operands, and what holds of all numbers in these labels holds of what variables
read as afterwards and of all numbers that have been noted (`NumbersStatement.labelled`).
-/

set_option autoImplicit false

namespace ShaderIR

/-! ### Labels -/

/-- What is numbered of an operand of a statement. -/
def Role.operands : Role → Tree → List Tree
  | .place, tree => tree.indices
  | _, tree => [tree]

theorem Role.flatMap_operands (role : Role) (tree : Tree) :
    (role.operands tree).flatMap Tree.subtrees = role.loose tree := by
  cases role with
  | place => rfl
  | _ => simp [operands, loose]

/-- Operands with their values: computations have the number of their key, and variables read as
something known. -/
inductive Labelled (eligible : NodeKinds) (final : Numberer) (known : ValueNumber → Prop) :
    List Tree → List Value → Prop
  | nil : Labelled eligible final known [] []
  | read {id : NodeId} {read : VarId} {value : Value} {rest : List Tree} {values : List Value}
    (hvalue : ∀ number ∈ value, known number) (hrest : Labelled eligible final known rest values) :
    Labelled eligible final known (⟨id, .variable read, []⟩ :: rest) (value :: values)
  | compute {tree : Tree} {number : ValueNumber} {rest : List Tree} {values : List Value}
    (key : Key) (hhead : tree.node.head? = some key.head) (hentry : (key, number) ∈ final.table)
    (hnoted : eligible.contains tree.node.kind = true →
      (tree.id, number) ∈ final.numbering.occurrences)
    (hchildren : Labelled eligible final known tree.children key.operands)
    (hrest : Labelled eligible final known rest values) :
    Labelled eligible final known (tree :: rest) ([number] :: values)

namespace Labelled

variable {eligible : NodeKinds} {final : Numberer} {known : ValueNumber → Prop}
  {trees more : List Tree} {values : List Value}

theorem exists_of_append (hlabelled : Labelled eligible final known (trees ++ more) values) :
    ∃ first second, values = first ++ second ∧ Labelled eligible final known trees first ∧
      Labelled eligible final known more second := by
  induction trees generalizing values with
  | nil => exact ⟨[], values, rfl, .nil, hlabelled⟩
  | cons tree trees ih =>
    cases hlabelled with
    | read hvalue hrest =>
      obtain ⟨first, second, rfl, hfirst, hsecond⟩ := ih hrest
      exact ⟨_ :: first, second, rfl, .read hvalue hfirst, hsecond⟩
    | compute key hhead hentry hnoted hchildren hrest =>
      obtain ⟨first, second, rfl, hfirst, hsecond⟩ := ih hrest
      exact ⟨_ :: first, second, rfl, .compute key hhead hentry hnoted hchildren hfirst, hsecond⟩

theorem append {moreValues : List Value} (hlabelled : Labelled eligible final known trees values)
    (hmore : Labelled eligible final known more moreValues) :
    Labelled eligible final known (trees ++ more) (values ++ moreValues) := by
  induction hlabelled with
  | nil => exact hmore
  | read hvalue _ ih => exact .read hvalue ih
  | compute key hhead hentry hnoted hchildren _ _ ih =>
    exact .compute key hhead hentry hnoted hchildren ih

theorem forall₂ (hlabelled : Labelled eligible final known trees values) :
    List.Forall₂ (fun tree value => Labelled eligible final known [tree] [value]) trees values := by
  induction hlabelled with
  | nil => exact .nil
  | read hvalue _ ih => exact .cons (.read hvalue .nil) ih
  | compute key hhead hentry hnoted hchildren _ _ ih =>
    exact .cons (.compute key hhead hentry hnoted hchildren .nil) ih

theorem exists_of_mem (hlabelled : Labelled eligible final known trees values)
    {tree : Tree} (htree : tree ∈ trees) :
    ∃ value ∈ values, Labelled eligible final known [tree] [value] :=
  exists_of_forall₂ hlabelled.forall₂ htree

theorem mono {known' : ValueNumber → Prop} (hlabelled : Labelled eligible final known trees values)
    (hknown : ∀ number, known number → known' number) :
    Labelled eligible final known' trees values := by
  induction hlabelled with
  | nil => exact .nil
  | read hvalue _ ih => exact .read (fun number hmem => hknown number (hvalue number hmem)) ih
  | compute key hhead hentry hnoted _ _ ih ih' => exact .compute key hhead hentry hnoted ih ih'

/-- What holds of the numbers of single operands holds of those of a row of them. -/
theorem settles {property : ValueNumber → Prop}
    (hlabelled : Labelled eligible final known trees values)
    (hsingle : ∀ tree ∈ trees, ∀ values, Labelled eligible final known [tree] values →
      ∀ value ∈ values, ∀ number ∈ value, property number) :
      ∀ value ∈ values, ∀ number ∈ value, property number := by
  intro value hvalue
  obtain ⟨tree, htree, hsole⟩ := exists_of_forall₂ hlabelled.forall₂.flip hvalue
  exact hsingle tree htree [value] hsole value (List.mem_singleton_self _)

end Labelled

theorem Tree.Linked.of_mem_indices {tree position : Tree}
    (hlinked : tree.Linked) (hposition : position ∈ tree.indices) :
    position.Linked :=
  fun below hbelow => hlinked below (Tree.subtrees_subset_of_mem_indices position hposition hbelow)

section Operands

variable {program : Program} {eligible : NodeKinds} {state stop final : Numberer}
  {known property : ValueNumber → Prop} {trees : List Tree} {values : List Value}

theorem Numberer.mem_occurrences_noted {state : Numberer} {eligible : NodeKinds} {tree : Tree}
    {number : ValueNumber} (heligible : eligible.contains tree.node.kind = true) :
    (tree.id, number) ∈ (state.noted eligible tree number).numbering.occurrences := by
  rw [noted, if_pos heligible]
  exact List.mem_append_right _ (List.mem_singleton_self _)

/-- Numbered operands are labelled. -/
theorem Numbers.labelled (hnumbers : Numbers eligible state trees values stop)
    (hkeyed : state.Keyed)
    (hfinal : stop.Advances final) (hfresh : ∀ number, final.Unkeyed number → known number)
    (hlinked : ∀ tree ∈ trees, tree.Linked) (hknows : state.Knows known) :
    Labelled eligible final known trees values ∧ stop.Knows known := by
  induction hnumbers with
  | nil => exact ⟨.nil, hknows⟩
  | @read state stop id read children rest values hrest ih =>
    obtain ⟨hlinked, hlater⟩ := List.forall_mem_cons.mp hlinked
    have hstored := Numberer.Advances.setValue (state.read read).2 id (state.read read).1
    obtain ⟨hvalue, hread⟩ :=
      hknows.read hkeyed hfresh ((hstored.trans hrest.advances).trans hfinal)
    obtain ⟨hlabelled, hstop⟩ :=
      ih (((Numberer.Advances.read state read).trans hstored).keyed hkeyed) hfinal hlater
      (hread.of_eq rfl)
    obtain rfl : children = [] := Tree.eq_nil_of_ids (hlinked _ (Tree.mem_subtrees_self _))
    exact ⟨.read hvalue hlabelled, hstop⟩
  | @compute state between stop tree rest values key hhead _ hchildren hrest ih ih' =>
    obtain ⟨hlinked, hlater⟩ := List.forall_mem_cons.mp hlinked
    have hcounted := Numberer.Advances.numberOf between key
    have hnoted :=
      Numberer.Advances.noted (between.numberOf key).2 eligible tree (between.numberOf key).1
    have hlast := hrest.advances.trans hfinal
    obtain ⟨hbelow, hbetween⟩ :=
      ih hkeyed ((hcounted.trans hnoted).trans hlast) (fun child => hlinked.child) hknows
    obtain ⟨hlabelled, hstop⟩ :=
      ih' ((hcounted.trans hnoted).keyed (hchildren.advances.keyed hkeyed)) hfinal hlater
      (hbetween.of_eq (by simp))
    exact ⟨.compute key hhead ((hnoted.trans hlast).table_subset (between.numberOf_mem key))
      (fun heligible => hlast.occurrences_subset (Numberer.mem_occurrences_noted heligible)) hbelow
        hlabelled, hstop⟩

/-! ### Noted nodes -/

/-- A node that has been noted computes something of a kind that may be shared, and has the number
of its key. -/
def Numberer.Notes (final : Numberer) (eligible : NodeKinds) (node : Node)
    (number : ValueNumber) : Prop :=
  eligible.contains node.kind = true ∧ ∃ key, node.head? = some key.head ∧
    (key, number) ∈ final.table

/-- All that has been noted since has a number with this property, and is one of these nodes. -/
def Numberer.NotesIn (state stop final : Numberer) (eligible : NodeKinds) (nodes : List Tree)
    (property : ValueNumber → Prop) : Prop :=
  ∀ occurrence ∈ stop.numbering.occurrences, occurrence ∈ state.numbering.occurrences ∨
    property occurrence.2 ∧ ∃ node ∈ nodes, node.id = occurrence.1 ∧
      final.Notes eligible node.node occurrence.2

namespace Numberer.NotesIn

variable {between : Numberer} {nodes : List Tree}

theorem of_eq (hsame : stop.numbering.occurrences = state.numbering.occurrences) :
    state.NotesIn stop final eligible nodes property :=
  fun _ hmem => Or.inl (hsame ▸ hmem)

theorem trans (hfirst : state.NotesIn between final eligible nodes property)
    (hsecond : between.NotesIn stop final eligible nodes property) :
    state.NotesIn stop final eligible nodes property := fun occurrence hmem =>
  (hsecond occurrence hmem).elim (hfirst occurrence) Or.inr

theorem mono {others : List Tree} (hnotes : state.NotesIn stop final eligible others property)
    (hsubset : others ⊆ nodes) : state.NotesIn stop final eligible nodes property :=
      fun occurrence hmem =>
  (hnotes occurrence hmem).imp_right fun hnew =>
    ⟨hnew.1, hnew.2.imp fun _ hnode => ⟨hsubset hnode.1, hnode.2⟩⟩

/-- A node that computes something is noted with the number of its key. -/
theorem noted (state : Numberer) (eligible : NodeKinds)
    (nodes : List Tree) {tree : Tree} {number : ValueNumber}
    (htree : tree ∈ nodes) (key : Key) (hhead : tree.node.head? = some key.head)
    (hentry : (key, number) ∈ final.table) (hnumber : property number) :
    state.NotesIn (state.noted eligible tree number) final eligible nodes property := by
  intro occurrence hmem
  rw [Numberer.noted, Numberer.occurrences_setValue] at hmem
  split at hmem
  · next heligible =>
    rcases List.mem_append.mp hmem with hold | hnew
    · exact Or.inl hold
    · obtain rfl := List.mem_singleton.mp hnew
      exact Or.inr ⟨hnumber, tree, htree, rfl, heligible, key, hhead, hentry⟩
  · exact Or.inl hmem

end Numberer.NotesIn

/-- What holds of the numbers of operands holds of all numbers noted for them. -/
theorem Numbers.notesIn (hnumbers : Numbers eligible state trees values stop)
    (hfinal : stop.Advances final) (hclosed : final.Closed property)
    (hvalues : ∀ value ∈ values, ∀ number ∈ value, property number) :
    state.NotesIn stop final eligible (trees.flatMap Tree.subtrees) property := by
  induction hnumbers with
  | nil => exact .of_eq rfl
  | read hrest ih =>
    rw [List.flatMap_cons]
    exact Numberer.NotesIn.trans (.of_eq (by simp))
      ((ih hfinal (List.forall_mem_cons.mp hvalues).2).mono (List.subset_append_right _ _))
  | @compute state between stop tree rest values key hhead _ hchildren hrest ih ih' =>
    obtain ⟨hnumber, hvalues⟩ := List.forall_mem_cons.mp hvalues
    have hnumber := hnumber _ (List.mem_singleton_self _)
    have hnoted :=
      Numberer.Advances.noted (between.numberOf key).2 eligible tree (between.numberOf key).1
    have hlast := hnoted.trans (hrest.advances.trans hfinal)
    have hentry := hlast.table_subset (between.numberOf_mem key)
    rw [List.flatMap_cons]
    have hchildren :
        tree.children.flatMap Tree.subtrees ⊆ tree.subtrees ++ rest.flatMap Tree.subtrees :=
      fun below hbelow => by
        obtain ⟨child, hchild, hbelow⟩ := List.mem_flatMap.mp hbelow
        exact List.mem_append_left _ (Tree.mem_subtrees_of_mem_children hchild hbelow)
    have hbelow := (ih ((Numberer.Advances.numberOf between key).trans hlast)
      (hclosed key _ hentry hnumber)).mono hchildren
    have htree := Numberer.NotesIn.noted (between.numberOf key).2 eligible
      (tree.subtrees ++ rest.flatMap Tree.subtrees)
      (List.mem_append_left _ tree.mem_subtrees_self) key hhead hentry hnumber
    exact ((hbelow.trans (.of_eq (by simp))).trans htree).trans
      ((ih' hfinal hvalues).mono (List.subset_append_right _ _))

/-- Writing new values through places labels the indices in them, and what holds of the numbers of
these holds of all numbers noted for them. -/
theorem Overwrites.labelled (hwrites : Overwrites program eligible state trees stop)
    (hkeyed : state.Keyed)
    (hfinal : stop.Advances final) (hfresh : ∀ number, final.Unkeyed number → known number)
    (hlinked : ∀ target ∈ trees, target.Linked) (hknows : state.Knows known) :
    (∀ target ∈ trees, ∃ values, Labelled eligible final known target.indices values) ∧
      stop.Knows known ∧
      ∀ property, (∀ target ∈ trees, ∀ values, Labelled eligible final known target.indices values →
        ∀ value ∈ values, ∀ number ∈ value, property number) → final.Closed property →
          state.NotesIn stop final eligible (trees.flatMap Role.place.loose) property := by
  induction hwrites with
  | nil => exact ⟨by simp, hknows, fun _ _ _ _ => Or.inl⟩
  | @cons state between stop target rest values root part hindices hroot hpart hrest ih =>
    obtain ⟨hlinked, hlater⟩ := List.forall_mem_cons.mp hlinked
    have hwritten := Numberer.Advances.write between part root [state.fresh.1]
    have hlast := (hwritten.trans hrest.advances).trans hfinal
    have hstart := (Numberer.Advances.fresh state).keyed hkeyed
    have hbetween := hindices.advances.keyed hstart
    obtain ⟨hlabelled, hknown⟩ := hindices.labelled hstart hlast hfresh
      (fun position hmem => hlinked.of_mem_indices hmem) (hknows.of_eq rfl)
    have hstored :=
      hknown.write hbetween hfresh (hrest.advances.trans hfinal) (List.forall_mem_singleton.mpr
      (hfresh _ (Numberer.Advances.unkeyed_fresh (hindices.advances.trans hlast) hkeyed)))
    obtain ⟨htargets, hstop, hnotes⟩ := ih (hwritten.keyed hbetween) hfinal hlater hstored
    refine ⟨List.forall_mem_cons.mpr ⟨⟨values, hlabelled⟩, htargets⟩, hstop,
      fun property hproperty hclosed => ?_⟩
    obtain ⟨hproperty, hproperties⟩ := List.forall_mem_cons.mp hproperty
    rw [List.flatMap_cons]
    have hpositions := (hindices.notesIn hlast hclosed (hproperty values hlabelled)).mono
      (List.subset_append_left _ (rest.flatMap Role.place.loose))
    have hrest := (hnotes property hproperties hclosed).mono
      (List.subset_append_right (Role.place.loose target) _)
    exact (Numberer.NotesIn.trans (.of_eq rfl) hpositions).trans
      (Numberer.NotesIn.trans (.of_eq (by simp)) hrest)

end Operands

/-! ### Statements -/

/-- The nodes of a statement that may be noted: all that may be taken out of its operands, and the
statement itself if it is a call whose result is used. -/
def Program.noteworthy (program : Program) (statement : Tree) : List Tree :=
  (program.parts .value statement).flatMap (fun item => item.1.loose item.2) ++
    match statement.node with
    | .call _ _ (some _) => [statement]
    | _ => []

theorem Program.loose_subset_noteworthy {program : Program} {statement : Tree} {item : Role × Tree}
    (hitem : item ∈ program.parts .value statement) :
    item.1.loose item.2 ⊆ program.noteworthy statement :=
  fun _ hnode => List.mem_append_left _ (List.mem_flatMap.mpr ⟨item, hitem, hnode⟩)

/-- The operands of a statement have labels. -/
def Program.LabelsParts (program : Program) (eligible : NodeKinds) (final : Numberer)
    (known : ValueNumber → Prop) (statement : Tree) : Prop :=
  ∀ item ∈ program.parts .value statement, ∃ values,
    Labelled eligible final known (item.1.operands item.2) values

/-- A call that leaves its arguments alone, whose result is used, has the number of its key. -/
def Program.LabelsCall (program : Program) (eligible : NodeKinds) (final : Numberer)
    (known : ValueNumber → Prop) (statement : Tree) : Prop :=
  ∀ id callee arguments target signature,
    statement = ⟨id, .call callee (arguments.map Tree.id) (some target.id), arguments ++ [target]⟩ →
    program.signature callee = .ok signature → signature.isPure = true →
    ∃ values number, Labelled eligible final known arguments values ∧
      (.call callee values, number) ∈ final.table ∧
      (eligible.contains .call = true → (id, number) ∈ final.numbering.occurrences)

/-- The statement is a call that leaves its arguments alone, whose result is used. -/
def Program.StoresCall (program : Program) (statement : Tree) : Prop :=
  ∃ callee arguments target signature, statement.node = .call callee arguments (some target) ∧
    program.signature callee = .ok signature ∧ signature.isPure = true

/-- All labels of the operands of a statement are made of such numbers. What such a call passes does
not count here. -/
def Program.SettlesParts (program : Program) (eligible : NodeKinds) (final : Numberer)
    (known property : ValueNumber → Prop) (statement : Tree) : Prop :=
  ∀ item ∈ program.parts .value statement, (item.1 = .value → ¬ program.StoresCall statement) →
    ∀ values, Labelled eligible final known (item.1.operands item.2) values → ∀ value ∈ values,
      ∀ number ∈ value, property number

/-- If the statement is a call that leaves its arguments alone, whose result is used, then its
number is such a number, and what it passes is made of such numbers. -/
def Program.SettlesCall (program : Program) (eligible : NodeKinds) (final : Numberer)
    (known property : ValueNumber → Prop) (statement : Tree) : Prop :=
  ∀ id callee arguments target values number signature,
    statement = ⟨id, .call callee (arguments.map Tree.id) (some target.id), arguments ++ [target]⟩ →
    program.signature callee = .ok signature → signature.isPure = true →
    Labelled eligible final known arguments values → (.call callee values, number) ∈ final.table →
    (eligible.contains .call = true → (id, number) ∈ final.numbering.occurrences) →
      property number ∧ ∀ value ∈ values, ∀ number ∈ value, property number

section Statements

variable {program : Program} {eligible : NodeKinds} {state stop final : Numberer}
  {known property : ValueNumber → Prop} {statement : Tree}

/-- What a call that leaves its arguments alone passes are values. -/
theorem Program.parts_of_isPure (id : NodeId) {callee : SignatureId}
    {arguments : List Tree} (result : Option Tree) {signature : Signature}
    (hsignature : program.signature callee = .ok signature) (hpure : signature.isPure = true)
    (hlength : signature.params.length = arguments.length) :
    program.parts .value ⟨id, .call callee (arguments.map Tree.id) (result.map Tree.id),
      arguments ++ result.toList⟩ = arguments.map (Role.value, ·) ++
      result.toList.map (Role.place, ·) := by
  have hroles : signature.roles = List.replicate arguments.length .value := by
    refine List.eq_replicate_iff.mpr ⟨by simp [Signature.roles, hlength],
      List.forall_mem_map.mpr fun param hparam => ?_⟩
    rw [if_pos (eq_of_beq (List.all_eq_true.mp hpure param hparam))]
  rw [parts_call hsignature hlength, hroles]
  refine congrArg (· ++ _) (List.ext_getElem (by simp) fun place hleft hright => ?_)
  simp

/-- What a call passes are values, and places that it writes. -/
theorem Program.perm_parts_call (id : NodeId) {callee : SignatureId}
    {arguments : List Tree} (result : Option Tree)
    {signature : Signature} (hsignature : program.signature callee = .ok signature)
    (hlength : signature.params.length = arguments.length) :
    (program.parts .value ⟨id, .call callee (arguments.map Tree.id) (result.map Tree.id),
      arguments ++ result.toList⟩).Perm ((((signature.params.zip arguments).filter
              fun passed => passed.1.mode = .input).map Prod.snd).map (Role.value, ·) ++
          ((((signature.params.zip arguments).filter fun passed => passed.1.mode.writes).map
              Prod.snd) ++ result.toList).map (Role.place, ·)) := by
  have hwrites : (fun passed : Param × Tree => passed.1.mode.writes) =
      fun passed => !decide (passed.1.mode = .input) := by
    funext passed
    cases passed.1.mode <;> rfl
  have hsplit :=
    (List.filter_append_perm (fun passed : Param × Tree => decide (passed.1.mode = .input))
    (signature.params.zip arguments)).map fun passed =>
      (if passed.1.mode = .input then Role.value else Role.place, passed.2)
  rw [List.map_append] at hsplit
  rw [parts_call hsignature hlength, Signature.roles, List.zip_map_left, List.map_append,
    ← List.append_assoc, hwrites]
  refine List.Perm.append_right _ (.trans (.of_eq ?_) (hsplit.symm.trans (.of_eq ?_)))
  · rfl
  · rw [List.map_map, List.map_map]
    refine congrArg₂ _ (List.map_congr_left fun passed hmem => ?_)
      (List.map_congr_left fun passed hmem => ?_)
    · simp_all
    · simp_all

theorem Program.flatMap_loose_subset_noteworthy {items : List Tree} {role : Role}
    (hitems : ∀ tree ∈ items, (role, tree) ∈ program.parts .value statement) :
    items.flatMap role.loose ⊆ program.noteworthy statement := fun node hnode => by
  obtain ⟨tree, htree, hnode⟩ := List.mem_flatMap.mp hnode
  exact loose_subset_noteworthy (hitems tree htree) hnode

/-- All that numbering a statement says of its operands. They have labels, and if all that these are
made of has a property, then so has all that has been noted for the statement, and what variables
hold afterwards. -/
structure Program.LabelsStatement (program : Program) (eligible : NodeKinds)
    (state stop final : Numberer) (known property : ValueNumber → Prop) (statement : Tree) :
    Prop where
  parts : program.LabelsParts eligible final known statement
  call : program.LabelsCall eligible final known statement
  notes : program.SettlesParts eligible final known property statement →
    program.SettlesCall eligible final known property statement → final.Closed property →
    (∀ number, known number → property number) →
      stop.Knows property ∧
        state.NotesIn stop final eligible (program.noteworthy statement) property

/-- Labels of a row of operands are labels of each of them. -/
theorem Labelled.exists_operands {arguments : List Tree} {values : List Value}
    (hlabelled : Labelled eligible final known arguments values) :
    ∀ argument ∈ arguments,
      ∃ values, Labelled eligible final known (Role.value.operands argument) values := by
  intro argument hargument
  obtain ⟨value, -, hvalue⟩ := hlabelled.exists_of_mem hargument
  exact ⟨[value], hvalue⟩

theorem Program.labelsCall_of_not_storesCall (hplain : ¬ program.StoresCall statement) :
    program.LabelsCall eligible final known statement :=
  fun _ _ _ _ _ hstatement hsignature hpure =>
    absurd ⟨_, _, _, _, congrArg Tree.node hstatement, hsignature, hpure⟩ hplain

section Cases

variable (hkeyed : state.Keyed) (hfresh : ∀ number, final.Unkeyed number → known number)
  (hknows : state.Knows known)

include hkeyed hfresh hknows

/-- A statement that only passes values on, with the state after it. -/
theorem Numbers.labels_inputs {after : Numberer} {values : List Value}
    (hinputs : Numbers eligible state statement.children values stop)
    (hparts : program.parts .value statement = statement.children.map (Role.value, ·))
    (hplain : ¬ program.StoresCall statement) (hlinked : statement.Linked)
    (hafter : stop.Advances after) (hfinal : after.Advances final)
    (hhistories : after.histories = stop.histories)
    (hoccurrences : after.numbering.occurrences = stop.numbering.occurrences) :
    program.LabelsStatement eligible state after final known property statement := by
  have hlast := hafter.trans hfinal
  obtain ⟨hlabelled, -⟩ := hinputs.labelled hkeyed hlast hfresh (fun child => hlinked.child) hknows
  refine ⟨?_, Program.labelsCall_of_not_storesCall hplain, fun hsettles _ hclosed hknown => ?_⟩
  · rw [Program.LabelsParts, hparts]
    exact List.forall_mem_map.mpr hlabelled.exists_operands
  · rw [Program.SettlesParts, hparts, List.forall_mem_map] at hsettles
    obtain ⟨-, hstop⟩ := hinputs.labelled hkeyed hlast
      (fun number h => hknown number (hfresh number h)) (fun child => hlinked.child)
      (hknows.mono hknown)
    have hnotes := hinputs.notesIn hlast hclosed (hlabelled.settles fun child hchild =>
      hsettles child hchild fun _ => hplain)
    refine ⟨hstop.of_eq hhistories, .trans (hnotes.mono ?_) (.of_eq hoccurrences)⟩
    exact Program.flatMap_loose_subset_noteworthy fun child hchild =>
      hparts ▸ List.mem_map_of_mem hchild

/-- An assignment. -/
theorem Numbers.labels_assign {valued : Numberer} {id : NodeId} {target value : Tree} {mask : UInt8}
    {stored : Value} {indices : List Value} {root : VarId} {part : Bool}
    (hvalue : Numbers eligible state [value] [stored] valued)
    (hindices : Numbers eligible valued target.indices indices stop)
    (hlinked : Tree.Linked ⟨id, .assign target.id value.id mask, [value, target]⟩)
    (hfinal : (stop.write part root stored).Advances final) :
    program.LabelsStatement eligible state (stop.write part root stored) final known property
      ⟨id, .assign target.id value.id mask, [value, target]⟩ := by
  have hlast := (Numberer.Advances.write stop part root stored).trans hfinal
  have hvalued := hvalue.advances.keyed hkeyed
  have hplain : ¬ program.StoresCall ⟨id, .assign target.id value.id mask, [value, target]⟩ := by
    rintro ⟨_, _, _, _, hnode, -⟩
    cases hnode
  have hsteps {held : ValueNumber → Prop} (hfresh : ∀ number, final.Unkeyed number → held number)
      (hknows : state.Knows held) : Labelled eligible final held [value] [stored] ∧
        Labelled eligible final held target.indices indices ∧ stop.Knows held := by
    obtain ⟨hlabelled, hknown⟩ := hvalue.labelled hkeyed (hindices.advances.trans hlast) hfresh
      (by simpa using hlinked.child (by simp)) hknows
    exact ⟨hlabelled, hindices.labelled hvalued hlast hfresh
      (fun position => (hlinked.child (by simp)).of_mem_indices) hknown⟩
  obtain ⟨hlabelled, hpositions, -⟩ := hsteps hfresh hknows
  refine ⟨?_, Program.labelsCall_of_not_storesCall hplain, fun hparts _ hclosed hknown => ?_⟩
  · simp only [Program.LabelsParts, Program.parts, List.forall_mem_cons, Role.operands]
    exact ⟨⟨_, hlabelled⟩, ⟨_, hpositions⟩, by simp⟩
  · simp only [Program.SettlesParts, Program.parts, List.forall_mem_cons, Role.operands, hplain]
      at hparts
    have hstored := hparts.1 (fun _ => not_false) _ hlabelled
    have hfresh' : ∀ number, final.Unkeyed number → property number :=
      fun number h => hknown number (hfresh number h)
    obtain ⟨-, -, hstop⟩ := hsteps hfresh' (hknows.mono hknown)
    refine ⟨hstop.write (hindices.advances.keyed hvalued) hfresh' hfinal
      (hstored _ (List.mem_singleton_self _)), ?_⟩
    have hloose {item : Role × Tree} (hitem : item = (.value, value) ∨ item = (.place, target)) :
        item.1.loose item.2 ⊆
          program.noteworthy ⟨id, .assign target.id value.id mask, [value, target]⟩ :=
      Program.loose_subset_noteworthy (by simpa [Program.parts] using hitem)
    have hnotes := hvalue.notesIn (hindices.advances.trans hlast) hclosed hstored
    rw [List.flatMap_singleton] at hnotes
    have hnotes' := (hindices.notesIn hlast hclosed
      (hparts.2.1 (fun _ => not_false) _ hpositions)).mono (hloose (Or.inr rfl))
    exact ((hnotes.mono (hloose (Or.inl rfl))).trans hnotes').trans (.of_eq (by simp))

/-- A call that leaves its arguments alone, whose result is used. -/
theorem Numbers.labels_stored {called : Numberer} {id : NodeId} {callee : SignatureId}
    {signature : Signature} {arguments : List Tree} {target : Tree} {values indices : List Value}
    {root : VarId} {part : Bool} (hsignature : program.signature callee = .ok signature)
    (hpure : signature.isPure = true) (harguments : Numbers eligible state arguments values called)
    (hindices : Numbers eligible ((called.numberOf (.call callee values)).2.noted eligible
      ⟨id, .call callee (arguments.map Tree.id) (some target.id), arguments ++ [target]⟩
      (called.numberOf (.call callee values)).1) target.indices indices stop)
    (hlength : signature.params.length = arguments.length)
    (hlinked : Tree.Linked
      ⟨id, .call callee (arguments.map Tree.id) (some target.id), arguments ++ [target]⟩)
    (hfinal : (stop.write part root [(called.numberOf (.call callee values)).1]).Advances final) :
    program.LabelsStatement eligible state
      (stop.write part root [(called.numberOf (.call callee values)).1]) final known property
      ⟨id, .call callee (arguments.map Tree.id) (some target.id), arguments ++ [target]⟩ := by
  have hparts := Program.parts_of_isPure id (some target) hsignature hpure hlength
  change program.parts .value
    ⟨id, .call callee (arguments.map Tree.id) (some target.id), arguments ++ [target]⟩ = _ at hparts
  have hnumber := Numberer.Advances.numberOf called (.call callee values)
  have hnoted := Numberer.Advances.noted (called.numberOf (.call callee values)).2 eligible
    ⟨id, .call callee (arguments.map Tree.id) (some target.id), arguments ++ [target]⟩
    (called.numberOf (.call callee values)).1
  have hlast := (Numberer.Advances.write stop part root
    [(called.numberOf (.call callee values)).1]).trans hfinal
  have hrest := hindices.advances.trans hlast
  have hcounted := (hnumber.trans hnoted).keyed (harguments.advances.keyed hkeyed)
  have hentry := (hnoted.trans hrest).table_subset (called.numberOf_mem (.call callee values))
  have hsteps {held : ValueNumber → Prop} (hfresh : ∀ number, final.Unkeyed number → held number)
      (hknows : state.Knows held) : Labelled eligible final held arguments values ∧
        Labelled eligible final held target.indices indices ∧ stop.Knows held := by
    obtain ⟨hlabelled, hknown⟩ := harguments.labelled hkeyed
      ((hnumber.trans hnoted).trans hrest) hfresh
      (fun argument hmem => hlinked.child (List.mem_append_left _ hmem)) hknows
    exact ⟨hlabelled, hindices.labelled hcounted hlast hfresh
      (fun position => (hlinked.child (by simp)).of_mem_indices) (hknown.of_eq (by simp))⟩
  obtain ⟨hlabelled, hpositions, -⟩ := hsteps hfresh hknows
  have hoccurs (heligible : eligible.contains .call = true) :
      (id, (called.numberOf (.call callee values)).1) ∈ final.numbering.occurrences :=
    hrest.occurrences_subset (Numberer.mem_occurrences_noted heligible)
  refine ⟨?_, fun _ _ _ _ _ hsame _ _ => ?_, fun hsettles hsettlesCall hclosed hknown => ?_⟩
  · rw [Program.LabelsParts, hparts, List.forall_mem_append, List.forall_mem_map]
    exact ⟨hlabelled.exists_operands, by simpa [Role.operands] using ⟨indices, hpositions⟩⟩
  · simp only [Tree.mk.injEq, Node.call.injEq, List.append_singleton_inj] at hsame
    obtain ⟨rfl, ⟨rfl, -, -⟩, rfl, rfl⟩ := hsame
    exact ⟨values, _, hlabelled, hentry, hoccurs⟩
  · rw [Program.SettlesParts, hparts] at hsettles
    have hplace : ∀ value ∈ indices, ∀ number ∈ value, property number :=
      hsettles (.place, target) (by simp) (by simp) indices hpositions
    obtain ⟨hproperty, hpassed⟩ :=
      hsettlesCall _ _ _ _ _ _ _ rfl hsignature hpure hlabelled hentry hoccurs
    have hfresh' : ∀ number, final.Unkeyed number → property number :=
      fun number h => hknown number (hfresh number h)
    obtain ⟨-, -, hstop⟩ := hsteps hfresh' (hknows.mono hknown)
    refine ⟨hstop.write (hindices.advances.keyed hcounted) hfresh' hfinal
      (List.forall_mem_singleton.mpr hproperty), ?_⟩
    have hinputs := (harguments.notesIn ((hnumber.trans hnoted).trans hrest) hclosed hpassed).mono
      (Program.flatMap_loose_subset_noteworthy fun argument hmem =>
        hparts ▸ List.mem_append_left _ (List.mem_map_of_mem hmem))
    have hpositions := (hindices.notesIn hlast hclosed hplace).mono
      (Program.loose_subset_noteworthy
        (hparts ▸ List.mem_append_right _ (List.mem_singleton_self _)))
    have hnotes := Numberer.NotesIn.noted (called.numberOf (.call callee values)).2 eligible
      (program.noteworthy
        ⟨id, .call callee (arguments.map Tree.id) (some target.id), arguments ++ [target]⟩)
      (List.mem_append_right _ (List.mem_singleton_self _)) (.call callee values) rfl hentry
      hproperty
    exact (((hinputs.trans (.of_eq (by simp))).trans hnotes).trans hpositions).trans
      (.of_eq (by simp))

/-- A call that writes some of its arguments. -/
theorem Numbers.labels_effectful {called overwritten : Numberer}
    {id : NodeId} {callee : SignatureId}
    {signature : Signature} {arguments : List Tree} {result : Option Tree} {values : List Value}
    (hsignature : program.signature callee = .ok signature) (hpure : signature.isPure = false)
    (hinputs : Numbers eligible state (((signature.params.zip arguments).filter
          fun passed => passed.1.mode = .input).map Prod.snd) values called)
    (hwritten : Overwrites program eligible called (((signature.params.zip arguments).filter
          fun passed => passed.1.mode.writes).map Prod.snd) overwritten)
    (hresult : Overwrites program eligible
      (overwritten.fresh.2.setValue id [overwritten.fresh.1]) result.toList stop)
    (hsound : program.Sound ⟨id, .call callee (arguments.map Tree.id) (result.map Tree.id),
        arguments ++ result.toList⟩)
    (hlinked : Tree.Linked ⟨id, .call callee (arguments.map Tree.id) (result.map Tree.id),
        arguments ++ result.toList⟩) (hfinal : stop.Advances final) :
    program.LabelsStatement eligible state stop final known property
      ⟨id, .call callee (arguments.map Tree.id) (result.map Tree.id),
        arguments ++ result.toList⟩ := by
  have hplain : ¬ program.StoresCall ⟨id, .call callee (arguments.map Tree.id) (result.map Tree.id),
      arguments ++ result.toList⟩ := by
    rintro ⟨_, _, _, found, hnode, hfound, hpure'⟩
    obtain ⟨rfl, -, -⟩ := Node.call.inj hnode
    obtain rfl := Except.ok.inj (hsignature.symm.trans hfound)
    exact Bool.false_ne_true (hpure.symm.trans hpure')
  have hperm := Program.perm_parts_call id result hsignature (hsound.of_call hsignature).1
  have hchild {item : Role × Tree} (hitem : item ∈ program.parts .value _) : item.2.Linked :=
    hlinked.child (Program.map_snd_parts hsound .value ▸ List.mem_map_of_mem hitem)
  have hvalue := fun tree htree =>
    hperm.mem_iff.mpr (List.mem_append_left _ (List.mem_map_of_mem (a := tree) htree))
  have hplace := fun tree htree =>
    hperm.mem_iff.mpr (List.mem_append_right _ (List.mem_map_of_mem (a := tree) htree))
  have hstored := (Numberer.Advances.fresh overwritten).trans
    (Numberer.Advances.setValue _ id [overwritten.fresh.1])
  have hlast := hstored.trans (hresult.advances.trans hfinal)
  have hcalled := hinputs.advances.keyed hkeyed
  have hsteps {held : ValueNumber → Prop} (hfresh : ∀ number, final.Unkeyed number → held number)
      (hknows : state.Knows held) := by
    obtain ⟨hlabelled, hknown⟩ := hinputs.labelled hkeyed (hwritten.advances.trans hlast) hfresh
      (fun tree htree => hchild (hvalue tree htree)) hknows
    obtain ⟨hpositions, hknown', hnotes⟩ := hwritten.labelled hcalled hlast hfresh
      (fun tree htree => hchild (hplace tree (List.mem_append_left _ htree))) hknown
    have hlater := hresult.labelled (hstored.keyed (hwritten.advances.keyed hcalled)) hfinal hfresh
      (fun tree htree => hchild (hplace tree (List.mem_append_right _ htree))) (hknown'.of_eq rfl)
    exact And.intro hlabelled (And.intro hpositions (And.intro hnotes hlater))
  obtain ⟨hlabelled, hpositions, hnotes, hpositions', -, hnotes'⟩ := hsteps hfresh hknows
  refine ⟨fun item hitem => ?_, Program.labelsCall_of_not_storesCall hplain,
    fun hsettles _ hclosed hknown => ?_⟩
  · rcases List.mem_append.mp (hperm.mem_iff.mp hitem) with hitem | hitem
    · obtain ⟨tree, htree, rfl⟩ := List.mem_map.mp hitem
      exact hlabelled.exists_operands tree htree
    · obtain ⟨target, htarget, rfl⟩ := List.mem_map.mp hitem
      exact (List.mem_append.mp htarget).elim (hpositions target) (hpositions' target)
  · have hsettles := fun item hitem => hsettles item hitem fun _ => hplain
    obtain ⟨-, -, -, -, hstop, -⟩ :=
      hsteps (fun number h => hknown number (hfresh number h)) (hknows.mono hknown)
    have hvalues := (hinputs.notesIn (hwritten.advances.trans hlast) hclosed
      (hlabelled.settles fun tree htree => hsettles _ (hvalue tree htree))).mono
        (Program.flatMap_loose_subset_noteworthy hvalue)
    have hwrites := (hnotes property (fun target htarget =>
      hsettles _ (hplace target (List.mem_append_left _ htarget))) hclosed).mono
        (Program.flatMap_loose_subset_noteworthy fun tree htree =>
          hplace tree (List.mem_append_left _ htree))
    have hwrites' := (hnotes' property (fun target htarget =>
      hsettles _ (hplace target (List.mem_append_right _ htarget))) hclosed).mono
        (Program.flatMap_loose_subset_noteworthy fun tree htree =>
          hplace tree (List.mem_append_right _ htree))
    exact ⟨hstop, (hvalues.trans hwrites).trans (Numberer.NotesIn.trans (.of_eq rfl) hwrites')⟩

end Cases

/-- Every statement labels its operands. -/
theorem NumbersStatement.labelled
    (hnumbers : NumbersStatement program eligible state statement stop)
    (hsound : program.Sound statement) (hlinked : statement.Linked) (hkeyed : state.Keyed)
    (hfinal : stop.Advances final) (hfresh : ∀ number, final.Unkeyed number → known number)
    (hknows : state.Knows known) :
    program.LabelsStatement eligible state stop final known property statement := by
  cases hnumbers with
  | assign hvalue hindices =>
    exact hvalue.labels_assign hkeyed hfresh hknows hindices hlinked hfinal
  | @stored _ _ id _ _ arguments target _ _ _ _ hsignature hpure harguments hindices =>
    have hcall : program.Sound ⟨id, .call _ (arguments.map Tree.id) ((some target).map Tree.id),
      arguments ++ (some target).toList⟩ := hsound
    exact harguments.labels_stored hkeyed hfresh hknows hsignature hpure hindices
      (hcall.of_call hsignature).1 hlinked hfinal
  | @dropped called id callee _ arguments values hsignature hpure harguments =>
    have hcall : program.Sound ⟨id, .call callee (arguments.map Tree.id)
      ((none : Option Tree).map Tree.id), arguments ++ (none : Option Tree).toList⟩ := by
      simpa using hsound
    have hparts := Program.parts_of_isPure id none hsignature hpure (hcall.of_call hsignature).1
    simp only [Option.map_none, Option.toList_none, List.append_nil, List.map_nil] at hparts
    have hplain :
        ¬ program.StoresCall ⟨id, .call callee (arguments.map Tree.id) none, arguments⟩ := by
      rintro ⟨_, _, _, _, hnode, -⟩
      cases hnode
    exact Numbers.labels_inputs hkeyed hfresh hknows harguments hparts hplain hlinked
      ((Numberer.Advances.numberOf called (.call callee values)).trans (.setValue _ id _)) hfinal
      (Numberer.histories_numberOf called _) (by simp)
  | effectful hsignature hpure hinputs hwritten hresult =>
    exact hinputs.labels_effectful hkeyed hfresh hknows hsignature hpure hwritten hresult hsound
      hlinked hfinal
  | operands hwrites hoperands =>
    have hparts : program.parts .value statement = statement.children.map (Role.value, ·) := by
      cases hsound with
      | assign => exact absurd rfl hwrites.1
      | call => exact absurd rfl hwrites.2
      | _ => simp [Program.parts]
    have hplain : ¬ program.StoresCall statement := by
      rintro ⟨_, _, _, _, hnode, -⟩
      exact hwrites.2 (by rw [hnode, Node.kind])
    exact hoperands.labels_inputs hkeyed hfresh hknows hparts hplain hlinked
      (.refl _) hfinal rfl rfl

end Statements

end ShaderIR
