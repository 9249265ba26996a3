import ShaderIR.Proofs.Interp.Agreement
import ShaderIR.Proofs.Interp.Execution
import ShaderIR.Proofs.Interp.Writes
import ShaderIR.Proofs.Numbering.Types

/-!
How many lanes values have. In a program with consistent types (`Program.TypeConsistent`) an operand
has as many lanes as its type as long as every variable does (`Program.Outlines.length_of_lanes`).
If in addition no variable has more lanes than can be counted in 64 bits (`Program.SizesFit`), a
place lies within its variable (`Program.Outlines.place_within`). A store keeps the number of lanes
of every variable (`Program.Stores.getD_slots`), and a whole write leaves the value that is stored
(`Program.Stores.getD_of_whole`), if masks have a bit for every lane (`Program.MasksFit`).

Whether the types of a program fit together can be tested on its nodes
(`Program.typeConsistent_of_typesFit`).
-/

set_option autoImplicit false

namespace ShaderIR

namespace Program

/-- The types of a program fit together: expressions have types with lanes, constants have as many
literals as their types have lanes, and types follow from operands. -/
structure TypeConsistent (program : Program) : Prop extends program.TypesFollow where
  typed : ∀ {id : NodeId} {node : Node}, program.Reachable id → program.node id = .ok node →
    node.isStatement = false → ∃ ty, program.typeOf id = .ok ty ∧ 1 ≤ ty.flatLen
  literals : ∀ {id : NodeId} {value : Constant},
    program.Reachable id → program.node id = .ok (.constant value) →
    value.lanes.length = value.ty.flatLen

/-! ### A test of types -/

section Test

variable (program : Program)

/-- The type of a node, if it has one. -/
def typeOf? (id : NodeId) : Option Ty :=
  (program.typeOf id).toOption

/-- Whether the types of a node fit together, as far as other nodes that do the same do not
matter. -/
def typesFitAt (id : NodeId) (node : Node) : Bool :=
  (node.isStatement || (program.typeOf? id).any fun ty => 1 ≤ ty.flatLen) &&
    match node with
    | .constant value => value.lanes.length == value.ty.flatLen
    | .assign target value mask =>
      program.isPartialWrite target mask != .ok false || program.typeOf? target ==
        program.typeOf? value
    | .call _ _ (some target) =>
      program.isPartialWrite target 0 != .ok false || program.typeOf? target == program.typeOf? id
    | _ => true

/-- Whether two nodes have one type if they do the same with operands of the same types. -/
def typesAgree : Node → Node → Bool
  | .apply op operands ty, .apply op' operands' ty' =>
    op != op' || operands.map program.typeOf? != operands'.map program.typeOf? || ty == ty'
  | .texture op channel operands ty, .texture op' channel' operands' ty' =>
    op != op' || channel != channel' || operands.shape != operands'.shape ||
      operands.toList.map program.typeOf? != operands'.toList.map program.typeOf? || ty == ty'
  | _, _ => true

/-- Whether the types of all nodes fit together, including those that cannot be reached. -/
def typesFit : Bool :=
  program.nodes.toList.zipIdx.all fun entry =>
    program.typesFitAt ⟨entry.2⟩ entry.1 && program.nodes.toList.all (program.typesAgree entry.1)

end Test

section Tested

variable {program : Program}

theorem typeOf?_eq_some_iff {id : NodeId} {ty : Ty} :
    program.typeOf? id = some ty ↔ program.typeOf id = .ok ty := by
  unfold typeOf?
  cases program.typeOf id <;> simp [Except.toOption]

theorem sameType_iff {first second : NodeId} :
    program.SameType first second ↔ program.typeOf? first = program.typeOf? second := by
  simp only [SameType, ← typeOf?_eq_some_iff]
  exact Option.ext_iff.symm

theorem forall₂_sameType_iff {row row' : List NodeId} :
    List.Forall₂ program.SameType row row' ↔
      row.map program.typeOf? = row'.map program.typeOf? := by
  rw [← List.forall₂_eq_eq_eq, List.forall₂_map_left_iff, List.forall₂_map_right_iff,
    show program.SameType = fun first second => program.typeOf? first = program.typeOf? second from
      funext₂ fun _ _ => propext sameType_iff]

/-- The types of a program that passes the test fit together. -/
theorem typeConsistent_of_typesFit (hfit : program.typesFit = true) : program.TypeConsistent := by
  have hnodes {id : NodeId} {node : Node} (hnode : program.node id = .ok node) :
      program.typesFitAt id node = true ∧ ∀ other ∈ program.nodes,
        program.typesAgree node other = true := by
    have hentry : (node, id.index) ∈ program.nodes.toList.zipIdx := by
      simpa using List.mk_mem_zipIdx_iff_getElem?.mpr (by simpa using node_eq_ok_iff.mp hnode)
    obtain ⟨hnode, hagree⟩ := Bool.and_eq_true_iff.mp (List.all_eq_true.mp hfit _ hentry)
    exact ⟨hnode,
      fun other hother => List.all_eq_true.mp hagree other (Array.mem_toList_iff.mpr hother)⟩
  have hother {id : NodeId} {node : Node} (hnode : program.node id = .ok node) :
      node ∈ program.nodes := Array.mem_of_getElem? (node_eq_ok_iff.mp hnode)
  refine ⟨⟨fun _ _ hnode hnode' hoperands => ?_,
      fun _ _ hnode hnode' hshape hoperands => ?_, fun _ hnode hwhole => ?_,
    fun _ hnode _ hwhole => ?_⟩, fun _ hnode hoperand => ?_, fun _ hnode => ?_⟩
  · have hagree := (hnodes hnode).2 _ (hother hnode')
    simpa [typesAgree, forall₂_sameType_iff.mp hoperands] using hagree
  · have hagree := (hnodes hnode).2 _ (hother hnode')
    simpa [typesAgree, hshape, forall₂_sameType_iff.mp hoperands] using hagree
  · have hfits := (hnodes hnode).1
    simpa [typesFitAt, Node.isStatement, hwhole, ← sameType_iff] using hfits
  · have hfits := (hnodes hnode).1
    simpa [typesFitAt, Node.isStatement, hwhole, ← sameType_iff] using hfits
  · have hfits := (Bool.and_eq_true_iff.mp (hnodes hnode).1).1
    simpa [hoperand, typeOf?_eq_some_iff, Option.any_eq_true] using hfits
  · have hfits := (hnodes hnode).1
    simp only [typesFitAt, Bool.and_eq_true, beq_iff_eq] at hfits
    exact hfits.2

end Tested

/-! ### Sizes of variables -/

/-- Every variable holds as many lanes as its type has. -/
def Sized (program : Program) (slots : Array Lanes) : Prop :=
  ∀ id ty, program.varTy? id = some ty → ∃ lanes, slots[id.index]? = some lanes ∧
    lanes.length = ty.flatLen

theorem sized_iff {program : Program} {slots : Array Lanes} : program.Sized slots ↔
    ∀ index, ∀ hlt : index < program.vars.size, ∃ lanes ∈ slots[index]?,
      lanes.length = program.vars[index].ty.flatLen := by
  constructor
  · intro hsized index hlt
    exact hsized ⟨index⟩ _ (by simp [varTy?, hlt])
  · intro hsized id ty hty
    obtain ⟨declared, hdeclared, rfl⟩ := Option.map_eq_some_iff.mp hty
    obtain ⟨hlt, rfl⟩ := Array.getElem?_eq_some_iff.mp hdeclared
    exact hsized id.index hlt

instance (program : Program) (slots : Array Lanes) : Decidable (program.Sized slots) :=
  decidable_of_iff _ sized_iff.symm

/-- No variable has more lanes than can be counted in 64 bits. -/
def SizesFit (program : Program) : Prop :=
  ∀ declared ∈ program.vars, declared.ty.Fits

instance (program : Program) : Decidable program.SizesFit :=
  inferInstanceAs (Decidable (∀ declared ∈ program.vars, declared.ty.Fits))

end Program

/-! ### Operands -/

theorem Ty.element?_of_elementAt? {ty : Ty} {lane : Lane} {selected : Nat × Ty}
    (hselected : ty.elementAt? lane = some selected) : ty.element? = some selected.2 := by
  obtain ⟨element, helement, rfl⟩ := Option.map_eq_some_iff.mp hselected
  exact helement

theorem Ty.field?_of_fieldAt? {ty : Ty} {number : Nat} {selected : Nat × Ty}
    (hselected : ty.fieldAt? number = some selected) :
    (ty.field? number).map Prod.snd = some selected.2 := by
  unfold fieldAt? at hselected
  split at hselected
  · obtain ⟨⟨name, found⟩, hfield, rfl⟩ := Option.map_eq_some_iff.mp hselected
    rw [Ty.field?, hfield, Option.map_some]
  · cases hselected

/-- Statements name no places. -/
theorem Tree.isStatement_of_place {vars : Array Variable} {slots : Array Lanes}
    {tree : Tree} {place : Place} (hplace : (tree.reading vars slots).place = some place) :
    tree.node.isStatement = false := by
  obtain ⟨id, node, children⟩ := tree
  cases node <;> first | rfl | simp [Tree.reading_mk, Node.reading] at hplace

/-- Statements have no lanes. -/
theorem Tree.isStatement_of_lanes {vars : Array Variable} {slots : Array Lanes} {tree : Tree}
    {lanes : Lanes} (hlanes : (tree.reading vars slots).lanes = some lanes) :
    tree.node.isStatement = false := by
  obtain ⟨id, node, children⟩ := tree
  cases node <;> first | rfl | simp [Tree.reading_mk, Node.reading] at hlanes

/-- A part of a place that lies within a slot lies within it too. -/
theorem Place.part_within {place : Place} {selected : Nat × Ty} {length : Nat}
    (hwithin : place.offset + place.ty.flatLen ≤ length ∧ place.offset +
      place.ty.flatLen < UInt64.size) (hpart : selected.1 + selected.2.flatLen ≤ place.ty.flatLen) :
    (place.part selected).offset + (place.part selected).ty.flatLen ≤ length ∧
      (place.part selected).offset + (place.part selected).ty.flatLen < UInt64.size := by
  have hposition : (place.part selected).offset = place.offset + selected.1 :=
    Lanes.position_of_lt (by omega)
  have hty : (place.part selected).ty = selected.2 := rfl
  rw [hposition, hty]
  omega

/-- A place has the type of its operand. -/
theorem Tree.ty?_of_place {program : Program} {slots : Array Lanes} {tree : Tree} {place : Place}
    (hplace : (tree.reading program.vars slots).place = some place) :
    tree.ty? program = some place.ty := by
  induction tree using Tree.induction generalizing place with
  | step id node children ih =>
    rw [reading_mk] at hplace
    rw [ty?_mk]
    unfold Node.reading at hplace
    split at hplace
    · cases hplace
    · obtain ⟨declared, hdeclared, rfl⟩ := Option.map_eq_some_iff.mp hplace
      rw [Node.ty?, hdeclared, Option.map_some]
    · next base position hchildren =>
      obtain ⟨baseTree, rest, rfl, rfl, -⟩ := List.map_eq_cons_iff.mp hchildren
      obtain ⟨basePlace, hbase, hplace⟩ := Option.bind_eq_some_iff.mp hplace
      obtain ⟨lanes, -, helement⟩ := Option.bind_eq_some_iff.mp hplace
      obtain ⟨selected, hselected, rfl⟩ := Option.map_eq_some_iff.mp helement
      rw [List.map_cons, Node.ty?, ih baseTree List.mem_cons_self hbase, Option.bind_some,
        Ty.element?_of_elementAt? hselected]
      rfl
    · next record hchildren =>
      obtain ⟨recordTree, rest, rfl, rfl, -⟩ := List.map_eq_cons_iff.mp hchildren
      obtain ⟨recordPlace, hrecord, hfield⟩ := Option.bind_eq_some_iff.mp hplace
      obtain ⟨selected, hselected, rfl⟩ := Option.map_eq_some_iff.mp hfield
      rw [List.map_cons, Node.ty?, ih recordTree List.mem_cons_self hrecord, Option.bind_some,
        Ty.field?_of_fieldAt? hselected]
      rfl
    all_goals cases hplace

namespace Program.Outlines

variable {program : Program} {code : Code} {slots : Array Lanes} {tree : Tree}

variable (houtlines : program.Outlines code) (hconsistent : program.TypeConsistent)
  (hsized : program.Sized slots)

include houtlines hconsistent

theorem exists_ty (hcontains : code.Contains tree) (hoperand : tree.node.isStatement = false) :
    ∃ ty, tree.ty? program = some ty ∧ 1 ≤ ty.flatLen := by
  have hdraws := houtlines.draws_of_contains hcontains
  obtain ⟨ty, hty, hlanes⟩ :=
    hconsistent.typed (houtlines.reachable_of_contains hcontains) hdraws.node_eq hoperand
  exact ⟨ty, hdraws.ty?_of_typeOf hty, hlanes⟩

/-- A place has a lane. -/
theorem filled_of_place (hcontains : code.Contains tree) {place : Place}
    (hplace : (tree.reading program.vars slots).place = some place) : 1 ≤ place.ty.flatLen := by
  obtain ⟨ty, hty, hfilled⟩ :=
    houtlines.exists_ty hconsistent hcontains (Tree.isStatement_of_place hplace)
  obtain rfl := Option.some.inj ((Tree.ty?_of_place hplace).symm.trans hty)
  exact hfilled

section Fitting

variable (hfit : program.SizesFit)

include hfit

/-- The lanes of a place can be counted. -/
theorem fits_of_place (hcontains : code.Contains tree) {place : Place}
    (hplace : (tree.reading program.vars slots).place = some place) : place.ty.Fits := by
  induction tree using Tree.induction generalizing place with
  | step id node children ih =>
    rw [Tree.reading_mk] at hplace
    unfold Node.reading at hplace
    split at hplace
    · cases hplace
    · obtain ⟨declared, hdeclared, rfl⟩ := Option.map_eq_some_iff.mp hplace
      exact hfit declared (Array.mem_of_getElem? hdeclared)
    · next base position hchildren =>
      obtain ⟨baseTree, rest, rfl, rfl, -⟩ := List.map_eq_cons_iff.mp hchildren
      obtain ⟨basePlace, hbase, hplace⟩ := Option.bind_eq_some_iff.mp hplace
      obtain ⟨lanes, -, helement⟩ := Option.bind_eq_some_iff.mp hplace
      obtain ⟨selected, hselected, rfl⟩ := Option.map_eq_some_iff.mp helement
      have hbaseContains : code.Contains baseTree := hcontains.child List.mem_cons_self
      have helement := Ty.element?_of_elementAt? hselected
      have hfilled := houtlines.filled_of_place hconsistent hbaseContains hbase
      exact (ih baseTree List.mem_cons_self hbaseContains hbase).of_element? helement
        (Ty.count_pos_of_element? helement hfilled)
    · next number record hchildren =>
      obtain ⟨recordTree, rest, rfl, rfl, -⟩ := List.map_eq_cons_iff.mp hchildren
      obtain ⟨recordPlace, hrecord, hfield⟩ := Option.bind_eq_some_iff.mp hplace
      obtain ⟨selected, hselected, rfl⟩ := Option.map_eq_some_iff.mp hfield
      exact (ih recordTree List.mem_cons_self
        (hcontains.child List.mem_cons_self) hrecord).of_fieldAt? hselected
    all_goals cases hplace

include hsized

/-- A place lies within its variable. -/
theorem place_within (hcontains : code.Contains tree) {place : Place}
    (hplace : (tree.reading program.vars slots).place = some place) :
    place.offset + place.ty.flatLen ≤ (slots.getD place.root.index []).length ∧
      place.offset + place.ty.flatLen < UInt64.size := by
  induction tree using Tree.induction generalizing place with
  | step id node children ih =>
    rw [Tree.reading_mk] at hplace
    unfold Node.reading at hplace
    split at hplace
    · cases hplace
    · next read =>
      obtain ⟨declared, hdeclared, rfl⟩ := Option.map_eq_some_iff.mp hplace
      have hty :
          program.varTy? read = some declared.ty := by rw [varTy?, hdeclared, Option.map_some]
      obtain ⟨lanes, hlanes, hlength⟩ := hsized read _ hty
      rw [Array.getD_eq_getD_getElem?, hlanes, Option.getD_some, hlength, Nat.zero_add]
      exact ⟨le_rfl, declared.ty.flatLen_lt⟩
    · next base position hchildren =>
      obtain ⟨baseTree, rest, rfl, rfl, -⟩ := List.map_eq_cons_iff.mp hchildren
      obtain ⟨basePlace, hbase, hplace⟩ := Option.bind_eq_some_iff.mp hplace
      obtain ⟨lanes, -, helement⟩ := Option.bind_eq_some_iff.mp hplace
      obtain ⟨selected, hselected, rfl⟩ := Option.map_eq_some_iff.mp helement
      have hbaseContains : code.Contains baseTree := hcontains.child List.mem_cons_self
      have hfilled := houtlines.filled_of_place hconsistent hbaseContains hbase
      exact Place.part_within (ih baseTree List.mem_cons_self hbaseContains hbase)
        (Ty.le_of_elementAt? (houtlines.fits_of_place hconsistent hfit hbaseContains hbase)
          hselected (Ty.count_pos_of_element? (Ty.element?_of_elementAt? hselected) hfilled))
    · next number record hchildren =>
      obtain ⟨recordTree, rest, rfl, rfl, -⟩ := List.map_eq_cons_iff.mp hchildren
      obtain ⟨recordPlace, hrecord, hfield⟩ := Option.bind_eq_some_iff.mp hplace
      obtain ⟨selected, hselected, rfl⟩ := Option.map_eq_some_iff.mp hfield
      have hrecordContains : code.Contains recordTree := hcontains.child List.mem_cons_self
      exact Place.part_within (ih recordTree List.mem_cons_self hrecordContains hrecord)
        (Ty.le_of_fieldAt? (houtlines.fits_of_place hconsistent hfit hrecordContains hrecord)
          hselected)
    all_goals cases hplace

end Fitting

include hsized

/-- An operand that names a place has lanes, if the lanes of variables can be counted. -/
theorem lanes_of_place (hfit : program.SizesFit) (hcontains : code.Contains tree) {place : Place}
    (hplace : (tree.reading program.vars slots).place = some place) :
    ∃ lanes, (tree.reading program.vars slots).lanes = some lanes := by
  have hwithin := houtlines.place_within hconsistent hsized hfit hcontains hplace
  have hread := readPlace?_eq_some_iff.mpr ⟨hwithin.2, hwithin.1, rfl⟩
  obtain ⟨id, node, children⟩ := tree
  cases node with
  | «variable» read =>
    rw [Tree.reading_mk] at hplace ⊢
    obtain ⟨declared, hdeclared, rfl⟩ := Option.map_eq_some_iff.mp hplace
    obtain ⟨lanes, hlanes, -⟩ :=
      hsized read declared.ty (by rw [varTy?, hdeclared, Option.map_some])
    exact ⟨lanes, hlanes⟩
  | index | field =>
    exact ⟨_, by rw [Tree.lanes_reading_of_deref rfl, hplace, Option.bind_some, hread]⟩
  | swizzle =>
    obtain ⟨value, rfl, rfl⟩ :=
      Tree.exists_single_of_ids (houtlines.draws_of_contains hcontains).children_eq
    simp [Tree.reading_mk, Node.reading] at hplace
  | _ => simp [Tree.reading_mk, Node.reading] at hplace

/-- An operand has as many lanes as its type. -/
theorem length_of_lanes (hcontains : code.Contains tree) {lanes : Lanes} {ty : Ty}
    (hlanes : (tree.reading program.vars slots).lanes = some lanes)
    (hty : tree.ty? program = some ty) :
    lanes.length = ty.flatLen := by
  have hplaced : tree.node.kind = .deref → lanes.length = ty.flatLen := by
    intro hderef
    rw [Tree.lanes_reading_of_deref hderef] at hlanes
    obtain ⟨place, hplace, hread⟩ := Option.bind_eq_some_iff.mp hlanes
    obtain rfl := Option.some.inj ((Tree.ty?_of_place hplace).symm.trans hty)
    exact length_of_readPlace? hread
  obtain ⟨id, node, children⟩ := tree
  have hnode := (houtlines.draws_of_contains hcontains).node_eq
  rw [Tree.reading_mk] at hlanes
  rw [Tree.ty?_mk] at hty
  cases node with
  | constant value =>
    obtain rfl : value.lanes.map Literal.lane = lanes := Option.some.inj hlanes
    obtain rfl : value.ty = ty := Option.some.inj hty
    rw [List.length_map, hconsistent.literals (houtlines.reachable_of_contains hcontains) hnode]
  | «variable» read =>
    obtain ⟨found, hfound, hlength⟩ := hsized read ty hty
    obtain rfl : found = lanes := Option.some.inj (hfound.symm.trans hlanes)
    exact hlength
  | index | field => exact hplaced rfl
  | swizzle value mask =>
    obtain ⟨operand, rfl, rfl⟩ :=
      Tree.exists_single_of_ids (houtlines.draws_of_contains hcontains).children_eq
    obtain ⟨value, -, rfl⟩ := Option.map_eq_some_iff.mp hlanes
    obtain ⟨scalar, -, hvector⟩ := Option.bind_eq_some_iff.mp hty
    rw [Ty.vectorOf] at hvector
    split at hvector
    · obtain rfl := Option.some.inj hvector
      have hle := mask.length_le
      simp only [List.length_map, Swizzle.length, Ty.flatLen, UInt8.toNat_ofNat']
      omega
    · cases hvector
  | apply op operands result =>
    obtain rfl : result = ty := Option.some.inj hty
    obtain ⟨values, -, hvalue⟩ := Option.bind_eq_some_iff.mp hlanes
    obtain ⟨found, hfound, hfilled⟩ := houtlines.exists_ty hconsistent hcontains rfl
    obtain rfl : result = found :=
      Option.some.inj (hty.symm.trans ((Tree.ty?_mk ..).symm.trans hfound))
    split at hvalue
    · obtain rfl := Option.some.inj hvalue
      rw [Lanes.length_resize, Nat.max_eq_left hfilled]
    · cases hvalue
  | texture op channel operands result =>
    obtain rfl : result = ty := Option.some.inj hty
    obtain ⟨values, -, rfl⟩ := Option.map_eq_some_iff.mp hlanes
    exact Seed.length_lanes _ _
  | _ => cases hlanes

end Program.Outlines

/-! ### Statements -/

namespace Program

variable {program : Program} {machine machine' : Machine}

theorem Sized.getD_length {slots : Array Lanes}
    (hsized : program.Sized slots) {id : VarId} {ty : Ty}
    (hty : program.varTy? id = some ty) : (slots.getD id.index []).length = ty.flatLen := by
  obtain ⟨lanes, hlanes, hlength⟩ := hsized id ty hty
  rw [Array.getD_eq_getD_getElem?, hlanes, Option.getD_some, hlength]

/-- A variable may be given another value of the same length. -/
theorem Sized.setIfInBounds {slots : Array Lanes} (hsized : program.Sized slots) (root : VarId)
    {lanes : Lanes} (hlanes : lanes.length = (slots.getD root.index []).length) :
    program.Sized (slots.setIfInBounds root.index lanes) := by
  intro id ty hty
  obtain ⟨slot, hslot, hlength⟩ := hsized id ty hty
  by_cases hsame : root.index = id.index
  · refine ⟨lanes, ?_, ?_⟩
    · rw [hsame,
        Array.getElem?_setIfInBounds_self_of_lt (Array.getElem?_eq_some_iff.mp hslot).choose]
    · rw [hlanes, hsame, hsized.getD_length hty]
  · exact ⟨slot, by rwa [Array.getElem?_setIfInBounds_ne hsame], hlength⟩

/-- Inputs that fit their variables give every variable as many lanes as its type has. -/
theorem sized_initialSlots {inputs : List (VarId × Lanes)}
    (hinputs : ∀ id lanes ty, (id, lanes) ∈ inputs →
      program.varTy? id = some ty → lanes.length = ty.flatLen) :
    program.Sized (program.initialSlots inputs) := by
  rintro ⟨index⟩ ty hty
  obtain ⟨declared, hdeclared, rfl⟩ := Option.map_eq_some_iff.mp hty
  rw [initialSlots, Array.getElem?_mapIdx, hdeclared]
  refine ⟨_, rfl, ?_⟩
  split
  · next lanes hlookup =>
    obtain ⟨before, after, rfl, -⟩ := List.lookup_eq_some_iff.mp hlookup
    exact hinputs ⟨index⟩ lanes declared.ty (by simp) hty
  · exact Seed.length_lanes _ _

/-- What a store leaves in the variables. -/
theorem Stores.getD_slots {target : Tree} {value : Lanes} {mask : UInt8}
    (hstores : program.Stores target value mask machine machine')
    (hsized : program.Sized machine.slots) :
    ∃ place, (target.reading program.vars machine.slots).place = some place ∧
      machine'.slots.getD place.root.index [] =
        (machine.slots.getD place.root.index []).write place.offset place.ty.flatLen mask value ∧
      (∀ other ≠ place.root,
        machine'.slots.getD other.index [] = machine.slots.getD other.index []) ∧
      program.Sized machine'.slots := by
  obtain ⟨place, hplace, rfl⟩ := hstores
  obtain ⟨declared, hdeclared⟩ := exists_variable_of_place hplace
  have hty :
      program.varTy? place.root = some declared.ty := by rw [varTy?, hdeclared, Option.map_some]
  obtain ⟨slot, hslot, hlength⟩ := hsized _ _ hty
  obtain ⟨hindex, -⟩ := Array.getElem?_eq_some_iff.mp hslot
  have hother : ∀ other : VarId, other ≠ place.root → place.root.index ≠ other.index :=
    fun other hne hsame =>
    hne (congrArg VarId.mk hsame.symm)
  refine ⟨place, hplace, ?_, fun other hne => ?_,
    hsized.setIfInBounds place.root (Lanes.length_write ..)⟩
  · simp only [Machine.stored, Machine.sampled_slots, Array.getD_eq_getD_getElem?,
      Array.getElem?_setIfInBounds_self_of_lt hindex, Option.getD_some]
  · simp only [Machine.stored, Machine.sampled_slots, Array.getD_eq_getD_getElem?,
      Array.getElem?_setIfInBounds_ne (hother other hne)]

end Program

/-! ### Whole writes -/

/-- The full mask of a vector of at most eight lanes covers all of them. That of eight lanes is the
mask `0`. -/
theorem Lanes.covers_fullMask {scalar : Scalar} {lanes : UInt8} (hfits : lanes ≤ 8) :
    ∀ place < (Ty.vector scalar lanes).flatLen,
      covers (Ty.vector scalar lanes).fullMask place = true := by
  have hall :
      ∀ lanes ≤ 8, ∀ place < lanes, covers (1 <<< UInt8.ofNat lanes - 1) place = true := by decide
  intro place hplace
  have hcovers := hall lanes.toNat (by simpa using UInt8.le_iff_toNat_le.mp hfits) place
    (by simpa [Ty.flatLen] using hplace)
  simpa [Ty.fullMask] using hcovers

namespace Program

/-- No variable is a vector of more than eight lanes. A mask has eight bits, so that the full mask
of such a vector does not cover all of its lanes. Vectors have one to four lanes (`Ty.vectorOf`). -/
def MasksFit (program : Program) : Prop :=
  ∀ declared ∈ program.vars, declared.ty.lanes ≤ 8

instance (program : Program) : Decidable program.MasksFit :=
  inferInstanceAs (Decidable (∀ declared ∈ program.vars, declared.ty.lanes ≤ 8))

variable {program : Program} {machine machine' : Machine} {target : Tree} {root : VarId}
  {mask : UInt8}

/-- A mask under which a whole variable is written covers all of its lanes. -/
theorem Draws.covers_of_whole (hdraws : program.Draws target) (hfit : program.MasksFit)
    (hroot : target.root? = some root) (hwhole : program.isPartialWrite target.id mask = .ok false)
    {ty : Ty} (hty : program.varTy? root = some ty) :
    ∀ place < ty.flatLen, Lanes.covers mask place = true := by
  have hnode := (hdraws.eq_variable_of_whole hroot hwhole).1 ▸ hdraws.node_eq
  obtain ⟨found, hfound, hwhole⟩ := bind_eq_ok_iff.mp hwhole
  obtain rfl := Except.ok.inj (hnode.symm.trans hfound)
  obtain ⟨declared, hdeclared, hmask⟩ := bind_eq_ok_iff.mp hwhole
  obtain rfl : declared.ty = ty := by
    rw [varTy?, variableOf_eq_ok_iff.mp hdeclared, Option.map_some] at hty
    exact Option.some.inj hty
  have hcases : mask = 0 ∨ mask = declared.ty.fullMask := by
    have hmask := Except.ok.inj hmask
    simp only [Bool.and_eq_false_iff, bne_eq_false_iff_eq] at hmask
    exact hmask
  rcases hcases with rfl | rfl
  · exact fun place _ => Lanes.covers_zero place
  · cases hdeclaredTy : declared.ty with
    | vector scalar lanes =>
      have hlanes := hfit declared (Array.mem_of_getElem? (variableOf_eq_ok_iff.mp hdeclared))
      rw [hdeclaredTy] at hlanes
      exact Lanes.covers_fullMask hlanes
    | _ => exact fun place _ => Lanes.covers_zero place

/-- A whole variable holds what is stored in it. -/
theorem Stores.getD_of_whole {value : Lanes}
    (hstores : program.Stores target value mask machine machine')
    (hsized : program.Sized machine.slots) (hdraws : program.Draws target) (hfit : program.MasksFit)
    (hroot : target.root? = some root) (hwhole : program.isPartialWrite target.id mask = .ok false)
    {ty : Ty} (hty : program.varTy? root = some ty) (hvalue : value.length = ty.flatLen) :
    machine'.slots.getD root.index [] = value := by
  obtain ⟨place, hplace, hslot, -⟩ := hstores.getD_slots hsized
  obtain rfl := Option.some.inj ((Tree.root?_eq_of_place hplace).symm.trans hroot)
  have hnode := (hdraws.eq_variable_of_whole hroot hwhole).1
  obtain ⟨offset, placeTy⟩ : place.offset = 0 ∧ place.ty = ty := by
    obtain ⟨id, node, children⟩ := target
    obtain rfl : node = _ := hnode
    rw [Tree.reading_mk] at hplace
    obtain ⟨declared, hdeclared, hsame⟩ := Option.map_eq_some_iff.mp hplace
    rw [varTy?, hdeclared, Option.map_some] at hty
    exact ⟨hsame ▸ rfl, hsame ▸ Option.some.inj hty⟩
  rw [hslot, offset, placeTy]
  exact Lanes.write_whole ty.flatLen_lt.le (hdraws.covers_of_whole hfit hroot hwhole hty)
    (hsized.getD_length hty) hvalue

end Program

/-! ### Calls -/

namespace Signature

variable {α : Type} {signature : Signature} {arguments : List α}

/-- A call writes the arguments that its signature says. -/
theorem targets_writtenFrom (written : Nat → Ty → Lanes)
    (number : Nat) (params : List Param) (arguments : List α) :
    (writtenFrom written number params arguments).map Prod.fst =
      ((params.zip arguments).filter fun passed => passed.1.mode.writes).map Prod.snd := by
  induction params generalizing number arguments with
  | nil => simp [writtenFrom]
  | cons param params ih =>
    cases arguments with
    | nil => simp [writtenFrom]
    | cons argument arguments =>
      rw [writtenFrom, List.map_append, ih]
      cases hwrites : param.mode.writes <;> simp [hwrites]

variable (hpure : signature.isPure = true)

include hpure

theorem mode_of_isPure {param : Param} (hparam : param ∈ signature.params) : param.mode = .input :=
  eq_of_beq (List.all_eq_true.mp hpure param hparam)

/-- A call that leaves its arguments alone reads all of them. -/
theorem inputs_of_isPure (hlength : signature.params.length = arguments.length) :
    signature.inputs arguments = arguments := by
  rw [inputs, List.filter_eq_self.mpr fun passed hpassed => ?_, List.map_snd_zip hlength.ge]
  simp [mode_of_isPure hpure (List.of_mem_zip hpassed).1]

/-- A call that leaves its arguments alone stores its result only. -/
theorem stores_of_isPure (callee : SignatureId) (inputs : List Lanes)
    (sequence : Nat) (arguments : List α) (result : Option α) :
    signature.stores callee inputs sequence arguments result = result.toList.map fun place =>
        (place, (Seed.returned callee inputs none).lanes signature.returnTy.flatLen) := by
  have hnone : ∀ written, writtenFrom written 0 signature.params arguments = [] := fun written => by
    rw [← List.map_eq_nil_iff, targets_writtenFrom,
      List.filter_eq_nil_iff.mpr fun passed hpassed => ?_, List.map_nil]
    simp [mode_of_isPure hpure (List.of_mem_zip hpassed).1, ParamMode.writes]
  rw [stores, hnone, List.nil_append, if_pos hpure]

end Signature

theorem Program.StoresAll.exists_of_append {program : Program} {stores later : List (Tree × Lanes)}
    {machine machine' : Machine} (hstores : program.StoresAll (stores ++ later) machine machine') :
    ∃ between, program.StoresAll stores machine between ∧
      program.StoresAll later between machine' := by
  induction stores generalizing machine with
  | nil => exact ⟨machine, .nil _, hstores⟩
  | cons store stores ih =>
    obtain _ | ⟨hfirst, hrest⟩ := hstores
    obtain ⟨between, hstores, hlater⟩ := ih hrest
    exact ⟨between, .cons hfirst hstores, hlater⟩

/-- Only assignments and calls change variables. -/
theorem Program.Performs.slots_eq {program : Program}
    {statement : Tree} {machine machine' : Machine} {outcome : Outcome}
    (hperforms : program.Performs statement machine outcome machine')
    (hwrites : statement.node.kind ≠ .assign ∧ statement.node.kind ≠ .call) :
    machine'.slots = machine.slots := by
  unfold Performs at hperforms
  split at hperforms
  · next hnode _ => exact absurd (by rw [hnode]; rfl) hwrites.1
  · next hnode => exact absurd (by rw [hnode]; rfl) hwrites.2
  · obtain ⟨_, -, -, rfl⟩ := hperforms
    rfl
  · obtain ⟨-, -, rfl⟩ := hperforms
    rfl
  · obtain ⟨_, -, -, rfl⟩ := hperforms
    split <;> rfl
  · exact hperforms.elim

end ShaderIR
