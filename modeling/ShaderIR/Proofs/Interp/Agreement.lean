import ShaderIR.Proofs.Interp.Extents
import ShaderIR.Proofs.Node.Children

/-!
Operands that are found to be the same in two runs. `Reading.Agrees` says that whatever an operand
is found to be in one run it is found to be in the other one: it has the same lanes, and it names
the same place or one of the same type whose parts hold the same lanes. `Node.reading_agrees` says
that a node with agreeing children agrees.

A place in a temporary ends where its variable ends, while the place that it stands for may have
other lanes behind it. Those lanes are read only by an index into an array without elements, or if a
type has more lanes than can be counted in 64 bits; `Reading.Filled` excludes both.
-/

set_option autoImplicit false

namespace ShaderIR

/-! ### Parts of places -/

namespace Place

/-- The parts of a part are parts of the whole. -/
theorem part_part (place : Place) (selected selected' : Nat × Ty) :
    (place.part selected).part selected' = place.part (selected.1 + selected'.1, selected'.2) := by
  simp only [part, Lanes.position_position]

/-- Every part of the second place holds in the second run what it holds of the first place in the
first run. -/
def Matches (slots slots' : Array Lanes) (place place' : Place) : Prop :=
  ∀ selected : Nat × Ty, selected.1 + selected.2.flatLen ≤ place.ty.flatLen →
    Program.readPlace? slots' (place'.part selected) =
      Program.readPlace? slots (place.part selected)

/-- A variable that holds just the lanes of a place matches it. -/
theorem matches_of_lanes {slots slots' : Array Lanes} {place : Place} {lanes : Lanes}
    {temporary : VarId} (hlanes : Program.readPlace? slots place = some lanes)
    (htemporary : slots'[temporary.index]? = some lanes) :
    Matches slots slots' place ⟨temporary, 0, place.ty⟩ := by
  rintro ⟨offset, ty⟩ (hwithin : offset + ty.flatLen ≤ place.ty.flatLen)
  obtain ⟨hend, hinside, rfl⟩ := Program.readPlace?_eq_some_iff.mp hlanes
  have hpart : Lanes.position place.offset offset = place.offset + offset :=
    Lanes.position_of_lt (by omega)
  have hpart' : Lanes.position 0 offset = offset :=
    (Lanes.position_of_lt (by omega)).trans (Nat.zero_add offset)
  have hslot : slots'.getD temporary.index [] =
      ((slots.getD place.root.index []).drop place.offset).take place.ty.flatLen := by
    rw [Array.getD_eq_getD_getElem?, htemporary, Option.getD_some]
  have hlength : (slots'.getD temporary.index []).length = place.ty.flatLen := by
    rw [hslot, List.length_take, List.length_drop]
    omega
  -- Both parts are inside of what has been read.
  have hread : Program.readPlace? slots (place.part (offset, ty)) =
      some (((slots.getD place.root.index []).drop (place.offset + offset)).take ty.flatLen) := by
    refine Program.readPlace?_eq_some_iff.mpr ?_
    simp only [part, hpart, and_true]
    omega
  rw [hread]
  refine Program.readPlace?_eq_some_iff.mpr ?_
  simp only [part, hpart']
  refine ⟨by omega, by omega, ?_⟩
  rw [hslot, List.drop_take, List.take_take, List.drop_drop, Nat.min_eq_left (by omega)]

theorem Matches.part {slots slots' : Array Lanes} {place place' : Place}
    (hmatches : Matches slots slots' place place') {selected : Nat × Ty}
    (hwithin : selected.1 + selected.2.flatLen ≤ place.ty.flatLen) :
    Matches slots slots' (place.part selected) (place'.part selected) := by
  intro inner (hinner : inner.1 + inner.2.flatLen ≤ selected.2.flatLen)
  rw [part_part, part_part]
  exact hmatches _ (show selected.1 + inner.1 + inner.2.flatLen ≤ place.ty.flatLen by omega)

end Place

/-! ### Agreement -/

namespace Reading

/-- Whatever the operand is found to be in the first run, it is found to be in the second one.
`Solid` must hold if it names another place there. -/
structure Agrees (Solid : Prop) (slots slots' : Array Lanes) (reading reading' : Reading) :
    Prop where
  lanes : ∀ lanes, reading.lanes = some lanes → reading'.lanes = some lanes
  place : ∀ place, reading.place = some place → ∃ place', reading'.place = some place' ∧
    place'.ty = place.ty ∧ (place' = place ∨ Solid ∧ Place.Matches slots slots' place place')

/-- A place that the operand names has lanes, and no more than can be counted. -/
def Filled (reading : Reading) : Prop :=
  ∀ place, reading.place = some place → 1 ≤ place.ty.flatLen ∧ place.ty.Fits

variable {Solid : Prop} {slots slots' : Array Lanes}

theorem Agrees.of_placeless {reading reading' : Reading} (hplace : reading.place = none)
    (hlanes : ∀ lanes, reading.lanes = some lanes → reading'.lanes = some lanes) :
    Agrees Solid slots slots' reading reading' :=
  ⟨hlanes, by simp [hplace]⟩

theorem Agrees.of_nothing {reading reading' : Reading} (hplace : reading.place = none)
    (hlanes : reading.lanes = none) : Agrees Solid slots slots' reading reading' :=
  .of_placeless hplace (by simp [hlanes])

theorem Agrees.mapM_lanes {readings readings' : List Reading}
    (hagree : List.Forall₂ (Agrees Solid slots slots') readings readings') {values : List Lanes}
    (hvalues : readings.mapM Reading.lanes = some values) :
    readings'.mapM Reading.lanes = some values := by
  induction hagree generalizing values with
  | nil => exact hvalues
  | cons hfirst _ ih =>
    simp only [List.mapM_cons, Option.bind_eq_bind, Option.bind_eq_some_iff, Option.pure_def,
      Option.some.injEq] at hvalues ⊢
    obtain ⟨lanes, hlanes, later, hlater, rfl⟩ := hvalues
    exact ⟨lanes, hfirst.lanes lanes hlanes, later, ih hlater, rfl⟩

/-- Parts of agreeing places agree. -/
theorem Agrees.part {place? place?' : Option Place} (select : Ty → Option (Nat × Ty))
    (hplace : ∀ place, place? = some place → ∃ place',
      place?' = some place' ∧ place'.ty = place.ty ∧
      (place' = place ∨ Solid ∧ Place.Matches slots slots' place place'))
    (hslots : ∀ place, place? = some place → slots'[place.root.index]? = slots[place.root.index]?)
    (hwithin : Solid → ∀ place selected, place? = some place → select place.ty = some selected →
      selected.1 + selected.2.flatLen ≤ place.ty.flatLen) : Agrees Solid slots slots'
      (.ofPlace slots (place?.bind fun place => (select place.ty).map place.part))
      (.ofPlace slots' (place?'.bind fun place => (select place.ty).map place.part)) := by
  -- A part of the place on the left is the same part of the place on the right.
  have hparts : ∀ part, (place?.bind fun place => (select place.ty).map place.part) = some part →
      ∃ part', (place?'.bind fun place => (select place.ty).map place.part) = some part' ∧
        part'.ty = part.ty ∧ (part' = part ∨ Solid ∧ Place.Matches slots slots' part part') ∧
        Program.readPlace? slots' part' = Program.readPlace? slots part := by
    intro part hpart
    obtain ⟨place, hsome, hpart⟩ := Option.bind_eq_some_iff.mp hpart
    obtain ⟨selected, hselected, rfl⟩ := Option.map_eq_some_iff.mp hpart
    obtain ⟨place', hsome', hty, hcases⟩ := hplace place hsome
    have hpart' : (place?'.bind fun place => (select place.ty).map place.part) =
        some (place'.part selected) := by
      rw [hsome', Option.bind_some, hty, hselected, Option.map_some]
    rcases hcases with rfl | ⟨hsolid, hmatches⟩
    · refine ⟨_, hpart', rfl, Or.inl rfl, ?_⟩
      simp only [Program.readPlace?, Place.part, Array.getD_eq_getD_getElem?, hslots _ hsome]
    · have hwithin := hwithin hsolid place selected hsome hselected
      exact ⟨_, hpart', rfl, Or.inr ⟨hsolid, hmatches.part hwithin⟩, hmatches selected hwithin⟩
  constructor
  · intro lanes hlanes
    obtain ⟨part, hpart, hread⟩ := Option.bind_eq_some_iff.mp hlanes
    obtain ⟨part', hpart', -, -, hsame⟩ := hparts part hpart
    exact Option.bind_eq_some_iff.mpr ⟨part', hpart', hsame.trans hread⟩
  · intro part hpart
    obtain ⟨part', hpart', hty, hcases, -⟩ := hparts part hpart
    exact ⟨part', hpart', hty, hcases⟩

end Reading

/-- A node with agreeing children agrees. -/
theorem Node.reading_agrees {Solid : Prop}
    {vars vars' : Array Variable} {slots slots' : Array Lanes}
    {node node' : Node} (halike : node.Alike node') {readings readings' : List Reading}
    (hagree : List.Forall₂ (Reading.Agrees Solid slots slots') readings readings')
    (hvars : ∀ (index : Nat) declared, vars[index]? = some declared → vars'[index]? = some declared)
    (hslots : ∀ index < vars.size, slots'[index]? = slots[index]?)
    (hread : ∀ read, node = .variable read → read.index < vars.size)
    (hroots : ∀ reading ∈ readings, ∀ place, reading.place = some place →
      place.root.index < vars.size) (hfilled : Solid → ∀ reading ∈ readings, reading.Filled) :
    Reading.Agrees Solid slots slots' (node.reading vars slots readings)
      (node'.reading vars' slots' readings') := by
  cases halike with
  | constant value => exact .of_placeless rfl fun _ hlanes => hlanes
  | «variable» read =>
    constructor
    · intro lanes hlanes
      exact (hslots _ (hread read rfl)).trans hlanes
    · intro place hplace
      obtain ⟨declared, hdeclared, rfl⟩ := Option.map_eq_some_iff.mp hplace
      exact ⟨_, by rw [Node.reading, hvars _ _ hdeclared, Option.map_some], rfl, Or.inl rfl⟩
  | index =>
    rcases hagree with _ | ⟨hbase, _ | ⟨hposition, _ | _⟩⟩
    case cons.cons.nil base base' position position' =>
      have hpart := fun lane => Reading.Agrees.part (fun ty => ty.elementAt? lane) hbase.place
        (fun place hplace => hslots _ (hroots base (by simp) place hplace))
        (fun hsolid place _ hplace hselected => by
          obtain ⟨hlanes, hfits⟩ := hfilled hsolid base (by simp) place hplace
          obtain ⟨_, helement, -⟩ := Ty.elementAt?_eq_some_iff.mp hselected
          exact Ty.le_of_elementAt? hfits hselected (Ty.count_pos_of_element? helement hlanes))
      cases hlanes : position.lanes with
      | none => constructor <;> simp [Node.reading, Reading.ofPlace, hlanes]
      | some lanes =>
        have hlanes' := hposition.lanes lanes hlanes
        simpa [Node.reading, hlanes, hlanes', Place.element?] using hpart (lanes.lane 0)
    all_goals exact .of_nothing rfl rfl
  | field _ _ number =>
    rcases hagree with _ | ⟨hrecord, _ | _⟩
    case cons.nil record record' =>
      exact Reading.Agrees.part (fun ty => ty.fieldAt? number) hrecord.place
        (fun place hplace => hslots _ (hroots record (by simp) place hplace))
        (fun hsolid place _ hplace hselected =>
          Ty.le_of_fieldAt? (hfilled hsolid record (by simp) place hplace).2 hselected)
    all_goals exact .of_nothing rfl rfl
  | apply op operands operands' ty hlength =>
    refine .of_placeless rfl fun lanes hlanes => ?_
    obtain ⟨values, hvalues, hlanes⟩ := Option.bind_eq_some_iff.mp hlanes
    exact Option.bind_eq_some_iff.mpr ⟨values, Reading.Agrees.mapM_lanes hagree hvalues, hlanes⟩
  | texture op channel operands operands' ty hshape =>
    refine .of_placeless rfl fun lanes hlanes => ?_
    obtain ⟨values, hvalues, hlanes⟩ := Option.map_eq_some_iff.mp hlanes
    exact Option.map_eq_some_iff.mpr ⟨values, Reading.Agrees.mapM_lanes hagree hvalues, hlanes⟩
  | swizzle value value' mask =>
    rcases hagree with _ | ⟨hoperand, _ | _⟩
    case cons.nil operand operand' =>
      refine .of_placeless rfl fun lanes hlanes => ?_
      obtain ⟨value, hvalue, hlanes⟩ := Option.map_eq_some_iff.mp hlanes
      exact Option.map_eq_some_iff.mpr ⟨value, hoperand.lanes value hvalue, hlanes⟩
    all_goals exact .of_nothing rfl rfl
  | _ => exact .of_nothing rfl rfl

end ShaderIR
