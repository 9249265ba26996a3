import ShaderIR.Proofs.Interp.Sizes

/-!
Where the lanes of places lie. Every place that the interpreter resolves has the root and the type
of its node (`Program.typeWithin_of_answers_placeVia`). If the arrays in the types of variables have
elements, and the lanes of each variable can be counted in 64 bits, then a place lies within its
variable, whatever the indices in it are evaluated to (`Program.stop_le_of_answers_placeVia`).
Different fields of a place lie apart, and so do the elements at different indices
(`Place.apart_of_fields`, `Place.apart_of_elements`).
-/

set_option autoImplicit false

namespace ShaderIR

/-! ### Types whose parts have elements -/

/-- All vectors in a type have lanes, and all arrays in it have elements. -/
inductive Ty.Populated : Ty → Prop
  | void : Populated .void
  | vector {scalar : Scalar} {lanes : UInt8} (hlanes : 0 < lanes) : Populated (.vector scalar lanes)
  | sampler (shape : SamplerShape) : Populated (.sampler shape)
  | array {element : Ty} {length : UInt32} (helement : Populated element) (hlength : 0 < length) :
    Populated (.array element length)
  | record {name : String} {fields : List (String × Ty)}
      (hfields : ∀ field ∈ fields, Populated field.2) :
    Populated (.record name fields)

namespace Ty.Populated

variable {ty : Ty} (hpopulated : ty.Populated)

include hpopulated

theorem count_pos {element : Ty} (helement : ty.element? = some element) : 0 < ty.count := by
  cases hpopulated with
  | array _ hlength => exact UInt32.lt_iff_toNat_lt.mp hlength
  | vector hlanes => exact UInt8.lt_iff_toNat_lt.mp hlanes
  | _ => cases helement

theorem of_elementAt? {lane : Lane} {selected : Nat × Ty}
    (hselected : ty.elementAt? lane = some selected) :
    selected.2.Populated := by
  obtain ⟨element, helement, rfl⟩ := elementAt?_eq_some_iff.mp hselected
  cases hpopulated with
  | array hinner =>
    obtain rfl := Option.some.inj helement
    exact hinner
  | vector =>
    rw [element?] at helement
    split at helement
    · obtain rfl := Option.some.inj helement
      exact .vector (by decide)
    · cases helement
  | _ => cases helement

theorem of_fieldAt? {number : Nat} {selected : Nat × Ty}
    (hselected : ty.fieldAt? number = some selected) :
    selected.2.Populated := by
  obtain ⟨name, fields, field, rfl, hfield, rfl⟩ := fieldAt?_eq_some_iff.mp hselected
  cases hpopulated with
  | record hfields => exact hfields field (List.mem_of_getElem? hfield)

end Ty.Populated

/-! ### Parts of places -/

namespace Place

variable {whole part part' : Place}

/-- Where the lanes of a place end. -/
def stop (place : Place) : Nat :=
  place.offset + place.ty.flatLen

/-- One place ends before the other one begins. -/
def Apart (place place' : Place) : Prop :=
  place.stop ≤ place'.offset ∨ place'.stop ≤ place.offset

/-- The lanes of a place can be counted, and so can those before them. -/
structure Countable (place : Place) : Prop where
  ty : place.ty.Fits
  stop : place.stop < UInt64.size

namespace Countable

variable (hwhole : whole.Countable)

include hwhole

theorem offset_part {selected : Nat × Ty}
    (hpart : selected.1 + selected.2.flatLen ≤ whole.ty.flatLen) :
    (whole.part selected).offset = whole.offset + selected.1 := by
  have hstop := hwhole.stop
  unfold Place.stop at hstop
  exact Lanes.position_of_lt (by omega)

theorem stop_part_le {selected : Nat × Ty}
    (hpart : selected.1 + selected.2.flatLen ≤ whole.ty.flatLen) :
    (whole.part selected).stop ≤ whole.stop := by
  rw [Place.stop, hwhole.offset_part hpart]
  change whole.offset + selected.1 + selected.2.flatLen ≤ whole.offset + whole.ty.flatLen
  omega

theorem stop_le_of_element? {lane : Lane} (hpart : whole.element? lane = some part)
    (hcount : 0 < whole.ty.count) : part.stop ≤ whole.stop := by
  obtain ⟨selected, hselected, rfl⟩ := Option.map_eq_some_iff.mp hpart
  exact hwhole.stop_part_le (Ty.le_of_elementAt? hwhole.ty hselected hcount)

theorem stop_le_of_field? {number : Nat} (hpart : whole.field? number = some part) :
    part.stop ≤ whole.stop := by
  obtain ⟨selected, hselected, rfl⟩ := Option.map_eq_some_iff.mp hpart
  exact hwhole.stop_part_le (Ty.le_of_fieldAt? hwhole.ty hselected)

theorem of_element? {lane : Lane} (hpart : whole.element? lane = some part)
    (hcount : 0 < whole.ty.count) : part.Countable where
  ty := by
    obtain ⟨selected, hselected, rfl⟩ := Option.map_eq_some_iff.mp hpart
    exact hwhole.ty.of_element? (Ty.element?_of_elementAt? hselected) hcount
  stop := (hwhole.stop_le_of_element? hpart hcount).trans_lt hwhole.stop

theorem of_field? {number : Nat} (hpart : whole.field? number = some part) : part.Countable where
  ty := by
    obtain ⟨selected, hselected, rfl⟩ := Option.map_eq_some_iff.mp hpart
    exact hwhole.ty.of_fieldAt? hselected
  stop := (hwhole.stop_le_of_field? hpart).trans_lt hwhole.stop

end Countable

private theorem stop_le_offset_of_lt_elements (hwhole : whole.Countable)
    (hcount : 0 < whole.ty.count) {lane lane' : Lane} (hpart : whole.element? lane = some part)
    (hpart' : whole.element? lane' = some part')
    (hlt : Program.clampIndex lane whole.ty.count < Program.clampIndex lane' whole.ty.count) :
    part.stop ≤ part'.offset := by
  obtain ⟨selected, hselected, rfl⟩ := Option.map_eq_some_iff.mp hpart
  obtain ⟨selected', hselected', rfl⟩ := Option.map_eq_some_iff.mp hpart'
  rw [Place.stop, hwhole.offset_part (Ty.le_of_elementAt? hwhole.ty hselected hcount),
    hwhole.offset_part (Ty.le_of_elementAt? hwhole.ty hselected' hcount)]
  obtain ⟨element, helement, rfl⟩ := Ty.elementAt?_eq_some_iff.mp hselected
  obtain ⟨element', helement', rfl⟩ := Ty.elementAt?_eq_some_iff.mp hselected'
  obtain rfl := Option.some.inj (helement.symm.trans helement')
  have hstride := Nat.mul_le_mul_right element.flatLen (Nat.succ_le_of_lt hlt)
  rw [Nat.succ_mul] at hstride
  simp only [Place.part]
  omega

/-- Elements at different indices have no lanes in common. -/
theorem apart_of_elements (hwhole : whole.Countable)
    (hcount : 0 < whole.ty.count) {lane lane' : Lane}
    (hpart : whole.element? lane = some part) (hpart' : whole.element? lane' = some part')
    (hne : Program.clampIndex lane whole.ty.count ≠ Program.clampIndex lane' whole.ty.count) :
    part.Apart part' := by
  rcases Nat.lt_or_gt_of_ne hne with hlt | hlt
  · exact Or.inl (stop_le_offset_of_lt_elements hwhole hcount hpart hpart' hlt)
  · exact Or.inr (stop_le_offset_of_lt_elements hwhole hcount hpart' hpart hlt)

private theorem stop_le_offset_of_lt_fields (hwhole : whole.Countable) {number number' : Nat}
    (hpart : whole.field? number = some part) (hpart' : whole.field? number' = some part')
    (hlt : number < number') : part.stop ≤ part'.offset := by
  have hfits := hwhole.ty
  obtain ⟨selected, hselected, rfl⟩ := Option.map_eq_some_iff.mp hpart
  obtain ⟨selected', hselected', rfl⟩ := Option.map_eq_some_iff.mp hpart'
  have hfield := hfits.of_fieldAt? hselected
  rw [Place.stop, hwhole.offset_part (Ty.le_of_fieldAt? hfits hselected),
    hwhole.offset_part (Ty.le_of_fieldAt? hfits hselected')]
  obtain ⟨name, fields, field, hty, hfound, rfl⟩ := Ty.fieldAt?_eq_some_iff.mp hselected
  obtain ⟨_, _, field', hty', hfound', rfl⟩ := Ty.fieldAt?_eq_some_iff.mp hselected'
  obtain ⟨rfl, rfl⟩ := Ty.record.inj (hty.symm.trans hty')
  have hbefore := Ty.fieldsSize_take_add_le hfound hlt
  rw [hty] at hfits
  simp only [Place.part, hfits.fieldsLen_take hfound, hfits.fieldsLen_take hfound',
    hfield.flatLen_eq]
  omega

/-- Different fields have no lanes in common. -/
theorem apart_of_fields (hwhole : whole.Countable) {number number' : Nat}
    (hpart : whole.field? number = some part) (hpart' : whole.field? number' = some part')
    (hne : number ≠ number') : part.Apart part' := by
  rcases Nat.lt_or_gt_of_ne hne with hlt | hlt
  · exact Or.inl (stop_le_offset_of_lt_fields hwhole hpart hpart' hlt)
  · exact Or.inr (stop_le_offset_of_lt_fields hwhole hpart' hpart hlt)

end Place

/-! ### Resolved places -/

namespace Program

variable {program : Program} {evaluate : NodeId → Execution Lanes} {steps : Nat} {id : NodeId}
  {machine machine' : Machine} {place : Place}

/-- The ways to resolve a place. -/
theorem placeVia_cases
    (hplace : Walk.Answers (program.placeVia evaluate (steps + 1) id) machine place machine') :
    (∃ root declared, program.node id = .ok (.variable root) ∧
      program.variableOf root = .ok declared ∧
      place = ⟨root, 0, declared.ty⟩ ∧ machine' = machine) ∨
    (∃ base position whole between lanes, program.node id = .ok (.index base position) ∧
      Walk.Answers (program.placeVia evaluate steps base) machine whole between ∧
      Walk.Answers (evaluate position) between lanes machine' ∧
      whole.element? (lanes.lane 0) = some place) ∨
    ∃ record number whole, program.node id = .ok (.field record number) ∧
      Walk.Answers (program.placeVia evaluate steps record) machine whole machine' ∧
      whole.field? number = some place := by
  cases hnode : program.node id with
  | error crash =>
    rw [placeVia, hnode] at hplace
    simp at hplace
  | ok node =>
    cases node with
    | «variable» root =>
      obtain ⟨declared, hdeclared, rfl, rfl⟩ := (answers_placeVia_of_variable hnode).mp hplace
      exact Or.inl ⟨root, declared, rfl, hdeclared, rfl, rfl⟩
    | index base position =>
      obtain ⟨whole, between, lanes, hwhole, hlanes, helement⟩ :=
        (answers_placeVia_of_index hnode).mp hplace
      exact Or.inr (Or.inl ⟨base, position, whole, between, lanes, rfl, hwhole, hlanes, helement⟩)
    | field record number =>
      obtain ⟨whole, hwhole, hfield⟩ := (answers_placeVia_of_field hnode).mp hplace
      exact Or.inr (Or.inr ⟨record, number, whole, rfl, hwhole, hfield⟩)
    | _ =>
      rw [placeVia, Walk.answers_liftCrash_bind hnode] at hplace
      simp at hplace

/-- With more steps the same place is resolved. -/
theorem answers_placeVia_succ
    (hplace : Walk.Answers (program.placeVia evaluate steps id) machine place machine') :
    Walk.Answers (program.placeVia evaluate (steps + 1) id) machine place machine' := by
  induction steps generalizing id machine machine' place with
  | zero => exact absurd hplace Walk.answers_throwCrash
  | succ steps ih =>
    rcases placeVia_cases hplace with ⟨root, declared, hnode, hdeclared, rfl, rfl⟩ |
      ⟨base, position, whole, between, lanes, hnode, hwhole, hlanes, helement⟩ |
      ⟨record, number, whole, hnode, hwhole, hfield⟩
    · exact (answers_placeVia_of_variable hnode).mpr ⟨declared, hdeclared, rfl, rfl⟩
    · exact (answers_placeVia_of_index hnode).mpr
        ⟨whole, between, lanes, ih hwhole, hlanes, helement⟩
    · exact (answers_placeVia_of_field hnode).mpr ⟨whole, ih hwhole, hfield⟩

/-- A place has the root of its node. -/
theorem rootWithin_of_answers_placeVia
    (hplace : Walk.Answers (program.placeVia evaluate steps id) machine place machine') :
    program.rootWithin steps id = .ok (some place.root) := by
  induction steps generalizing id machine machine' place with
  | zero => exact absurd hplace Walk.answers_throwCrash
  | succ steps ih =>
    rcases placeVia_cases hplace with ⟨root, _, hnode, -, rfl, -⟩ | ⟨base, position, whole, _, _,
        hnode, hwhole, -, hpart⟩ | ⟨record, number, whole, hnode, hwhole, hpart⟩
    · exact bind_eq_ok_iff.mpr ⟨_, hnode, rfl⟩
    · rw [Place.root_of_element? hpart]
      exact bind_eq_ok_iff.mpr ⟨_, hnode, ih hwhole⟩
    · rw [Place.root_of_field? hpart]
      exact bind_eq_ok_iff.mpr ⟨_, hnode, ih hwhole⟩

/-- A place has the type of its node. -/
theorem typeWithin_of_answers_placeVia
    (hplace : Walk.Answers (program.placeVia evaluate steps id) machine place machine') :
    program.typeWithin steps id = .ok place.ty := by
  induction steps generalizing id machine machine' place with
  | zero => exact absurd hplace Walk.answers_throwCrash
  | succ steps ih =>
    rcases placeVia_cases hplace with ⟨root, declared, hnode, hdeclared, rfl, -⟩ | ⟨base, position,
        whole, _, _, hnode, hwhole, -, hpart⟩ | ⟨record, number, whole, hnode, hwhole, hpart⟩
    · exact bind_eq_ok_iff.mpr ⟨_, hnode, bind_eq_ok_iff.mpr ⟨declared, hdeclared, rfl⟩⟩
    · obtain ⟨selected, hselected, rfl⟩ := Option.map_eq_some_iff.mp hpart
      refine bind_eq_ok_iff.mpr ⟨_, hnode, bind_eq_ok_iff.mpr ⟨whole.ty, ih hwhole, ?_⟩⟩
      rw [Ty.element?_of_elementAt? hselected]
      rfl
    · obtain ⟨selected, hselected, rfl⟩ := Option.map_eq_some_iff.mp hpart
      obtain ⟨⟨name, ty⟩, hfield, hty⟩ :=
        Option.map_eq_some_iff.mp (Ty.field?_of_fieldAt? hselected)
      refine bind_eq_ok_iff.mpr ⟨_, hnode, bind_eq_ok_iff.mpr ⟨whole.ty, ih hwhole, ?_⟩⟩
      rw [hfield]
      exact congrArg Except.ok hty

section

variable (hpopulated : ∀ read ty, program.varTy? read = some ty → ty.Populated)

include hpopulated

theorem populated_of_answers_placeVia
    (hplace : Walk.Answers (program.placeVia evaluate steps id) machine place machine') :
    place.ty.Populated := by
  induction steps generalizing id machine machine' place with
  | zero => exact absurd hplace Walk.answers_throwCrash
  | succ steps ih =>
    rcases placeVia_cases hplace with ⟨root, declared, -, hdeclared, rfl, -⟩ |
      ⟨_, _, whole, _, _, -, hwhole, -, hpart⟩ | ⟨_, _, whole, -, hwhole, hpart⟩
    · exact hpopulated root _ (by rw [varTy?, variableOf_eq_ok_iff.mp hdeclared, Option.map_some])
    · obtain ⟨selected, hselected, rfl⟩ := Option.map_eq_some_iff.mp hpart
      exact (ih hwhole).of_elementAt? hselected
    · obtain ⟨selected, hselected, rfl⟩ := Option.map_eq_some_iff.mp hpart
      exact (ih hwhole).of_fieldAt? hselected

variable (hsizes : program.SizesFit)

include hsizes

/-- A place ends where its variable ends or before. -/
theorem stop_le_of_answers_placeVia
    (hplace : Walk.Answers (program.placeVia evaluate steps id) machine place machine') :
    place.Countable ∧ ∃ ty, program.varTy? place.root = some ty ∧ place.stop ≤ ty.flatLen := by
  induction steps generalizing id machine machine' place with
  | zero => exact absurd hplace Walk.answers_throwCrash
  | succ steps ih =>
    rcases placeVia_cases hplace with ⟨root, declared, -, hdeclared, rfl, -⟩ |
      ⟨_, _, whole, _, _, -, hwhole, -, hpart⟩ | ⟨_, _, whole, -, hwhole, hpart⟩
    · have hfound := variableOf_eq_ok_iff.mp hdeclared
      have hstop : (⟨root, 0, declared.ty⟩ : Place).stop = declared.ty.flatLen := Nat.zero_add _
      exact ⟨⟨hsizes declared (Array.mem_of_getElem? hfound), hstop ▸ declared.ty.flatLen_lt⟩,
        declared.ty, by rw [varTy?, hfound, Option.map_some], hstop.le⟩
    · obtain ⟨hcountable, ty, hty, hwithin⟩ := ih hwhole
      obtain ⟨selected, hselected, -⟩ := Option.map_eq_some_iff.mp hpart
      have hcount := (populated_of_answers_placeVia hpopulated hwhole).count_pos
        (Ty.element?_of_elementAt? hselected)
      exact ⟨hcountable.of_element? hpart hcount, ty, by rwa [Place.root_of_element? hpart],
        (hcountable.stop_le_of_element? hpart hcount).trans hwithin⟩
    · obtain ⟨hcountable, ty, hty, hwithin⟩ := ih hwhole
      exact ⟨hcountable.of_field? hpart, ty, by rwa [Place.root_of_field? hpart],
        (hcountable.stop_le_of_field? hpart).trans hwithin⟩

end

end Program

end ShaderIR
