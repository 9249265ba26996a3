import ShaderIR.Proofs.Interp.Reading
import ShaderIR.Proofs.Interp.Writes

/-!
Sizes without a bound. The interpreter counts lanes in 64 bits, so the length of a type with more
lanes than that wraps around (`Ty.flatLen_eq_mod`). A type that fits 64 bits has its true size as
its length, its parts fit too, and each of them lies within the whole (`Ty.le_of_elementAt?`,
`Ty.le_of_fieldAt?`). Whether types fit or not, a place has lanes exactly if it neither wraps around
nor reaches past the end of its variable (`Program.readPlace?_eq_some_iff`).
-/

set_option autoImplicit false

namespace ShaderIR

namespace Ty

/-! ### True sizes -/

mutual

/-- The number of lanes that a value of this type has. -/
def size : Ty → Nat
  | .void => 0
  | .vector _ lanes => lanes.toNat
  | .sampler _ => 1
  | .array element length => element.size * length.toNat
  | .record _ fields => fieldsSize fields

/-- The number of lanes that a run of fields has. -/
def fieldsSize : List (String × Ty) → Nat
  | [] => 0
  | (_, ty) :: rest => ty.size + fieldsSize rest

end

mutual

theorem flatLen_eq_mod : (ty : Ty) → ty.flatLen = ty.size % UInt64.size
  | .void => rfl
  | .vector _ lanes => by
    rw [flatLen, size, Nat.mod_eq_of_lt]
    exact lanes.toNat_lt.trans (by decide)
  | .sampler _ => rfl
  | .array element length => by
    rw [flatLen, size, flatLen_eq_mod element, Nat.mod_mul_mod]
  | .record _ fields => by
    rw [flatLen, size, fieldsLen_eq_mod fields]

theorem fieldsLen_eq_mod :
    (fields : List (String × Ty)) → fieldsLen fields = fieldsSize fields % UInt64.size
  | [] => rfl
  | (_, ty) :: rest => by
    rw [fieldsLen, fieldsSize, flatLen_eq_mod ty, fieldsLen_eq_mod rest, ← Nat.add_mod]

end

theorem flatLen_lt (ty : Ty) : ty.flatLen < UInt64.size := by
  rw [flatLen_eq_mod]
  exact Nat.mod_lt _ (by decide)

/-- The lanes of a value of this type can be counted in 64 bits. -/
def Fits (ty : Ty) : Prop :=
  ty.size < UInt64.size

instance (ty : Ty) : Decidable ty.Fits :=
  inferInstanceAs (Decidable (_ < _))

theorem Fits.flatLen_eq {ty : Ty} (hfits : ty.Fits) : ty.flatLen = ty.size :=
  (flatLen_eq_mod ty).trans (Nat.mod_eq_of_lt hfits)

theorem fieldsLen_of_lt {fields : List (String × Ty)} (hlt : fieldsSize fields < UInt64.size) :
    fieldsLen fields = fieldsSize fields :=
  (fieldsLen_eq_mod fields).trans (Nat.mod_eq_of_lt hlt)

/-! ### Elements -/

/-- The number of elements that an index selects from. -/
def count : Ty → Nat
  | .array _ length => length.toNat
  | ty => ty.lanes.toNat

theorem elementAt?_eq_some_iff {ty : Ty} {lane : Lane} {selected : Nat × Ty} :
    ty.elementAt? lane = some selected ↔ ∃ element, ty.element? = some element ∧
      (Program.clampIndex lane ty.count * element.flatLen, element) = selected := by
  have hcount : ty.elementAt? lane = ty.element?.map fun element =>
        (Program.clampIndex lane ty.count * element.flatLen, element) := by
    cases ty <;> rfl
  rw [hcount, Option.map_eq_some_iff]

/-- The elements fill the whole value. -/
theorem size_eq_of_element? {ty element : Ty} (helement : ty.element? = some element) :
    ty.size = ty.count * element.size := by
  cases ty with
  | array inner length =>
    obtain rfl : inner = element := Option.some.inj helement
    rw [size, count, Nat.mul_comm]
  | vector scalar lanes =>
    rw [element?] at helement
    split at helement
    · obtain rfl := Option.some.inj helement
      exact (Nat.mul_one _).symm
    · cases helement
  | _ => cases helement

/-- There is an element where there is a lane. -/
theorem count_pos_of_element? {ty element : Ty} (helement : ty.element? = some element)
    (hfilled : 1 ≤ ty.flatLen) : 0 < ty.count := by
  rw [flatLen_eq_mod, size_eq_of_element? helement] at hfilled
  refine Nat.pos_of_ne_zero fun hzero => ?_
  rw [hzero, Nat.zero_mul] at hfilled
  exact Nat.not_succ_le_zero _ hfilled

theorem Fits.of_element? {ty element : Ty} (hfits : ty.Fits) (helement : ty.element? = some element)
    (hcount : 0 < ty.count) : element.Fits := by
  refine Nat.lt_of_le_of_lt ?_ hfits
  rw [size_eq_of_element? helement]
  exact Nat.le_mul_of_pos_left _ hcount

/-- An element lies within what fits. -/
theorem le_of_elementAt? {ty element : Ty} {lane : Lane} {offset : Nat} (hfits : ty.Fits)
    (hpart : ty.elementAt? lane = some (offset, element)) (hcount : 0 < ty.count) :
    offset + element.flatLen ≤ ty.flatLen := by
  obtain ⟨_, helement, hoffset⟩ := elementAt?_eq_some_iff.mp hpart
  obtain ⟨rfl, rfl⟩ := Prod.mk.inj hoffset
  have hclamp : Program.clampIndex lane ty.count + 1 ≤ ty.count := by
    unfold Program.clampIndex
    omega
  rw [hfits.flatLen_eq, (hfits.of_element? helement hcount).flatLen_eq,
    size_eq_of_element? helement, ← Nat.succ_mul]
  exact Nat.mul_le_mul_right _ hclamp

/-! ### Fields -/

theorem fieldAt?_eq_some_iff {ty : Ty} {number : Nat} {selected : Nat × Ty} :
    ty.fieldAt? number = some selected ↔ ∃ name fields field, ty = .record name fields ∧
      fields[number]? = some field ∧ (fieldsLen (fields.take number), field.2) = selected := by
  cases ty <;> simp [fieldAt?]

theorem fieldsSize_append (first second : List (String × Ty)) :
    fieldsSize (first ++ second) = fieldsSize first + fieldsSize second := by
  induction first with
  | nil => simp [fieldsSize]
  | cons field rest ih => simp [fieldsSize, ih, Nat.add_assoc]

/-- A field and those before it lie among all of them. -/
theorem fieldsSize_take_add_le {fields : List (String × Ty)} {number later : Nat}
    {field : String × Ty} (hfield : fields[number]? = some field) (hlater : number < later) :
    fieldsSize (fields.take number) + field.2.size ≤ fieldsSize (fields.take later) := by
  have htake : (fields.take later).take (number + 1) = fields.take (number + 1) := by
    rw [List.take_take, Nat.min_eq_left hlater]
  have hsplit := fieldsSize_append ((fields.take later).take (number + 1))
    ((fields.take later).drop (number + 1))
  rw [List.take_append_drop, htake, List.take_add_one, hfield, fieldsSize_append] at hsplit
  simp only [Option.toList_some, fieldsSize] at hsplit
  omega

theorem fieldsSize_take_add_le_size {name : String} {fields : List (String × Ty)} {number : Nat}
    {field : String × Ty} (hfield : fields[number]? = some field) :
    fieldsSize (fields.take number) + field.2.size ≤ (Ty.record name fields).size := by
  have hwithin := fieldsSize_take_add_le hfield (List.getElem?_eq_some_iff.mp hfield).1
  rwa [List.take_length] at hwithin

theorem Fits.of_fieldAt? {ty field : Ty} {number offset : Nat} (hfits : ty.Fits)
    (hpart : ty.fieldAt? number = some (offset, field)) : field.Fits := by
  obtain ⟨name, fields, found, rfl, hfield, hoffset⟩ := fieldAt?_eq_some_iff.mp hpart
  obtain ⟨-, rfl⟩ := Prod.mk.inj hoffset
  have hwithin : fieldsSize (fields.take number) + found.2.size ≤ (Ty.record name fields).size :=
    fieldsSize_take_add_le_size hfield
  exact Nat.lt_of_le_of_lt (Nat.le_of_add_left_le hwithin) hfits

/-- A field of what fits begins behind all fields before it. -/
theorem Fits.fieldsLen_take {name : String} {fields : List (String × Ty)} {number : Nat}
    {field : String × Ty} (hfits : (Ty.record name fields).Fits)
    (hfield : fields[number]? = some field) :
    fieldsLen (fields.take number) = fieldsSize (fields.take number) := by
  have hwithin : fieldsSize (fields.take number) + field.2.size ≤ (Ty.record name fields).size :=
    fieldsSize_take_add_le_size hfield
  exact fieldsLen_of_lt (Nat.lt_of_le_of_lt (Nat.le_of_add_right_le hwithin) hfits)

/-- A field lies within what fits. -/
theorem le_of_fieldAt? {ty field : Ty} {number offset : Nat} (hfits : ty.Fits)
    (hpart : ty.fieldAt? number = some (offset, field)) : offset + field.flatLen ≤ ty.flatLen := by
  have hfield := hfits.of_fieldAt? hpart
  obtain ⟨name, fields, found, rfl, hfound, hoffset⟩ := fieldAt?_eq_some_iff.mp hpart
  obtain ⟨rfl, rfl⟩ := Prod.mk.inj hoffset
  rw [hfits.flatLen_eq, hfield.flatLen_eq, hfits.fieldsLen_take hfound]
  exact fieldsSize_take_add_le_size hfound

end Ty

/-! ### Places -/

namespace Program

/-- A place has lanes if its end can be counted in 64 bits and its variable reaches so far. -/
theorem readPlace?_eq_some_iff {slots : Array Lanes} {place : Place} {lanes : Lanes} :
    readPlace? slots place = some lanes ↔ place.offset + place.ty.flatLen < UInt64.size ∧
      place.offset + place.ty.flatLen ≤ (slots.getD place.root.index []).length ∧
      ((slots.getD place.root.index []).drop place.offset).take place.ty.flatLen = lanes := by
  have hlength := place.ty.flatLen_lt
  unfold readPlace?
  dsimp only
  -- An end that has wrapped around stands before the beginning.
  by_cases hend : place.offset + place.ty.flatLen < UInt64.size
  · rw [Lanes.position_of_lt hend, Nat.add_sub_cancel_left]
    simp [hend]
  · have hwraps : ¬ place.offset ≤ Lanes.position place.offset place.ty.flatLen := by
      simp only [Lanes.position, UInt64.size] at hend hlength ⊢
      omega
    simp [hend, hwraps]

theorem length_of_readPlace? {slots : Array Lanes} {place : Place} {lanes : Lanes}
    (hread : readPlace? slots place = some lanes) : lanes.length = place.ty.flatLen := by
  obtain ⟨-, hwithin, rfl⟩ := readPlace?_eq_some_iff.mp hread
  rw [List.length_take, List.length_drop]
  omega

end Program

end ShaderIR
