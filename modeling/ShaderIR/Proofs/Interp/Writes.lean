import ShaderIR.Interp.Lanes

/-!
Lengths of values, and what writes leave in slots. Positions are counted in 64 bits, so that the
places of a write have different positions as long as there are no more of them
(`Lanes.position_inj`). `Lanes.getElem?_write` says which lane of the value goes to a covered place,
`Lanes.getElem?_write_of_ne` that all other positions stay, and `Lanes.write_whole` that storing a
value under a mask that covers all lanes of a slot of the same length replaces the slot by the
value.
-/

set_option autoImplicit false

namespace ShaderIR.Lanes

theorem length_resize (lanes : Lanes) (length : Nat) : (lanes.resize length).length = length := by
  rw [resize, List.length_append, List.length_take, List.length_replicate]
  omega

theorem covers_zero (place : Nat) : covers 0 place = true := by
  simp [covers]

/-- How many places before one are covered. -/
def coveredBefore (mask : UInt8) (place : Nat) : Nat :=
  ((List.range place).filter (covers mask)).length

theorem position_lt (offset place : Nat) : position offset place < UInt64.size :=
  Nat.mod_lt _ (by decide)

theorem position_of_lt {offset place : Nat} (hlt : offset + place < UInt64.size) :
    position offset place = offset + place :=
  Nat.mod_eq_of_lt hlt

theorem position_position (offset place place' : Nat) :
    position (position offset place) place' = position offset (place + place') := by
  unfold position
  rw [Nat.mod_add_mod, Nat.add_assoc]

theorem position_position' (offset place place' : Nat) :
    position offset (position place place') = position (position offset place) place' := by
  rw [position_position, position, position, position, Nat.add_mod_mod]

/-- Different places of one range have different positions. -/
theorem position_inj {offset place place' : Nat} (hplace : place < UInt64.size)
    (hplace' : place' < UInt64.size) (hsame : position offset place = position offset place') :
    place = place' := by
  simp only [position, UInt64.size] at hplace hplace' hsame
  omega

section Folds

variable (slot : Lanes) (offset : Nat) (mask : UInt8) (lane : Nat × Nat → Lane)

private theorem length_foldl_set (covered : List (Nat × Nat)) :
    (covered.foldl (fun slot entry => slot.set (position offset entry.1) (lane entry))
      slot).length = slot.length := by
  induction covered generalizing slot with
  | nil => rfl
  | cons first rest ih => simp only [List.foldl_cons, ih, List.length_set]

/-- The places of a range are written one after the other, of which the last one is the
`count`-th. -/
private theorem foldl_set_succ (count : Nat) :
    ((List.range (count + 1)).filter (covers mask)).zipIdx.foldl
        (fun slot entry => slot.set (position offset entry.1) (lane entry)) slot =
      if covers mask count = true then
        (((List.range count).filter (covers mask)).zipIdx.foldl
          (fun slot entry => slot.set (position offset entry.1) (lane entry)) slot).set
            (position offset count) (lane (count, coveredBefore mask count))
      else ((List.range count).filter (covers mask)).zipIdx.foldl
        (fun slot entry => slot.set (position offset entry.1) (lane entry)) slot := by
  rw [List.range_succ, List.filter_append]
  split
  · next hcovers =>
    rw [List.filter_cons_of_pos hcovers, List.filter_nil, List.zipIdx_append, List.zipIdx_singleton,
      Nat.zero_add, List.foldl_append, List.foldl_cons, List.foldl_nil, coveredBefore]
  · next hcovers =>
    rw [List.filter_cons_of_neg hcovers, List.filter_nil, List.append_nil]

private theorem getElem?_foldl_set {count place : Nat} (hcount : count ≤ UInt64.size)
    (hplace : place < count) (hcovers : covers mask place = true)
    (hslot : position offset place < slot.length) :
    (((List.range count).filter (covers mask)).zipIdx.foldl
      (fun slot entry => slot.set (position offset entry.1) (lane entry))
        slot)[position offset place]? = some (lane (place, coveredBefore mask place)) := by
  induction count with
  | zero => exact absurd hplace place.not_lt_zero
  | succ count ih =>
    rw [foldl_set_succ]
    rcases Nat.lt_or_eq_of_le (Nat.le_of_lt_succ hplace) with hlt | rfl
    · have hearlier := ih (Nat.le_of_succ_le hcount) hlt
      split
      · rw [List.getElem?_set_ne, hearlier]
        exact fun hsame =>
          (Nat.ne_of_gt hlt) (position_inj hcount (Nat.lt_of_lt_of_le hplace hcount) hsame)
      · exact hearlier
    · rw [if_pos hcovers, List.getElem?_set_self (by rwa [length_foldl_set])]

private theorem getElem?_foldl_set_of_ne {count index : Nat}
    (hne : ∀ place < count, covers mask place = true → position offset place ≠ index) :
    (((List.range count).filter (covers mask)).zipIdx.foldl
      (fun slot entry => slot.set (position offset entry.1) (lane entry)) slot)[index]? =
      slot[index]? := by
  induction count with
  | zero => rfl
  | succ count ih =>
    have hearlier := ih fun place hplace => hne place (Nat.lt_succ_of_lt hplace)
    rw [foldl_set_succ]
    split
    · next hcovers =>
        rw [List.getElem?_set_ne (hne count (Nat.lt_succ_self count) hcovers), hearlier]
    · exact hearlier

end Folds

/-- A write puts lanes of the value in the covered places of its range, if the slot has them. -/
theorem getElem?_write (slot value : Lanes) {offset length place : Nat} {mask : UInt8}
    (hlength : length ≤ UInt64.size) (hplace : place < length) (hcovers : covers mask place = true)
    (hslot : position offset place < slot.length) :
    (slot.write offset length mask value)[position offset place]? =
      some (value.source length place (coveredBefore mask place)) :=
  getElem?_foldl_set slot offset mask (fun entry => value.source length entry.1 entry.2) hlength
    hplace hcovers hslot

/-- A write leaves the positions of all places that it does not cover. -/
theorem getElem?_write_of_ne (slot value : Lanes) {offset length index : Nat} {mask : UInt8}
    (hne : ∀ place < length, covers mask place = true → position offset place ≠ index) :
    (slot.write offset length mask value)[index]? = slot[index]? :=
  getElem?_foldl_set_of_ne slot offset mask (fun entry => value.source length entry.1 entry.2) hne

/-- A write that covers a whole slot replaces it. -/
theorem write_whole {slot value : Lanes} {length : Nat}
    {mask : UInt8} (hlength : length ≤ UInt64.size)
    (hcovers : ∀ place < length, covers mask place = true) (hslot : slot.length = length)
    (hvalue : value.length = length) : slot.write 0 length mask value = value := by
  refine List.ext_getElem? fun index => ?_
  by_cases hindex : index < length
  · have hposition : position 0 index = index := by
      rw [position_of_lt (by omega), Nat.zero_add]
    have hwritten := getElem?_write slot value hlength hindex (hcovers index hindex)
      (by omega : position 0 index < slot.length)
    rw [hposition] at hwritten
    rw [hwritten, source, if_pos hvalue, List.getD_eq_getElem?_getD,
      List.getElem?_eq_getElem (by omega), Option.getD_some]
  · rw [List.getElem?_eq_none (by rw [length_write]; omega), List.getElem?_eq_none (by omega)]

end ShaderIR.Lanes
