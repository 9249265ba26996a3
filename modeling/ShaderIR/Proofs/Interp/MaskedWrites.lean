import ShaderIR.Program.Builder
import ShaderIR.Proofs.Interp.Reached
import Mathlib.Data.Nat.Bitwise

/-!
Masked assignments. A write mask is a set of lanes: the letters that an assignment is built from say
which lanes of its variable are written, but their order is lost, and the value is laid out in the
order of the lanes (`Program.distributes_of_assignMasked`). Letters that stand in that order get
their own lanes of the value; others get those of each other (`Program.exchanges_of_assignMasked`).
-/

set_option autoImplicit false

namespace ShaderIR

/-! ### Lanes that a mask covers -/

namespace Lanes

theorem covers_eq_testBit (mask : UInt8) {place : Nat} (hplace : place < 8) :
    covers mask place = (mask == 0 || mask.toNat.testBit place) := by
  have hshift : ∀ place < 8, (1 <<< UInt8.ofNat place : UInt8).toNat = 2 ^ place := by decide
  have hand : (mask &&& 1 <<< UInt8.ofNat place != 0) = mask.toNat.testBit place := by
    rw [Bool.eq_iff_iff, bne_iff_ne, Ne, ← UInt8.toNat_inj, UInt8.toNat_and, hshift place hplace,
      Nat.and_two_pow]
    cases mask.toNat.testBit place <;> simp
  rw [covers, hand]

/-- A place that a value has lends its lane, also where a single lane stands for all. -/
theorem getElem?_eq_lane {lanes : Lanes} {place : Nat} (hplace : place < lanes.length) :
    lanes[place]? = some (lanes.lane place) := by
  match lanes, hplace with
  | [single], hplace =>
    obtain rfl : place = 0 := Nat.lt_one_iff.mp hplace
    rfl
  | first :: second :: rest, hplace =>
    rw [lane, List.getD_eq_getElem?_getD, List.getElem?_eq_getElem hplace, Option.getD_some]
    nofun

end Lanes

namespace Swizzle

variable (mask : Swizzle)

private theorem testBit_foldl_or (lanes : List (Fin 4)) (start : UInt8) (bit : Nat) :
    (lanes.foldl (fun mask lane => mask ||| 1 <<< UInt8.ofNat lane.val) start).toNat.testBit bit =
      (start.toNat.testBit bit || lanes.any fun lane => lane.val == bit) := by
  have hshift :
      ∀ lane : Fin 4, (1 <<< UInt8.ofNat lane.val : UInt8).toNat = 2 ^ lane.val := by decide
  induction lanes generalizing start with
  | nil => rw [List.foldl_nil, List.any_nil, Bool.or_false]
  | cons lane lanes ih =>
    rw [List.foldl_cons, ih, UInt8.toNat_or, Nat.testBit_or, hshift, Nat.testBit_two_pow,
      List.any_cons, Bool.or_assoc]
    rfl

theorem testBit_writeMask (bit : Nat) :
    mask.writeMask.toNat.testBit bit = mask.lanes.any fun lane => lane.val == bit := by
  rw [writeMask, testBit_foldl_or]
  simp

theorem writeMask_ne_zero : mask.writeMask ≠ 0 := by
  obtain ⟨lane, hlane⟩ := List.exists_mem_of_ne_nil _ mask.lanes_ne_nil
  intro hzero
  have hbit : mask.writeMask.toNat.testBit lane.val = true := by
    rw [testBit_writeMask, List.any_eq_true]
    exact ⟨lane, hlane, beq_self_eq_true _⟩
  rw [hzero, UInt8.toNat_zero, Nat.zero_testBit] at hbit
  cases hbit

/-- The write mask covers the lanes that the swizzle selects. -/
theorem covers_writeMask {place : Nat} (hplace : place < 8) :
    Lanes.covers mask.writeMask place = true ↔ ∃ lane ∈ mask.lanes, lane.val = place := by
  rw [Lanes.covers_eq_testBit _ hplace, beq_false_of_ne mask.writeMask_ne_zero, Bool.false_or,
    testBit_writeMask, List.any_eq_true]
  simp only [beq_iff_eq]

/-- How many selected lanes come before a lane. -/
def rank (place : Nat) : Nat :=
  (mask.lanes.filter fun lane => lane.val < place).length

variable {mask}

theorem rank_lt {lane : Fin 4} (hlane : lane ∈ mask.lanes) : mask.rank lane.val < mask.length := by
  rw [rank, length, List.length_filter_lt_length_iff_exists]
  exact ⟨lane, hlane, by simp⟩

/-- In a swizzle that selects its lanes in order, the rank of a lane is its position. -/
theorem rank_of_ascending (hascending : mask.lanes.Pairwise (· < ·)) {position : Nat}
    (hposition : position < mask.lanes.length) : mask.rank mask.lanes[position].val = position := by
  have hsplit : mask.lanes = mask.lanes.take position ++ mask.lanes[position] ::
      mask.lanes.drop (position + 1) := by
    rw [List.cons_getElem_drop_succ, List.take_append_drop]
  rw [hsplit, List.pairwise_append, List.pairwise_cons] at hascending
  obtain ⟨-, ⟨hbehind, -⟩, hbefore⟩ := hascending
  have htake : (mask.lanes.take position).filter (fun lane => lane.val < mask.lanes[position].val) =
      mask.lanes.take position := List.filter_eq_self.mpr fun lane hlane =>
      decide_eq_true (hbefore lane hlane _ List.mem_cons_self)
  have hdrop : (mask.lanes[position] :: mask.lanes.drop (position + 1)).filter
      (fun lane => lane.val < mask.lanes[position].val) = [] := by
    refine List.filter_eq_nil_iff.mpr fun lane hlane => ?_
    rcases List.mem_cons.mp hlane with rfl | hlane
    · simp
    · have := hbehind lane hlane
      simp only [decide_eq_true_eq]
      omega
  calc mask.rank mask.lanes[position].val
      = ((mask.lanes.take position ++ mask.lanes[position] :: mask.lanes.drop (position + 1)).filter
          fun lane => lane.val < mask.lanes[position].val).length := by rw [← hsplit]; rfl
    _ = position := by
      rw [List.filter_append, htake, hdrop, List.append_nil, List.length_take]
      omega

section Distinct

variable (hnodup : mask.lanes.Nodup)

include hnodup

theorem coveredBefore_writeMask {place : Nat} (hplace : place ≤ 8) :
    Lanes.coveredBefore mask.writeMask place = mask.rank place := by
  have hperm : ((List.range place).filter (Lanes.covers mask.writeMask)).Perm
      ((mask.lanes.filter fun lane => lane.val < place).map Fin.val) := by
    refine (List.perm_ext_iff_of_nodup (List.nodup_range.filter _)
      ((hnodup.filter _).map Fin.val_injective)).mpr fun found => ?_
    simp only [List.mem_filter, List.mem_range, List.mem_map, decide_eq_true_eq]
    constructor
    · rintro ⟨hlt, hcovers⟩
      obtain ⟨lane, hlane, rfl⟩ := (mask.covers_writeMask (by omega)).mp hcovers
      exact ⟨lane, ⟨hlane, hlt⟩, rfl⟩
    · rintro ⟨lane, ⟨hlane, hlt⟩, rfl⟩
      exact ⟨hlt, (mask.covers_writeMask (by omega)).mpr ⟨lane, hlane, rfl⟩⟩
  rw [Lanes.coveredBefore, hperm.length_eq, List.length_map, rank]

/-- A swizzle of as many lanes as a vector has selects all of them. -/
theorem exists_of_length_eq {width place : Nat} (hwithin : ∀ lane ∈ mask.lanes, lane.val < width)
    (hlength : mask.length = width) (hplace : place < width) :
    ∃ lane ∈ mask.lanes, lane.val = place := by
  have hsubset : mask.lanes.map Fin.val ⊆ List.range width := fun found hfound => by
    obtain ⟨lane, hlane, rfl⟩ := List.mem_map.mp hfound
    exact List.mem_range.mpr (hwithin lane hlane)
  have hperm := (List.subperm_of_subset (hnodup.map Fin.val_injective) hsubset).perm_of_length_le
    (by rw [List.length_range, List.length_map]; exact hlength.ge)
  obtain ⟨lane, hlane, hsame⟩ := List.mem_map.mp (hperm.mem_iff.mpr (List.mem_range.mpr hplace))
  exact ⟨lane, hlane, hsame⟩

/-- A selected lane gets the lane of the value at its rank, whether the value is laid out by
position or packed. -/
theorem source_eq {value : Lanes} {width : Nat} (hwithin : ∀ lane ∈ mask.lanes, lane.val < width)
    (hvalue : value.length = mask.length) {lane : Fin 4} (hlane : lane ∈ mask.lanes) :
    value[mask.rank lane.val]? =
      some (value.source width lane.val (Lanes.coveredBefore mask.writeMask lane.val)) := by
  have hlt : lane.val < width := hwithin lane hlane
  have hrank : mask.rank lane.val < value.length := hvalue ▸ rank_lt hlane
  by_cases hwhole : value.length = width
  · -- all lanes are written, so the rank of a lane is the lane itself
    have hcovered :
        (List.range lane.val).filter (Lanes.covers mask.writeMask) = List.range lane.val := by
      refine List.filter_eq_self.mpr fun place hplace => ?_
      have hplace := List.mem_range.mp hplace
      exact (mask.covers_writeMask (by omega)).mpr
        (exists_of_length_eq hnodup hwithin (hvalue ▸ hwhole) (by omega))
    have hself : mask.rank lane.val = lane.val := by
      rw [← coveredBefore_writeMask hnodup (by omega), Lanes.coveredBefore, hcovered,
        List.length_range]
    rw [hself] at hrank ⊢
    rw [Lanes.source, if_pos hwhole, List.getD_eq_getElem?_getD, List.getElem?_eq_getElem hrank,
      Option.getD_some]
  · rw [Lanes.source, if_neg hwhole, coveredBefore_writeMask hnodup (by omega),
      Lanes.getElem?_eq_lane hrank]

end Distinct

/-! ### Masked assignments -/

/-- What a variable holds after a value has been written to the selected lanes: these hold the lanes
of the value in order, and all others what they held before. -/
structure Distributes (mask : Swizzle) (value before after : Lanes) : Prop where
  length_eq : after.length = before.length
  selected : ∀ lane ∈ mask.lanes, lane.val < before.length →
    after[lane.val]? = value[mask.rank lane.val]?
  others : ∀ place, (∀ lane ∈ mask.lanes, lane.val ≠ place) → after[place]? = before[place]?

/-- If the lanes are selected in order then each of them holds the lane of the value at its own
position. -/
theorem Distributes.of_ascending {value before after : Lanes}
    (hdistributes : mask.Distributes value before after)
    (hascending : mask.lanes.Pairwise (· < ·)) {position : Nat} {lane : Fin 4}
    (hlane : mask.lanes[position]? = some lane) (hbefore : lane.val < before.length) :
    after[lane.val]? = value[position]? := by
  obtain ⟨hposition, rfl⟩ := List.getElem?_eq_some_iff.mp hlane
  rw [hdistributes.selected _ (List.getElem_mem _) hbefore, rank_of_ascending hascending hposition]

/-- The lanes that a mask has bits for stand at their own positions. -/
private theorem position_zero {place : Nat} (hplace : place < 8) :
    Lanes.position 0 place = place := by
  rw [Lanes.position_of_lt (by simp only [UInt64.size]; omega), Nat.zero_add]

theorem distributes_write {value slot : Lanes} {width : Nat}
    (hwidth : width ≤ 8) (hnodup : mask.lanes.Nodup)
    (hwithin : ∀ lane ∈ mask.lanes, lane.val < width) (hvalue : value.length = mask.length) :
    mask.Distributes value slot (slot.write 0 width mask.writeMask value) where
  length_eq := Lanes.length_write ..
  selected lane hlane hslot := by
    have hcovers := (mask.covers_writeMask (by omega : lane.val < 8)).mpr ⟨lane, hlane, rfl⟩
    have hposition := position_zero (by omega : lane.val < 8)
    have hwritten := Lanes.getElem?_write slot value (hwidth.trans (by decide))
      (hwithin lane hlane) hcovers (by rwa [hposition])
    rw [hposition] at hwritten
    rw [hwritten, source_eq hnodup hwithin hvalue hlane]
  others place hplace := by
    refine Lanes.getElem?_write_of_ne slot value fun written hlt hcovers hsame => ?_
    rw [position_zero (by omega)] at hsame
    obtain ⟨lane, hlane, hnamed⟩ := (mask.covers_writeMask (by omega)).mp hcovers
    exact hplace lane hlane (hnamed.trans hsame)

end Swizzle

namespace Program

variable {program : Program} {target : VarId}

/-- An assignment to a variable stores the value in it, all at once. -/
theorem answers_execute_of_assign {statement place value : NodeId} {mask : UInt8}
    {machine between : Machine} {lanes : Lanes} {declared : Variable}
    (hstatement : program.node statement = .ok (.assign place value mask))
    (hplace : program.node place = .ok (.variable target))
    (hdeclared : program.variableOf target = .ok declared)
    (hvalue : Walk.Answers (program.evaluate value) machine lanes between) :
    Walk.Answers (program.execute statement) machine (.through [])
      (between.stored program.vars ⟨target, 0, declared.ty⟩ lanes mask) := by
  have hresolved : Walk.Answers (program.place place) between ⟨target, 0, declared.ty⟩ between :=
    (answers_placeVia_of_variable hplace).mpr ⟨declared, hdeclared, rfl, rfl⟩
  have hmode : (between.stored program.vars ⟨target, 0, declared.ty⟩ lanes mask) =
      { between with
        slots := between.slots.setIfInBounds target.index
          ((between.slots.getD target.index []).write 0 declared.ty.flatLen mask lanes)
        trace.writes := if declared.mode = .temporary then between.trace.writes else (target,
            (between.slots.getD target.index []).write 0 declared.ty.flatLen mask lanes) ::
            between.trace.writes } := by
    simp only [Machine.stored, variableOf_eq_ok_iff.mp hdeclared, Option.map_some,
      Option.some.injEq]
  rw [execute, Walk.answers_liftCrash_bind hstatement, hmode]
  simp only [Walk.answers_bind, store, Walk.answers_liftCrash, Walk.answers_modify,
    Walk.answers_pure]
  exact ⟨lanes, between, hvalue, (), _,
    ⟨_, between, hresolved, declared, between, ⟨hdeclared, rfl⟩, rfl⟩, trivial, rfl⟩

/-- A masked assignment can be built from letters that name lanes, as long as there are ids for its
nodes. Where its right-hand side has as many lanes as there are letters, its execution distributes
them over the named lanes of the variable and changes nothing else; letters that stand in the order
of the lanes each get the lane of the value at their own position. A mask has eight bits, and
vectors have one to four lanes (`Ty.vectorOf`). -/
theorem distributes_of_assignMasked {scalar : Scalar} {width : UInt8} {letters : String}
    {mask : Swizzle} (hvar : program.varTy? target = some (.vector scalar width))
    (hwidth : width ≤ 8) (hletters : Swizzle.parse? letters = some mask) (hnodup : mask.lanes.Nodup)
    (hwithin : ∀ lane ∈ mask.lanes, lane.val < width.toNat) (value : NodeId) :
    (program.nodes.size + 2 ≤ UInt32.size →
      ∃ statement built, program.assignMasked target letters value = .ok (statement, built)) ∧
    ∀ statement built, program.assignMasked target letters value = .ok (statement, built) →
      ∀ machine lanes between, Walk.Answers (built.evaluate value) machine lanes between →
        lanes.length = mask.length → ∃ stop,
          Walk.Answers (built.execute statement) machine (.through []) stop ∧
          mask.Distributes lanes (machine.slots.getD target.index [])
            (stop.slots.getD target.index []) ∧
          (mask.lanes.Pairwise (· < ·) → ∀ (position : Nat) (lane : Fin 4),
            mask.lanes[position]? = some lane →
            lane.val < (machine.slots.getD target.index []).length →
            (stop.slots.getD target.index [])[lane.val]? = lanes[position]?) ∧
          ∀ other : VarId, other ≠ target →
            stop.slots[other.index]? = machine.slots[other.index]? := by
  obtain ⟨declared, hdeclared, hty⟩ := Option.map_eq_some_iff.mp hvar
  refine ⟨fun hroom => ?_, fun statement built hbuilt machine lanes between hvalue hlength => ?_⟩
  · rw [assignMasked, hletters]
    refine ⟨_, _, bind_eq_ok_iff.mpr ⟨_, addNode_eq_ok_iff.mpr ⟨by omega, rfl⟩,
      addNode_eq_ok_iff.mpr ⟨?_, rfl⟩⟩⟩
    rw [nodes_withNode, Array.size_push]
    omega
  rw [assignMasked, hletters] at hbuilt
  obtain ⟨place, hadded, hbuilt⟩ := bind_eq_ok_iff.mp hbuilt
  obtain ⟨-, rfl⟩ := addNode_eq_ok_iff.mp hadded
  obtain ⟨-, hsame⟩ := addNode_eq_ok_iff.mp hbuilt
  obtain ⟨rfl, hgrown⟩ := Prod.mk.inj hsame
  have hplace : built.node ⟨program.nodes.size⟩ = .ok (.variable target) := by
    rw [← hgrown, node_withNode_of_lt _ _ (by simp), node_withNode_self]
  have hstatement : built.node ⟨(program.withNode (.variable target)).nodes.size⟩ =
      .ok (.assign ⟨program.nodes.size⟩ value mask.writeMask) := by
    rw [← hgrown, node_withNode_self]
  have hvars : built.vars = program.vars := by rw [← hgrown]; rfl
  have hkeeps :
      Walk.Keeps (fun reached : Machine => reached.slots = machine.slots) (built.evaluate value) :=
    @keeps_evaluate _ _ (· = machine.slots)
  have hslots : between.slots = machine.slots := hkeeps.of_runFrom rfl hvalue
  have hwritten : (between.stored built.vars ⟨target, 0, declared.ty⟩ lanes mask.writeMask).slots =
      machine.slots.setIfInBounds target.index
        ((machine.slots.getD target.index []).write 0 width.toNat mask.writeMask lanes) := by
    rw [Machine.stored, hslots, hty, Ty.flatLen]
  have hstored : (machine.slots.setIfInBounds target.index
      ((machine.slots.getD target.index []).write 0 width.toNat mask.writeMask lanes)).getD
      target.index [] =
        (machine.slots.getD target.index []).write 0 width.toNat mask.writeMask lanes := by
    simp only [Array.getD_eq_getD_getElem?]
    by_cases hindex : target.index < machine.slots.size
    · rw [Array.getElem?_setIfInBounds_self_of_lt hindex, Option.getD_some]
    · rw [Array.setIfInBounds_eq_of_size_le (Nat.le_of_not_lt hindex),
        Array.getElem?_eq_none (Nat.le_of_not_lt hindex), Option.getD_none]
      exact (List.eq_nil_of_length_eq_zero (Lanes.length_write ..)).symm
  have hdistributes : mask.Distributes lanes (machine.slots.getD target.index [])
      ((between.stored built.vars ⟨target, 0, declared.ty⟩ lanes mask.writeMask).slots.getD
        target.index []) := by
    rw [hwritten, hstored]
    exact mask.distributes_write hwidth hnodup hwithin hlength
  refine ⟨_, answers_execute_of_assign hstatement hplace
    (variableOf_eq_ok_iff.mpr (hvars ▸ hdeclared)) hvalue, hdistributes,
    fun hascending position lane => hdistributes.of_ascending hascending, fun other hne => ?_⟩
  have hindex : target.index ≠ other.index :=
    fun hsame => hne (by cases other; cases target; cases hsame; rfl)
  rw [hwritten, Array.getElem?_setIfInBounds_ne hindex]

/-- A vector of four lanes and a value of two that can be assigned to two of them. -/
def pairForVector : Program where
  nodes := #[.constant ⟨.vector .float 2, [.float 0x41000000, .float 0x41100000]⟩]
  vars := #[⟨"v", .vec4, .auto⟩]

theorem distributes_of_assignMasked_pairForVector :
    pairForVector.varTy? ⟨0⟩ = some (.vector .float 4) ∧
    ∃ statement built stop, pairForVector.assignMasked ⟨0⟩ "yw" ⟨0⟩ = .ok (statement, built) ∧
      Walk.Answers (built.execute statement)
        (built.initial [(⟨0⟩, [1, 2, 3, 4])]) (.through []) stop ∧
      (stop.slots.getD 0 [])[1]? = some 8 ∧ (stop.slots.getD 0 [])[3]? = some 9 ∧
      (stop.slots.getD 0 [])[2]? = some 3 := by
  have hvar : pairForVector.varTy? ⟨0⟩ = some (.vector .float 4) := rfl
  have hletters : Swizzle.parse? "yw" = some ⟨[1, 3], by decide, by decide⟩ := rfl
  obtain ⟨hbuilds, hdistributes⟩ :=
    distributes_of_assignMasked hvar (by decide) hletters (by decide) (by decide) ⟨0⟩
  obtain ⟨statement, built, hbuilt⟩ := hbuilds (by decide)
  have hexecutes := hdistributes statement built hbuilt
  have hvalue : Walk.Answers (built.evaluate ⟨0⟩) (built.initial [(⟨0⟩, [1, 2, 3, 4])]) [8, 9]
      (built.initial [(⟨0⟩, [1, 2, 3, 4])]) := by
    cases hbuilt
    rfl
  have hslot : (built.initial [(⟨0⟩, [1, 2, 3, 4])]).slots.getD 0 [] = [1, 2, 3, 4] := by
    cases hbuilt
    rfl
  obtain ⟨stop, hstop, hdistributes, -⟩ := hexecutes _ _ _ hvalue rfl
  rw [hslot] at hdistributes
  exact ⟨hvar, statement, built, stop, hbuilt, hstop,
    hdistributes.selected 1 (by decide) (by decide),
    hdistributes.selected 3 (by decide) (by decide), hdistributes.others 2 (by decide)⟩

/-- The letters `wy` name the lanes of `yw`, and so they distribute a value in the same way: the
lane that is named first holds the second lane of the value. -/
theorem exchanges_of_assignMasked :
    ∃ mask statement built stop, Swizzle.parse? "wy" = some mask ∧ mask.lanes = [3, 1] ∧
    pairForVector.assignMasked ⟨0⟩ "wy" ⟨0⟩ = .ok (statement, built) ∧
    Walk.Answers (built.evaluate ⟨0⟩) (built.initial [(⟨0⟩, [1, 2, 3, 4])]) [8, 9]
      (built.initial [(⟨0⟩, [1, 2, 3, 4])]) ∧
    Walk.Answers (built.execute statement)
      (built.initial [(⟨0⟩, [1, 2, 3, 4])]) (.through []) stop ∧
    stop.slots = #[[1, 8, 3, 9]] ∧ (stop.slots.getD 0 [])[3]? ≠ ([8, 9] : Lanes)[0]? := by
  refine ⟨_, _, _, _, rfl, rfl, rfl, rfl, rfl, by decide, by decide⟩

end Program
end ShaderIR
