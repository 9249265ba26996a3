import ShaderIR.Numbering.Block
import ShaderIR.Proofs.Crashes
import ShaderIR.Proofs.Node.Children
import ShaderIR.Proofs.Outcomes

/-!
What numbering keeps: the tables of computations and the count of numbers. `Numberer.table` lists
the entries of all tables under their keys, so that a table for each kind of computation is one
table of keys. The key of a texture operation has a byte that says which operands there are; nothing
is lost in it (`TextureOperands.unpacked_packedShape`), so that equal keys belong to equal operands
in the same slots (`TextureOperands.map_eq_map_iff`).

`NumberingWalk.handOut` takes a step that may hand out numbers. A new number comes from an allocator
of ids (`NumberingWalk.runFrom_handOut_fresh`), which can only fail if it has none left.
-/

set_option autoImplicit false

namespace ShaderIR

/-! ### Operands of texture operations -/

/-- The kind of a level of detail that a number stands for. -/
def Lod.ofCode : UInt8 → Lod Unit
  | 0 => .implicit
  | 1 => .bias ()
  | 2 => .level ()
  | 3 => .gradient () ()
  | _ => .sample ()

namespace Lod

variable {α β : Type}

/-- Every operand is replaced. -/
def map (f : α → β) : Lod α → Lod β
  | .implicit => .implicit
  | .bias amount => .bias (f amount)
  | .level value => .level (f value)
  | .gradient dx dy => .gradient (f dx) (f dy)
  | .sample index => .sample (f index)

@[simp] theorem toList_map (f : α → β) (lod : Lod α) : (lod.map f).toList = lod.toList.map f := by
  cases lod <;> rfl

@[simp] theorem code_map (f : α → β) (lod : Lod α) : (lod.map f).code = lod.code := by
  cases lod <;> rfl

end Lod

namespace TextureOperands

variable {α β : Type}

/-- Which operands a byte says that there are. -/
def unpacked (bits : UInt8) : TextureOperands Unit :=
  let present (place : UInt8) : Option Unit := if bits &&& 1 <<< place != 0 then some () else none
  { sampler := (), coordinate := present 0, projector := present 1, comparator := present 2
    offset := present 3, samplerState := present 4, lod := .ofCode (bits >>> 5) }

/-- The byte does not depend on which nodes the operands are. -/
theorem packedShape_shape (operands : TextureOperands α) :
    operands.shape.packedShape = operands.packedShape := by
  obtain ⟨sampler, coordinate, projector, comparator, offset, lod, samplerState⟩ := operands
  cases lod <;> simp [packedShape, shape, Lod.shape, Lod.code]

/-- The bits of the five operands that may be absent and the three bits above them do not
overlap. -/
theorem unpacked_packedShape (operands : TextureOperands α) :
    unpacked operands.packedShape = operands.shape := by
  have hunit : ∀ shape : TextureOperands Unit, unpacked shape.packedShape = shape := by
    rintro ⟨⟨⟩, _ | ⟨⟨⟩⟩, _ | ⟨⟨⟩⟩, _ | ⟨⟨⟩⟩, _ | ⟨⟨⟩⟩, _ | ⟨⟨⟩⟩ | ⟨⟨⟩⟩ | ⟨⟨⟩, ⟨⟩⟩ | ⟨⟨⟩⟩,
      _ | ⟨⟨⟩⟩⟩ <;> rfl
  rw [← packedShape_shape, hunit]

/-- Operands with the same byte stand in the same slots. -/
theorem shape_eq_of_packedShape {left : TextureOperands α} {right : TextureOperands β}
    (hpacked : left.packedShape = right.packedShape) : left.shape = right.shape := by
  rw [← unpacked_packedShape left, hpacked, unpacked_packedShape]

theorem packedShape_eq_of_shape {left : TextureOperands α} {right : TextureOperands β}
    (hshape : left.shape = right.shape) : left.packedShape = right.packedShape := by
  rw [← packedShape_shape left, hshape, packedShape_shape]

/-- Every operand is replaced in its slot. -/
def map (f : α → β) (operands : TextureOperands α) : TextureOperands β where
  sampler := f operands.sampler
  coordinate := operands.coordinate.map f
  projector := operands.projector.map f
  comparator := operands.comparator.map f
  offset := operands.offset.map f
  lod := operands.lod.map f
  samplerState := operands.samplerState.map f

@[simp] theorem toList_map (f : α → β) (operands : TextureOperands α) :
    (operands.map f).toList = operands.toList.map f := by
  simp only [toList, map, List.map_cons, List.map_append, Option.toList_map, Lod.toList_map]

@[simp] theorem packedShape_map (f : α → β) (operands : TextureOperands α) :
    (operands.map f).packedShape = operands.packedShape := by
  simp only [packedShape, map, Option.isSome_map, Lod.code_map, List.zipIdx_cons, List.zipIdx_nil,
    List.foldl_cons, List.foldl_nil]

/-- The byte and the operands in canonical order say what stands in every slot. -/
theorem map_eq_map_iff {γ : Type} {f : α → γ} {g : β → γ} {left : TextureOperands α}
    {right : TextureOperands β} : left.map f = right.map g ↔
      left.packedShape = right.packedShape ∧ left.toList.map f = right.toList.map g := by
  rw [← packedShape_map f, ← packedShape_map g, ← toList_map, ← toList_map]
  exact ⟨fun hsame => hsame ▸ ⟨rfl, rfl⟩,
    fun ⟨hpacked, hlist⟩ => eq_of_shape (shape_eq_of_packedShape hpacked) hlist⟩

end TextureOperands

/-! ### Tables -/

namespace MemoTables

variable {tables : MemoTables} {number number' : ValueNumber} {key key' : Key}

/-- The entries of all tables. -/
def entries (tables : MemoTables) : List (Key × ValueNumber) :=
  tables.constants.map (Prod.map Key.constant id) ++
    tables.arrays.map (Prod.map (fun parts => Key.index parts.1 parts.2) id) ++
    tables.records.map (Prod.map (fun parts => Key.field parts.1 parts.2) id) ++
    tables.swizzles.map (Prod.map (fun parts => Key.swizzle parts.1 parts.2) id) ++
    tables.expressions.map (Prod.map (fun parts => Key.apply parts.1 parts.2) id) ++
    tables.textures.map (Prod.map Key.texture id) ++
    tables.calls.map (Prod.map (fun parts => Key.call parts.1 parts.2) id)

/-- The entries of a key are those of its table. -/
theorem mem_entries_iff : (key, number) ∈ tables.entries ↔ match key with
    | .constant value => (value, number) ∈ tables.constants
    | .index base place => ((base, place), number) ∈ tables.arrays
    | .field record field => ((record, field), number) ∈ tables.records
    | .swizzle value mask => ((value, mask), number) ∈ tables.swizzles
    | .apply op operands => ((op, operands), number) ∈ tables.expressions
    | .texture key => (key, number) ∈ tables.textures
    | .call callee arguments => ((callee, arguments), number) ∈ tables.calls := by
  cases key <;> simp [entries]

theorem mem_entries_insert : (key', number') ∈ (tables.insert number key).entries ↔
    key' = key ∧ number' = number ∨ (key', number') ∈ tables.entries := by
  rw [mem_entries_iff, mem_entries_iff]
  cases key <;> cases key' <;> simp [insert]

theorem mem_entries_of_lookup (hlookup : tables.lookup key = some number) :
    (key, number) ∈ tables.entries := by
  rw [mem_entries_iff]
  cases key <;> obtain ⟨before, after, htable, -⟩ := List.lookup_eq_some_iff.mp hlookup <;>
    simp [htable]

theorem not_mem_entries_of_lookup (hlookup : tables.lookup key = none) :
    (key, number) ∉ tables.entries := by
  rw [mem_entries_iff]
  cases key <;> exact fun hentry => by simpa using List.lookup_eq_none_iff.mp hlookup _ hentry

end MemoTables

namespace Numberer

variable {numberer : Numberer} {key : Key} {number : ValueNumber}

/-- The computations that have numbers, with their keys. -/
def table (numberer : Numberer) : List (Key × ValueNumber) :=
  numberer.tables.entries

@[simp] theorem table_empty : table {} = [] :=
  rfl

/-- The numberer after a new number for a key. -/
def withKey (numberer : Numberer) (key : Key) : Numberer :=
  { numberer.fresh.2 with tables := numberer.tables.insert numberer.fresh.1 key }

@[simp] theorem mem_table_withKey {key' : Key} : (key', number) ∈ (numberer.withKey key).table ↔
    key' = key ∧ number = numberer.fresh.1 ∨ (key', number) ∈ numberer.table :=
  MemoTables.mem_entries_insert

theorem table_subset_withKey : numberer.table ⊆ (numberer.withKey key).table :=
  fun _ hentry => mem_table_withKey.mpr (Or.inr hentry)

/-- A key has a number in the table, or it gets a new one. -/
theorem numberOf_cases (numberer : Numberer) (key : Key) :
    (∃ number, (key, number) ∈ numberer.table ∧ numberer.numberOf key = (number, numberer)) ∨
      (∀ number, (key, number) ∉ numberer.table) ∧
        numberer.numberOf key = (numberer.fresh.1, numberer.withKey key) := by
  unfold numberOf
  cases hlookup : numberer.tables.lookup key with
  | some number => exact Or.inl ⟨number, MemoTables.mem_entries_of_lookup hlookup, rfl⟩
  | none => exact Or.inr ⟨fun _ => MemoTables.not_mem_entries_of_lookup hlookup, rfl⟩

end Numberer

/-! ### Handing out numbers -/

namespace NumberingWalk

variable {α : Type} {step : Numberer → α × Numberer} {start stop : Numberer}

theorem runFrom_handOut : (handOut step).runFrom start =
    if IdAllocator.last < (step start).2.numbering.allocated then .error .idsExhausted
    else .ok (.ok (step start).1, (step start).2) := by
  have hrun : (handOut step).runFrom start =
      Walk.runFrom (do
        if IdAllocator.last < (step start).2.numbering.allocated then throwThe Crash .idsExhausted
        set (step start).2
        return (step start).1 : NumberingWalk α) start := rfl
  rw [hrun]
  split <;> rfl

/-- A new number is the next id of an allocator that has handed out all numbers so far. -/
theorem runFrom_handOut_fresh : (handOut Numberer.fresh).runFrom start =
    (IdAllocator.allocate ⟨start.numbering.allocated⟩).map fun allocated =>
      (.ok ⟨allocated.1⟩, { start with numbering.allocated := allocated.2.next }) := by
  rw [runFrom_handOut]
  unfold IdAllocator.allocate Numberer.fresh IdAllocator.advanced
  dsimp only
  by_cases hleft : start.numbering.allocated < IdAllocator.last
  · rw [if_pos hleft, if_neg (by omega)]
    rfl
  · rw [if_neg hleft, if_pos (by omega)]
    rfl

@[simp] theorem answers_handOut {answer : α} : Walk.Answers (handOut step) start answer stop ↔
    step start = (answer, stop) ∧ stop.numbering.allocated ≤ IdAllocator.last := by
  unfold Walk.Answers
  rw [runFrom_handOut]
  split
  · next hlast =>
    refine iff_of_false nofun fun ⟨hstep, hle⟩ => ?_
    rw [hstep] at hlast
    exact Nat.not_lt.mpr hle hlast
  · next hlast =>
    rw [Except.ok.injEq, Prod.mk.injEq, Except.ok.injEq, ← Prod.mk.injEq]
    refine ⟨fun hstep => ⟨hstep, ?_⟩, And.left⟩
    obtain ⟨-, rfl⟩ := Prod.mk.inj hstep
    exact Nat.not_lt.mp hlast

@[simp] theorem ensures_handOut {good : α → Numberer → Prop}
    {bad : NumberingFault → Numberer → Prop} :
    Walk.Ensures (handOut step) start good bad ↔
      ((step start).2.numbering.allocated ≤ IdAllocator.last →
        good (step start).1 (step start).2) := by
  unfold Walk.Ensures
  rw [runFrom_handOut]
  by_cases hlast : IdAllocator.last < (step start).2.numbering.allocated
  · rw [if_pos hlast]
    exact iff_of_true trivial fun hle => absurd hlast (Nat.not_lt.mpr hle)
  · rw [if_neg hlast]
    exact ⟨fun hgood _ => hgood, fun hgood => hgood (Nat.not_lt.mp hlast)⟩

/-- Handing out numbers crashes only if they run out. -/
theorem returns_handOut {spared : Crash → Prop} (hspared : spared .idsExhausted) :
    Walk.ReturnsUnless (handOut step) start spared := by
  intro cause hcrash
  rw [runFrom_handOut] at hcrash
  split at hcrash
  · exact Except.error.inj hcrash ▸ hspared
  · cases hcrash

end NumberingWalk

end ShaderIR
