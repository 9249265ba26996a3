import ShaderIR.Proofs.Numbering.Clean

/-!
The table of keys and what variables hold while a block is numbered. The table only grows
(`Numberer.Advances`), no number is handed out for two keys (`Numberer.Keyed`), and a number that
has been handed out for none never gets one (`Numberer.Advances.unkeyed_fresh`). What variables hold
stays among known numbers if only such numbers are written (`Numberer.Knows`).
`NumbersStatements.advances` says that numbering statements is such a growth.
-/

set_option autoImplicit false

namespace ShaderIR

namespace Numberer

/-- A number that has been handed out for a key belongs to no other key. -/
structure Keyed (numberer : Numberer) : Prop where
  bounded : ∀ key number, (key, number) ∈ numberer.table →
    number.index < numberer.numbering.allocated
  injective : ∀ key key' number, (key, number) ∈ numberer.table → (key', number) ∈ numberer.table →
    key = key'

/-- Numbering has gone on: more numbers have been handed out, some of them for keys. -/
structure Advances (state stop : Numberer) : Prop where
  allocated_le : state.numbering.allocated ≤ stop.numbering.allocated
  table_subset : state.table ⊆ stop.table
  new : ∀ key number, (key, number) ∈ stop.table →
    (key, number) ∈ state.table ∨ state.numbering.allocated ≤ number.index
  occurrences_subset : state.numbering.occurrences ⊆ stop.numbering.occurrences
  keyed : state.Keyed → stop.Keyed

/-- A number that has been handed out, but not for a key. -/
def Unkeyed (numberer : Numberer) (number : ValueNumber) : Prop :=
  ∀ key, (key, number) ∉ numberer.table

/-- What variables hold is known. -/
def Knows (known : ValueNumber → Prop) (numberer : Numberer) : Prop :=
  ∀ id history, numberer.histories.lookup id = some history → ∀ number ∈ history, known number

/-- What holds of the number of a computation holds of those of its operands. -/
def Closed (numberer : Numberer) (property : ValueNumber → Prop) : Prop :=
  ∀ key number, (key, number) ∈ numberer.table → property number →
    ∀ value ∈ key.operands, ∀ operand ∈ value, property operand

variable {state between stop final : Numberer} {known : ValueNumber → Prop}

theorem keyed_nil : Keyed {} where
  bounded := by simp
  injective := by simp

/-- Stored numbers are tainted by a write to a part of a variable. -/
def taint (numberer : Numberer) (value : Value) : Numberer :=
  { numberer with numbering.partials := value ++ numberer.numbering.partials }

/-- A write to a part of a variable becomes the last one in its history. -/
def addLayer (numberer : Numberer) (id : VarId) (history : Value) : Numberer :=
  { numberer.fresh.2 with
    numbering.partials := numberer.fresh.1 :: numberer.numbering.partials
    histories := (id, history ++ [numberer.fresh.1]) :: numberer.histories }

theorem writePart_eq (numberer : Numberer) (id : VarId) (value : Value) :
    numberer.writePart id value =
      ((numberer.taint value).history id).2.addLayer id ((numberer.taint value).history id).1 :=
  rfl

/-- The writes to a variable are those so far, or a new number for what it held before the block. -/
theorem history_cases (state : Numberer) (id : VarId) :
    (∃ history, state.histories.lookup id = some history ∧ state.history id = (history, state)) ∨
      state.history id = ([state.fresh.1],
        { state.fresh.2 with histories := (id, [state.fresh.1]) :: state.histories }) := by
  unfold history
  split
  · next hlookup => exact Or.inl ⟨_, hlookup, rfl⟩
  · exact Or.inr rfl

namespace Advances

/-- A step that leaves the table alone. -/
theorem of_table (hallocated : state.numbering.allocated ≤ stop.numbering.allocated)
    (htable : stop.table = state.table)
    (hoccurrences : state.numbering.occurrences ⊆ stop.numbering.occurrences) :
    state.Advances stop where
  allocated_le := hallocated
  table_subset := htable ▸ List.Subset.refl _
  new _ _ hentry := Or.inl (htable ▸ hentry)
  occurrences_subset := hoccurrences
  keyed hkeyed :=
    ⟨fun key number hentry => (hkeyed.bounded key number (htable ▸ hentry)).trans_le hallocated,
    fun key key' number hentry hentry' => hkeyed.injective key key' number (htable ▸ hentry)
      (htable ▸ hentry')⟩

theorem refl (state : Numberer) : state.Advances state :=
  .of_table le_rfl rfl (List.Subset.refl _)

theorem trans (hfirst : state.Advances between) (hsecond : between.Advances stop) :
    state.Advances stop where
  allocated_le := hfirst.allocated_le.trans hsecond.allocated_le
  table_subset := List.Subset.trans hfirst.table_subset hsecond.table_subset
  new key number hentry := by
    rcases hsecond.new key number hentry with hold | hnew
    · exact hfirst.new key number hold
    · exact Or.inr (hfirst.allocated_le.trans hnew)
  occurrences_subset := List.Subset.trans hfirst.occurrences_subset hsecond.occurrences_subset
  keyed hkeyed := hsecond.keyed (hfirst.keyed hkeyed)

theorem fresh (state : Numberer) : state.Advances state.fresh.2 :=
  .of_table (Nat.le_succ _) rfl (List.Subset.refl _)

theorem setValue (state : Numberer) (id : NodeId) (value : Value) :
    state.Advances (state.setValue id value) :=
  .of_table le_rfl rfl (List.Subset.refl _)

theorem numberOf (state : Numberer) (key : Key) : state.Advances (state.numberOf key).2 := by
  rcases state.numberOf_cases key with ⟨_, -, hsame⟩ | ⟨-, hnew⟩
  · rw [hsame]
    exact .refl state
  rw [hnew]
  refine ⟨Nat.le_succ _, table_subset_withKey, fun key' number hentry => ?_, List.Subset.refl _,
    fun hkeyed => ⟨fun key' number hentry => ?_, fun key' key'' number hentry hentry' => ?_⟩⟩
  · rcases mem_table_withKey.mp hentry with ⟨rfl, rfl⟩ | hold
    · exact Or.inr le_rfl
    · exact Or.inl hold
  · rcases mem_table_withKey.mp hentry with ⟨rfl, rfl⟩ | hold
    · exact Nat.lt_succ_self _
    · exact (hkeyed.bounded key' number hold).trans (Nat.lt_succ_self _)
  · -- the new number is larger than all others
    have hlt {key : Key} (hold : (key, state.fresh.1) ∈ state.table) : False :=
      Nat.lt_irrefl _ (hkeyed.bounded key _ hold)
    rcases mem_table_withKey.mp hentry with ⟨rfl, rfl⟩ | hold <;>
      rcases mem_table_withKey.mp hentry' with ⟨rfl, hsame⟩ | hold'
    · rfl
    · exact (hlt hold').elim
    · exact (hlt (hsame ▸ hold)).elim
    · exact hkeyed.injective key' key'' number hold hold'

theorem noted (state : Numberer) (eligible : NodeKinds) (tree : Tree) (number : ValueNumber) :
    state.Advances (state.noted eligible tree number) := by
  unfold Numberer.noted
  refine Advances.trans ?_ (setValue _ _ _)
  split
  · exact .of_table le_rfl rfl (List.subset_append_left _ _)
  · exact .refl state

theorem history (state : Numberer) (id : VarId) : state.Advances (state.history id).2 := by
  unfold Numberer.history
  split
  · exact .refl state
  · exact (fresh state).trans (.of_table le_rfl rfl (List.Subset.refl _))

theorem read (state : Numberer) (id : VarId) : state.Advances (state.read id).2 :=
  history state id

theorem taint (state : Numberer) (value : Value) : state.Advances (state.taint value) :=
  .of_table le_rfl rfl (List.Subset.refl _)

theorem addLayer (state : Numberer) (id : VarId) (history : Value) :
    state.fresh.2.Advances (state.addLayer id history) :=
  .of_table le_rfl rfl (List.Subset.refl _)

theorem write (state : Numberer) (part : Bool) (root : VarId) (value : Value) :
    state.Advances (state.write part root value) := by
  unfold Numberer.write
  split
  · rw [writePart_eq]
    exact ((taint state value).trans (history _ root)).trans ((fresh _).trans (addLayer _ root _))
  · exact .of_table le_rfl rfl (List.Subset.refl _)

/-- A number that is handed out for no key never belongs to one. -/
theorem unkeyed_fresh (hadvances : state.fresh.2.Advances final) (hkeyed : state.Keyed) :
    final.Unkeyed state.fresh.1 := by
  intro key hentry
  rcases hadvances.new key _ hentry with hold | hnew
  · exact Nat.lt_irrefl _ (hkeyed.bounded key _ hold)
  · exact Nat.lt_irrefl _ hnew

end Advances

@[simp] theorem occurrences_write (state : Numberer) (part : Bool) (root : VarId) (value : Value) :
    (state.write part root value).numbering.occurrences = state.numbering.occurrences := by
  unfold write
  split <;> simp

/-- The number of a key stands in the table. -/
theorem numberOf_mem (state : Numberer) (key : Key) :
    (key, (state.numberOf key).1) ∈ (state.numberOf key).2.table := by
  rcases state.numberOf_cases key with ⟨_, hentry, hsame⟩ | ⟨-, hnew⟩
  · rwa [hsame]
  · rw [hnew]
    exact mem_table_withKey.mpr (Or.inl ⟨rfl, rfl⟩)

/-! ### What variables hold -/

theorem knows_nil (known : ValueNumber → Prop) : Knows known {} :=
  nofun

theorem Knows.mono {known' : ValueNumber → Prop} (hknows : state.Knows known)
    (hmono : ∀ number, known number → known' number) : state.Knows known' :=
  fun id history hlookup number hmem => hmono number (hknows id history hlookup number hmem)

/-- One more variable is known. -/
theorem Knows.cons (hknows : state.Knows known) {id : VarId} {history : Value}
    (hhistory : ∀ number ∈ history, known number)
    (hstop : stop.histories = (id, history) :: state.histories) :
    stop.Knows known := by
  intro other found hlookup number hmem
  rw [hstop, List.lookup_cons] at hlookup
  split at hlookup
  · obtain rfl := Option.some.inj hlookup
    exact hhistory number hmem
  · exact hknows other found hlookup number hmem

@[simp] theorem histories_numberOf (state : Numberer) (key : Key) :
    (state.numberOf key).2.histories = state.histories := by
  unfold numberOf
  split <;> rfl

@[simp] theorem histories_noted (state : Numberer)
    (eligible : NodeKinds) (tree : Tree) (number : ValueNumber) :
    (state.noted eligible tree number).histories = state.histories := by
  unfold noted
  split <;> rfl

theorem Knows.of_eq (hknows : state.Knows known) (hstop : stop.histories = state.histories) :
    stop.Knows known := by
  unfold Knows
  rwa [hstop]

section

variable (hknows : state.Knows known) (hkeyed : state.Keyed)
  (hfresh : ∀ number, final.Unkeyed number → known number)

include hknows hkeyed hfresh

theorem Knows.history {id : VarId} (hadvances : (state.history id).2.Advances final) :
    (∀ number ∈ (state.history id).1, known number) ∧ (state.history id).2.Knows known := by
  rcases state.history_cases id with ⟨history, hlookup, hhistory⟩ | hhistory
  · rw [hhistory]
    exact ⟨hknows id history hlookup, hknows⟩
  · rw [hhistory] at hadvances ⊢
    have hstored : state.fresh.2.Advances
        { state.fresh.2 with histories := (id, [state.fresh.1]) :: state.histories } :=
      .of_table le_rfl rfl (List.Subset.refl _)
    have hentry : ∀ number ∈ [state.fresh.1], known number := List.forall_mem_singleton.mpr
        (hfresh _ (Advances.unkeyed_fresh (hstored.trans hadvances) hkeyed))
    exact ⟨hentry, hknows.cons hentry rfl⟩

/-- What a variable reads as is known. -/
theorem Knows.read {id : VarId} (hadvances : (state.read id).2.Advances final) :
    (∀ number ∈ (state.read id).1, known number) ∧ (state.read id).2.Knows known := by
  obtain ⟨hhistory, hread⟩ := hknows.history hkeyed hfresh hadvances
  exact ⟨fun number hmem => hhistory number (List.mem_of_mem_drop hmem), hread⟩

/-- A variable is written with something known. -/
theorem Knows.write {part : Bool} {root : VarId} {value : Value}
    (hadvances : (state.write part root value).Advances final)
    (hvalue : ∀ number ∈ value, known number) : (state.write part root value).Knows known := by
  unfold Numberer.write at hadvances ⊢
  cases part with
  | true =>
    rw [if_pos rfl, writePart_eq] at hadvances ⊢
    have hkeyed' := (Advances.taint state value).keyed hkeyed
    have hknows' : (state.taint value).Knows known := hknows.of_eq rfl
    have hrest := (Advances.addLayer _ root _).trans hadvances
    obtain ⟨hhistory, hheld⟩ := hknows'.history hkeyed' hfresh ((Advances.fresh _).trans hrest)
    refine hheld.cons (fun number hmem => ?_) rfl
    rcases List.mem_append.mp hmem with hold | hnew
    · exact hhistory number hold
    · obtain rfl := List.mem_singleton.mp hnew
      exact hfresh _ (Advances.unkeyed_fresh hrest ((Advances.history _ root).keyed hkeyed'))
  | false =>
    refine hknows.cons (fun number hmem => ?_) rfl
    rcases List.mem_append.mp hmem with hold | hnew
    · cases hlookup : state.histories.lookup root with
      | none =>
        rw [hlookup] at hold
        cases hold
      | some history =>
        rw [hlookup] at hold
        exact hknows root history hlookup number hold
    · exact hvalue number hnew

end

end Numberer

/-! ### Steps of numbering -/

section Steps

variable {program : Program} {eligible : NodeKinds} {state stop : Numberer} {trees : List Tree}
  {values : List Value}

theorem Numbers.advances (hnumbers : Numbers eligible state trees values stop) :
    state.Advances stop := by
  induction hnumbers with
  | nil => exact .refl _
  | read _ ih => exact ((Numberer.Advances.read _ _).trans (.setValue _ _ _)).trans ih
  | compute key _ _ _ _ ih ih' =>
    exact ih.trans (((Numberer.Advances.numberOf _ key).trans (.noted _ _ _ _)).trans ih')

theorem Overwrites.advances (hwrites : Overwrites program eligible state trees stop) :
    state.Advances stop := by
  induction hwrites with
  | nil => exact .refl _
  | cons hindices _ _ _ ih =>
    exact ((Numberer.Advances.fresh _).trans hindices.advances).trans
      ((Numberer.Advances.write _ _ _ _).trans ih)

theorem NumbersStatement.advances {statement : Tree}
    (hnumbers : NumbersStatement program eligible state statement stop) :
    state.Advances stop := by
  cases hnumbers with
  | assign hvalue hindices => exact (hvalue.advances.trans hindices.advances).trans (.write _ _ _ _)
  | stored _ _ harguments hindices =>
    exact (((harguments.advances.trans (.numberOf _ _)).trans (.noted _ _ _ _)).trans
      hindices.advances).trans (.write _ _ _ _)
  | dropped _ _ harguments =>
    exact (harguments.advances.trans (.numberOf _ _)).trans (.setValue _ _ _)
  | effectful _ _ hinputs hwritten hresult =>
    exact ((hinputs.advances.trans hwritten.advances).trans ((Numberer.Advances.fresh _).trans
      (.setValue _ _ _))).trans hresult.advances
  | operands _ hoperands => exact hoperands.advances

theorem NumbersStatements.advances
    (hnumbers : NumbersStatements program eligible state trees stop) :
    state.Advances stop := by
  induction hnumbers with
  | nil => exact .refl _
  | cons hfirst _ ih => exact hfirst.advances.trans ih

end Steps

end ShaderIR
