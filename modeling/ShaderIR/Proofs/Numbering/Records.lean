import ShaderIR.Proofs.Numbering.Symbols

/-!
Numbers as names of symbols. `Numberer.Records` says that the numbers handed out so far name
different symbols, that the table knows the number of every computation among them, and that a
ledger says the same of the block as the numberer does. Every step of numbering keeps this:
`Numbers.records` for operands, and `NumbersStatements.records` for the statements of a block. So
two nodes have the same number if and only if they are made of the same, and a block takes as many
numbers as its ledger lists symbols (`Numberer.Records.allocated_le`).
-/

set_option autoImplicit false

namespace ShaderIR

/-! ### Names -/

/-- The symbols that numbers name. -/
abbrev Naming :=
  ValueNumber → Option Symbol

namespace Naming

variable {naming naming' naming'' : Naming} {number other : ValueNumber} {symbol : Symbol}

/-- More numbers have names. -/
def Extends (naming' naming : Naming) : Prop :=
  ∀ number symbol, naming number = some symbol → naming' number = some symbol

theorem Extends.refl (naming : Naming) : naming.Extends naming :=
  fun _ _ => id

theorem Extends.trans (hfirst : naming'.Extends naming) (hsecond : naming''.Extends naming') :
    naming''.Extends naming :=
  fun number symbol hnamed => hsecond number symbol (hfirst number symbol hnamed)

/-- The numbers below a bound name different symbols. -/
structure Names (naming : Naming) (bound : Nat) : Prop where
  bounded : ∀ number symbol, naming number = some symbol → number.index < bound
  named : ∀ number : ValueNumber, number.index < bound → ∃ symbol, naming number = some symbol
  injective : ∀ number other symbol, naming number = some symbol → naming other = some symbol →
    number = other

/-- One more number has a name. -/
def give (naming : Naming) (number : ValueNumber) (symbol : Symbol) : Naming :=
  Function.update naming number (some symbol)

theorem give_self (naming : Naming) (number : ValueNumber) (symbol : Symbol) :
    naming.give number symbol number = some symbol :=
  Function.update_self ..

theorem eq_or_of_give {found : Symbol} (hnamed : naming.give number symbol other = some found) :
    other = number ∧ found = symbol ∨ naming other = some found := by
  by_cases hsame : other = number
  · subst hsame
    exact Or.inl ⟨rfl, Option.some.inj (hnamed.symm.trans (give_self ..))⟩
  · exact Or.inr ((Function.update_of_ne hsame ..).symm.trans hnamed)

theorem Names.extends_give {bound : Nat} (hnames : naming.Names bound) (symbol : Symbol) :
    (naming.give ⟨bound⟩ symbol).Extends naming := fun number found hnamed => by
  have hne : number ≠ ⟨bound⟩ := by
    rintro rfl
    exact absurd (hnames.bounded _ found hnamed) (Nat.lt_irrefl _)
  rw [give, Function.update_of_ne hne, hnamed]

theorem Names.give {bound : Nat} (hnames : naming.Names bound)
    (hnew : ∀ number, naming number ≠ some symbol) :
    (naming.give ⟨bound⟩ symbol).Names (bound + 1) where
  bounded number found hnamed := by
    rcases eq_or_of_give hnamed with ⟨rfl, -⟩ | hold
    · exact Nat.lt_succ_self bound
    · exact Nat.lt_succ_of_lt (hnames.bounded number found hold)
  named number hlt := by
    rcases Nat.lt_succ_iff_lt_or_eq.mp hlt with hold | hnew
    · obtain ⟨found, hnamed⟩ := hnames.named number hold
      exact ⟨found, hnames.extends_give symbol number found hnamed⟩
    · obtain rfl : number = ⟨bound⟩ := congrArg ValueNumber.mk hnew
      exact ⟨symbol, give_self ..⟩
  injective number other found hnamed hother := by
    rcases eq_or_of_give hnamed with ⟨rfl, rfl⟩ | hold <;> rcases eq_or_of_give hother
      with ⟨rfl, hsame⟩ | hold'
    · rfl
    · exact absurd hold' (hnew other)
    · exact absurd (hsame ▸ hold) (hnew number)
    · exact hnames.injective number other found hold hold'

end Naming

/-! ### Spelling -/

/-- The numbers of a value name symbols. -/
def Value.Spells (naming : Naming) (value : Value) (symbols : List Symbol) : Prop :=
  List.Forall₂ (fun number symbol => naming number = some symbol) value symbols

/-- The numbers of values name symbols. -/
def Value.SpellsAll (naming : Naming) (values : List Value) (symbols : List (List Symbol)) : Prop :=
  List.Forall₂ (Value.Spells naming) values symbols

namespace Value

variable {naming naming' : Naming} {value value' : Value} {symbols symbols' : List Symbol}
  {values values' : List Value} {rows rows' : List (List Symbol)}

theorem Spells.mono (hspells : value.Spells naming symbols) (hextends : naming'.Extends naming) :
    value.Spells naming' symbols :=
  hspells.imp fun number symbol => hextends number symbol

theorem SpellsAll.mono (hspells : SpellsAll naming values rows)
    (hextends : naming'.Extends naming) :
    SpellsAll naming' values rows :=
  hspells.imp fun _ _ hvalue => hvalue.mono hextends

theorem Spells.single {number : ValueNumber}
    {symbol : Symbol} (hnamed : naming number = some symbol) :
    Spells naming [number] [symbol] :=
  .cons hnamed .nil

theorem Spells.append (hspells : value.Spells naming symbols)
    (hmore : value'.Spells naming symbols') :
    (value ++ value').Spells naming (symbols ++ symbols') :=
  List.rel_append hspells hmore

theorem Spells.unique (hspells : value.Spells naming symbols)
    (hspells' : value.Spells naming symbols') :
    symbols = symbols' :=
  List.right_unique_forall₂'
    (fun _ _ _ hnamed hnamed' => Option.some.inj (hnamed.symm.trans hnamed')) hspells hspells'

theorem SpellsAll.unique (hspells : SpellsAll naming values rows)
    (hspells' : SpellsAll naming values rows') :
    rows = rows' :=
  List.right_unique_forall₂' (R := Spells naming) (fun _ _ _ => Spells.unique) hspells hspells'

variable {bound : Nat} (hnames : naming.Names bound)

include hnames

theorem eq_of_spells (hspells : value.Spells naming symbols)
    (hspells' : value'.Spells naming symbols) :
    value = value' :=
  List.left_unique_forall₂' (R := fun number symbol => naming number = some symbol)
    (fun number number' symbol => hnames.injective number number' symbol) hspells hspells'

theorem eq_of_spellsAll (hspells : SpellsAll naming values rows)
    (hspells' : SpellsAll naming values' rows) :
    values = values' :=
  List.left_unique_forall₂' (R := Spells naming) (fun _ _ _ => eq_of_spells hnames) hspells hspells'

end Value

/-! ### Records -/

/-- A ledger says of a block what a numberer knows in symbols: different numbers name different
ones. -/
structure Numberer.Records (naming : Naming) (ledger : Ledger) (numberer : Numberer) : Prop where
  names : naming.Names numberer.numbering.allocated
  table : ∀ key number, (key, number) ∈ numberer.table → ∃ operands,
    Value.SpellsAll naming key.operands operands ∧
    naming number = some (.computed key.head operands)
  computed : ∀ number head operands, naming number = some (.computed head operands) →
    ∃ key, (key, number) ∈ numberer.table
  lists : ∀ symbol, (∃ number, naming number = some symbol) ↔ ledger.Lists symbol
  histories : ∀ id ∈ ledger.touched, ∃ history,
    numberer.histories.lookup id = some history ∧ history ≠ [] ∧
    history.Spells naming (ledger.history id)
  untouched : ∀ id ∉ ledger.touched, numberer.histories.lookup id = none ∧
    ledger.history id = [.entry id]
  partials : Value.Spells naming numberer.numbering.partials ledger.partials
  occurrences : ∀ occurrence ∈ numberer.numbering.occurrences, ∃ symbol,
    naming occurrence.2 = some symbol
  noted : ∀ note, note ∈ ledger.noted ↔
    ∃ number, (note.1, number) ∈ numberer.numbering.occurrences ∧ naming number = some note.2

namespace Numberer

theorem records_nil : Records (fun _ => none) {} {} where
  names := ⟨by simp, by simp, by simp⟩
  table := by simp
  computed := by simp
  lists symbol := by cases symbol <;> simp [Ledger.Lists]
  histories := by simp
  untouched := by simp
  partials := .nil
  occurrences := by simp
  noted := by simp

namespace Records

variable {naming : Naming} {ledger : Ledger} {numberer : Numberer}
  (hrecords : numberer.Records naming ledger)

include hrecords

/-- A number counts as partial just when its symbol does. -/
theorem isPartial_iff {number : ValueNumber}
    {symbol : Symbol} (hnamed : naming number = some symbol) :
    numberer.numbering.isPartial number = true ↔ symbol ∈ ledger.partials := by
  rw [Numbering.isPartial, List.contains_iff_mem]
  constructor
  · intro hmem
    obtain ⟨found, hfound, hsame⟩ := exists_of_forall₂ hrecords.partials hmem
    exact Option.some.inj (hnamed.symm.trans hsame) ▸ hfound
  · intro hmem
    obtain ⟨found, hfound, hsame⟩ := exists_of_forall₂ hrecords.partials.flip hmem
    exact hrecords.names.injective _ _ _ hnamed hsame ▸ hfound

omit hrecords in
private theorem length_takeWhile_eq {naming : Naming} {value : Value} {symbols : List Symbol}
    {isPartial : ValueNumber → Bool} {partials : Symbol → Bool}
    (hspells : value.Spells naming symbols)
    (hsame : ∀ number symbol, naming number = some symbol → isPartial number = partials symbol) :
    (value.takeWhile isPartial).length = (symbols.takeWhile partials).length := by
  induction hspells with
  | nil => rfl
  | @cons number symbol value symbols hnamed _ ih =>
    rw [List.takeWhile_cons, List.takeWhile_cons, hsame number symbol hnamed]
    split
    · rw [List.length_cons, List.length_cons, ih]
    · rfl

/-- The last full write and all partial ones after it. -/
theorem latest {history : Value} {symbols : List Symbol} (hspells : history.Spells naming symbols) :
    Value.Spells naming (Numberer.latest numberer.numbering.isPartial history)
      (Symbol.latest ledger.partials symbols) := by
  classical
  have hlength : (history.reverse.takeWhile numberer.numbering.isPartial).length =
      (symbols.reverse.takeWhile fun symbol => decide (symbol ∈ ledger.partials)).length :=
    length_takeWhile_eq (List.rel_reverse hspells) fun number symbol hnamed =>
      Bool.eq_iff_iff.mpr ((hrecords.isPartial_iff hnamed).trans (by simp))
  unfold Numberer.latest Symbol.latest
  rw [hlength, hspells.length_eq]
  exact List.forall₂_drop _ hspells

/-! ### Steps -/

theorem setValue (id : NodeId) (value : Value) :
    (numberer.setValue id value).Records naming ledger :=
  ⟨hrecords.names, hrecords.table, hrecords.computed, hrecords.lists, hrecords.histories,
    hrecords.untouched, hrecords.partials, hrecords.occurrences, hrecords.noted⟩

/-- A symbol that has not come up yet has no number. -/
theorem ne_of_not_lists {symbol : Symbol} (hnew : ¬ ledger.Lists symbol) (number : ValueNumber) :
    naming number ≠ some symbol :=
  fun hnamed => hnew ((hrecords.lists symbol).mp ⟨number, hnamed⟩)

/-- When the next number gets a name, one more symbol has come up. -/
theorem lists_give {ledger' : Ledger} {symbol : Symbol}
    (hlists : ∀ found, ledger'.Lists found ↔ found = symbol ∨ ledger.Lists found) (found : Symbol) :
    (∃ number, naming.give numberer.fresh.1 symbol number = some found) ↔ ledger'.Lists found := by
  rw [hlists, ← hrecords.lists]
  constructor
  · rintro ⟨number, hnamed⟩
    exact (Naming.eq_or_of_give hnamed).imp And.right fun hold => ⟨number, hold⟩
  · rintro (rfl | ⟨number, hold⟩)
    · exact ⟨_, Naming.give_self ..⟩
    · exact ⟨number, hrecords.names.extends_give symbol number found hold⟩

/-- A number that is no computation does not need a key. -/
theorem computed_give {symbol : Symbol}
    (hsymbol : ∀ head operands, symbol ≠ .computed head operands)
    (number : ValueNumber) (head : Head) (operands : List (List Symbol))
    (hnamed : naming.give numberer.fresh.1 symbol number = some (.computed head operands)) :
    ∃ key, (key, number) ∈ numberer.table := by
  rcases Naming.eq_or_of_give hnamed with ⟨-, hsame⟩ | hold
  · exact absurd hsame.symm (hsymbol head operands)
  · exact hrecords.computed number head operands hold

/-- What has been noted has not changed when the next number gets a name. -/
theorem noted_give (symbol : Symbol) (note : NodeId × Symbol) : note ∈ ledger.noted ↔
    ∃ number, (note.1, number) ∈ numberer.numbering.occurrences ∧
      naming.give numberer.fresh.1 symbol number = some note.2 := by
  have hextends := hrecords.names.extends_give symbol
  rw [hrecords.noted]
  refine exists_congr fun number => and_congr_right fun hmem =>
    ⟨hextends number note.2, fun hnamed => ?_⟩
  obtain ⟨found, hfound⟩ := hrecords.occurrences _ hmem
  exact Option.some.inj ((hextends number found hfound).symm.trans hnamed) ▸ hfound

theorem occurrences_give (symbol : Symbol) : ∀ occurrence ∈ numberer.numbering.occurrences, ∃ found,
    naming.give numberer.fresh.1 symbol occurrence.2 = some found := fun occurrence hmem => by
  obtain ⟨found, hfound⟩ := hrecords.occurrences occurrence hmem
  exact ⟨found, hrecords.names.extends_give symbol _ found hfound⟩

theorem table_give (symbol : Symbol) (key : Key)
    (number : ValueNumber) (hentry : (key, number) ∈ numberer.table) :
    ∃ operands, Value.SpellsAll (naming.give numberer.fresh.1 symbol) key.operands operands ∧
      naming.give numberer.fresh.1 symbol number = some (.computed key.head operands) := by
  have hextends := hrecords.names.extends_give symbol
  obtain ⟨operands, hspells, hnamed⟩ := hrecords.table key number hentry
  exact ⟨operands, hspells.mono hextends, hextends number _ hnamed⟩

theorem histories_give (symbol : Symbol) (id : VarId) (htouched : id ∈ ledger.touched) :
    ∃ history, numberer.histories.lookup id = some history ∧ history ≠ [] ∧
      history.Spells (naming.give numberer.fresh.1 symbol) (ledger.history id) := by
  obtain ⟨history, hlookup, hne, hspells⟩ := hrecords.histories id htouched
  exact ⟨history, hlookup, hne, hspells.mono (hrecords.names.extends_give symbol)⟩

/-- The next number stands for a value that a write has made. -/
theorem give_made : numberer.fresh.2.Records (naming.give numberer.fresh.1 (.made ledger.made))
    ledger.make := by
  have hextends := hrecords.names.extends_give (.made ledger.made)
  refine ⟨hrecords.names.give (hrecords.ne_of_not_lists (Nat.lt_irrefl _)), hrecords.table_give _,
    hrecords.computed_give (by simp),
    hrecords.lists_give fun found => ?_, hrecords.histories_give _,
    hrecords.untouched, hrecords.partials.mono hextends, hrecords.occurrences_give _,
    hrecords.noted_give _⟩
  cases found with
  | made event =>
    rw [Symbol.made.injEq]
    exact Nat.lt_succ_iff_lt_or_eq.trans or_comm
  | _ => simp [Ledger.Lists, Ledger.make]

/-- Computations of the same from the same have the same number. -/
theorem numberOf (key : Key) {operands : List (List Symbol)}
    (hspells : Value.SpellsAll naming key.operands operands) :
    ∃ naming' : Naming, naming'.Extends naming ∧
      (numberer.numberOf key).2.Records naming' (ledger.noting ∅ {.computed key.head operands}) ∧
      naming' (numberer.numberOf key).1 = some (.computed key.head operands) := by
  obtain ⟨number, hentry, hknows⟩ | ⟨hunknown, hfresh⟩ := numberer.numberOf_cases key
  · rw [hknows]
    obtain ⟨operands', hspells', hnamed⟩ := hrecords.table key number hentry
    obtain rfl := hspells.unique hspells'
    rw [Ledger.noting_computed ((hrecords.lists _).mp ⟨number, hnamed⟩)]
    exact ⟨naming, .refl naming, hrecords, hnamed⟩
  · rw [hfresh]
    have hextends := hrecords.names.extends_give (.computed key.head operands)
    refine ⟨_, hextends, ?_, Naming.give_self ..⟩
    -- a number with this symbol would belong to this key
    have hnew : ∀ number, naming number ≠ some (.computed key.head operands) :=
      fun number hnamed => by
        obtain ⟨key', hentry⟩ := hrecords.computed number _ _ hnamed
        obtain ⟨operands', hspells', hnamed'⟩ := hrecords.table key' number hentry
        obtain ⟨hhead, rfl⟩ := Symbol.computed.inj (Option.some.inj (hnamed.symm.trans hnamed'))
        obtain rfl := Key.eq_of_head hhead (Value.eq_of_spellsAll hrecords.names hspells hspells')
        exact hunknown _ hentry
    refine ⟨hrecords.names.give hnew, ?_, ?_, hrecords.lists_give fun found => ?_,
      hrecords.histories_give _, hrecords.untouched, hrecords.partials.mono hextends,
      hrecords.occurrences_give _, by
          rw [Ledger.noting, Set.union_empty]; exact hrecords.noted_give _⟩
    · intro key' number hentry
      obtain ⟨rfl, rfl⟩ | hold := mem_table_withKey.mp hentry
      · exact ⟨operands, hspells.mono hextends, Naming.give_self ..⟩
      · exact hrecords.table_give _ key' number hold
    · intro number head operands' hnamed
      rcases Naming.eq_or_of_give hnamed with ⟨rfl, -⟩ | hold
      · exact ⟨key, mem_table_withKey.mpr (Or.inl ⟨rfl, rfl⟩)⟩
      · obtain ⟨key', hentry⟩ := hrecords.computed number head operands' hold
        exact ⟨key', table_subset_withKey hentry⟩
    · cases found with
      | computed head operands' => exact or_comm
      | _ => simp [Ledger.Lists, Ledger.noting]

/-- A node is noted with its number if those of its kind may be shared. -/
theorem noting (eligible : NodeKinds) (tree : Tree) {number : ValueNumber} {symbol : Symbol}
    (hnamed : naming number = some symbol) :
    (numberer.noted eligible tree number).Records naming (ledger.noting
        { note | eligible.contains tree.node.kind = true ∧ note = (tree.id, symbol) } ∅) := by
  unfold Numberer.noted
  refine Records.setValue ?_ _ _
  split
  · next heligible =>
    refine ⟨hrecords.names, hrecords.table, hrecords.computed, fun found => ?_, hrecords.histories,
      hrecords.untouched, hrecords.partials, ?_, fun note => ?_⟩
    · rw [hrecords.lists]
      cases found <;> simp [Ledger.Lists, Ledger.noting]
    · refine List.forall_mem_append.mpr ⟨hrecords.occurrences, ?_⟩
      simpa using ⟨symbol, hnamed⟩
    · simp only [addOccurrence, List.mem_append, or_and_right, exists_or, ← hrecords.noted,
        Ledger.noting, Set.mem_union, Set.mem_ofPred_eq, heligible, true_and, List.mem_singleton]
      refine or_congr_right ⟨?_, ?_⟩
      · rintro rfl
        exact ⟨number, rfl, hnamed⟩
      · rintro ⟨found, hfound, hsame⟩
        obtain ⟨hid, rfl⟩ := Prod.mk.inj hfound
        exact Prod.ext hid (Option.some.inj (hsame.symm.trans hnamed))
  · next heligible =>
    simpa [Ledger.noting, heligible] using hrecords

/-- A computation gets the number of its key, and is noted if those of its kind may be shared. -/
theorem compute (eligible : NodeKinds) (tree : Tree) (key : Key) {operands : List (List Symbol)}
    (hspells : Value.SpellsAll naming key.operands operands) : ∃ naming' : Naming,
      naming'.Extends naming ∧ ((numberer.numberOf key).2.noted eligible tree
        (numberer.numberOf key).1).Records naming' (ledger.noting
          { note | eligible.contains tree.node.kind = true ∧
            note = (tree.id, .computed key.head operands) } {.computed key.head operands}) ∧
      naming' (numberer.numberOf key).1 = some (.computed key.head operands) := by
  obtain ⟨naming', hextends, hcounted, hnamed⟩ := hrecords.numberOf key hspells
  have hnoted := hcounted.noting eligible tree hnamed
  rw [Ledger.noting_noting, Set.empty_union, Set.union_empty] at hnoted
  exact ⟨naming', hextends, hnoted, hnamed⟩

/-- What was written to a variable. -/
theorem history (id : VarId) : ∃ naming' : Naming, naming'.Extends naming ∧
    (numberer.history id).2.Records naming' { ledger with touched := insert id ledger.touched } ∧
      (numberer.history id).1.Spells naming' (ledger.history id) ∧
      (numberer.history id).1 ≠ [] := by
  by_cases htouched : id ∈ ledger.touched
  · obtain ⟨history, hlookup, hne, hspells⟩ := hrecords.histories id htouched
    obtain ⟨first, rest, rfl⟩ := List.exists_cons_of_ne_nil hne
    refine ⟨naming, .refl naming, ?_⟩
    rw [Numberer.history, hlookup, Set.insert_eq_of_mem htouched]
    exact ⟨hrecords, hspells, hne⟩
  · obtain ⟨hlookup, hentry⟩ := hrecords.untouched id htouched
    have hextends := hrecords.names.extends_give (.entry id)
    refine ⟨_, hextends, ?_⟩
    rw [Numberer.history, hlookup, hentry]
    have hspells :
        Value.Spells (naming.give numberer.fresh.1 (.entry id)) [numberer.fresh.1] [.entry id] :=
      .single (Naming.give_self ..)
    refine ⟨⟨hrecords.names.give (hrecords.ne_of_not_lists fun hlists => htouched hlists.1),
      hrecords.table_give _, hrecords.computed_give (by simp), hrecords.lists_give fun found => ?_,
      ?_, ?_, hrecords.partials.mono hextends, hrecords.occurrences_give _, hrecords.noted_give _⟩,
      hspells, by simp⟩
    · cases found with
      | entry other =>
        rw [Symbol.entry.injEq]
        refine or_and_right.trans (or_congr_left ⟨And.left, fun hsame => ⟨hsame, ?_⟩⟩)
        rw [hsame, hentry]
        exact List.mem_singleton_self _
      | _ => simp [Ledger.Lists]
    · intro other hother
      rcases Set.mem_insert_iff.mp hother with rfl | hold
      · exact ⟨_, List.lookup_cons_self, by simp, by rwa [hentry]⟩
      · rw [List.lookup_cons, beq_eq_false_iff_ne.mpr (ne_of_mem_of_not_mem hold htouched)]
        exact hrecords.histories_give _ other hold
    · intro other hother
      obtain ⟨hne, hother⟩ := not_or.mp hother
      rw [List.lookup_cons, beq_eq_false_iff_ne.mpr hne]
      exact hrecords.untouched other hother

/-- A variable has a new history, which keeps what had come up. -/
theorem setHistory (id : VarId) {history : Value} {symbols : List Symbol} (hne : history ≠ [])
    (hspells : history.Spells naming symbols)
    (hkept : id ∈ ledger.touched → ledger.history id ⊆ symbols) :
    { numberer with histories := (id, history) :: numberer.histories : Numberer }.Records naming
      { ledger with
        history := Function.update ledger.history id symbols
        touched := insert id ledger.touched } := by
  refine ⟨hrecords.names, hrecords.table, hrecords.computed, fun found => ?_, ?_, ?_,
    hrecords.partials, hrecords.occurrences, hrecords.noted⟩
  · rw [hrecords.lists]
    cases found with
    | entry other =>
      by_cases hsame : other = id
      · subst hsame
        refine ⟨fun hlists => ⟨Set.mem_insert _ _, by simpa using hkept hlists.1 hlists.2⟩,
          fun hlists => ?_⟩
        have hmem : Symbol.entry other ∈ symbols := by simpa using hlists.2
        obtain ⟨number, -, hnamed⟩ := exists_of_forall₂ hspells.flip hmem
        exact (hrecords.lists _).mp ⟨number, hnamed⟩
      · simp [Ledger.Lists, hsame]
    | _ => exact Iff.rfl
  · intro other hother
    by_cases hsame : other = id
    · subst hsame
      exact ⟨history, List.lookup_cons_self,
        hne, by rwa [← Function.update_self other symbols ledger.history] at hspells⟩
    · dsimp only
      rw [List.lookup_cons, beq_eq_false_iff_ne.mpr hsame, Function.update_of_ne hsame]
      exact hrecords.histories other (Set.mem_of_mem_insert_of_ne hother hsame)
  · intro other hother
    obtain ⟨hne, hother⟩ := not_or.mp hother
    dsimp only
    rw [List.lookup_cons, beq_eq_false_iff_ne.mpr hne, Function.update_of_ne hne]
    exact hrecords.untouched other hother

/-- What is stored in a part of a variable counts as partial. -/
theorem taint {value : Value} {symbols : List Symbol} (hspells : value.Spells naming symbols) :
    (numberer.taint value).Records naming { ledger with partials := symbols ++ ledger.partials } :=
  ⟨hrecords.names, hrecords.table, hrecords.computed, fun found => (hrecords.lists found).trans
      (by cases found <;> exact Iff.rfl), hrecords.histories, hrecords.untouched,
    hspells.append hrecords.partials, hrecords.occurrences, hrecords.noted⟩

/-- What a variable reads as. -/
theorem read (id : VarId) : ∃ naming' : Naming, naming'.Extends naming ∧
    (numberer.read id).2.Records naming' { ledger with touched := insert id ledger.touched } ∧
      (numberer.read id).1.Spells naming' (ledger.read id) ∧ (numberer.read id).1 ≠ [] := by
  obtain ⟨naming', hextends, hrecords', hspells, hne⟩ := hrecords.history id
  refine ⟨naming', hextends, hrecords', hrecords'.latest hspells, ?_⟩
  have hlength := List.length_pos_iff.mpr hne
  unfold Numberer.read Numberer.latest
  dsimp only
  rw [← List.length_pos_iff, List.length_drop]
  omega

/-- A variable is written. -/
theorem write (part : Bool) (root : VarId) {value : Value}
    {symbols : List Symbol} (hne : value ≠ [])
    (hspells : value.Spells naming symbols) : ∃ naming' : Naming, naming'.Extends naming ∧
      (numberer.write part root value).Records naming' (ledger.write part root symbols) := by
  cases part with
  | false =>
    refine ⟨naming, .refl naming, ?_⟩
    have hwritten : (numberer.write false root value).histories =
        (root, (numberer.histories.lookup root).getD [] ++ value) :: numberer.histories := rfl
    have hspells' : Value.Spells naming ((numberer.histories.lookup root).getD [])
        (open scoped Classical in if root ∈ ledger.touched then ledger.history root else []) := by
      split
      · next htouched =>
        obtain ⟨history, hlookup, -, hhistory⟩ := hrecords.histories root htouched
        rwa [hlookup]
      · next htouched =>
        rw [(hrecords.untouched root htouched).1]
        exact .nil
    refine hrecords.setHistory root (by simp [hne]) (hspells'.append hspells) fun htouched => ?_
    rw [if_pos htouched]
    exact List.subset_append_left _ _
  | true =>
    obtain ⟨naming', hextends, hrecords', hhistory, -⟩ := (hrecords.taint hspells).history root
    have hextends' := hrecords'.names.extends_give (.made ledger.made)
    have hlayer := Value.Spells.single (Naming.give_self naming'
      ((numberer.taint value).history root).2.fresh.1 (.made ledger.made))
    have hwritten := (hrecords'.give_made.taint hlayer).setHistory root (by simp)
      ((hhistory.mono hextends').append hlayer) fun _ => List.subset_append_left _ _
    refine ⟨_, hextends.trans hextends', ?_⟩
    rw [Numberer.write, if_pos rfl, writePart_eq]
    simp only [Ledger.make, Set.insert_idem] at hwritten
    exact hwritten

/-- Where all symbols that come up have come up before, no more numbers have been handed out. -/
theorem allocated_le {naming' : Naming} {ledger' : Ledger} {numberer' : Numberer}
    (hrecords' : numberer'.Records naming' ledger')
    (hlists : ∀ symbol, ledger'.Lists symbol → ledger.Lists symbol) :
    numberer'.numbering.allocated ≤ numberer.numbering.allocated := by
  -- each number goes to the one that names the same
  have hsame (number : Fin numberer'.numbering.allocated) :
      ∃ old : Fin numberer.numbering.allocated,
      ∃ symbol, naming' ⟨number⟩ = some symbol ∧ naming ⟨old⟩ = some symbol := by
    obtain ⟨symbol, hnamed⟩ := hrecords'.names.named ⟨number⟩ number.isLt
    obtain ⟨old, hold⟩ := (hrecords.lists symbol).mpr
      (hlists symbol ((hrecords'.lists symbol).mp ⟨_, hnamed⟩))
    exact ⟨⟨old.index, hrecords.names.bounded old symbol hold⟩, symbol, hnamed, hold⟩
  choose old symbol hnamed hold using hsame
  have hinjective : Function.Injective old := fun number other hequal => by
    have hsymbol : symbol number = symbol other :=
      Option.some.inj ((hold number).symm.trans (hequal ▸ hold other))
    exact Fin.ext (congrArg ValueNumber.index
      (hrecords'.names.injective _ _ _ (hnamed number) (hsymbol ▸ hnamed other)))
  simpa using Fintype.card_le_of_injective old hinjective

end Records

end Numberer

/-! ### Numbering -/

section Numbering

variable {program : Program} {eligible : NodeKinds} {state stop : Numberer} {trees : List Tree}
  {values : List Value} {naming : Naming} {ledger : Ledger}

/-- Operands are numbered as they are made. -/
theorem Numbers.records (hnumbers : Numbers eligible state trees values stop)
    (hlinked : ∀ tree ∈ trees, tree.Linked) (hrecords : state.Records naming ledger) :
    ∃ naming' : Naming, naming'.Extends naming ∧
      stop.Records naming' (ledger.numbered eligible trees) ∧
        Value.SpellsAll naming' values (trees.map (Tree.symbols ledger)) ∧ ∀ value ∈ values,
          value ≠ [] := by
  induction hnumbers generalizing naming ledger with
  | nil => exact ⟨naming, .refl naming, by rwa [Ledger.numbered_nil], .nil, by simp⟩
  | @read state stop id read children rest values hrest ih =>
    obtain ⟨hlinked, hlater⟩ := List.forall_mem_cons.mp hlinked
    obtain rfl : children = [] := Tree.eq_nil_of_ids (hlinked _ (Tree.mem_subtrees_self _))
    obtain ⟨naming₁, hextends, hread, hvalue, hne⟩ := hrecords.read read
    rw [← Ledger.numbered_variable id] at hread
    obtain ⟨naming₂, hextends', hstop, hvalues, hnes⟩ := ih hlater (hread.setValue id _)
    rw [Ledger.symbols_numbered] at hvalues
    refine ⟨naming₂, hextends.trans hextends', by rwa [← Ledger.numbered_append] at hstop, ?_,
      List.forall_mem_cons.mpr ⟨hne, hnes⟩⟩
    rw [List.map_cons, Tree.symbols_variable]
    exact .cons (hvalue.mono hextends') hvalues
  | @compute state between stop tree rest values key hhead _ hchildren hrest ih ih' =>
    obtain ⟨hlinked, hlater⟩ := List.forall_mem_cons.mp hlinked
    obtain ⟨naming₁, hextends₁, hbetween, hoperands, -⟩ := ih (fun child => hlinked.child) hrecords
    obtain ⟨naming₂, hextends₂, hnoted, hnamed⟩ := hbetween.compute eligible tree key hoperands
    rw [← Ledger.numbered_of_head? hhead] at hnoted
    obtain ⟨naming₃, hextends₃, hstop, hvalues, hnes⟩ := ih' hlater hnoted
    rw [Ledger.symbols_numbered] at hvalues
    refine ⟨naming₃,
      (hextends₁.trans hextends₂).trans hextends₃, by rwa [← Ledger.numbered_append] at hstop, ?_,
      List.forall_mem_cons.mpr ⟨by simp, hnes⟩⟩
    rw [List.map_cons, Tree.symbols_of_head? hhead]
    exact .cons (.single (hextends₃ _ _ hnamed)) hvalues

/-- Writing new values through places without indices. -/
theorem Overwrites.records (hwrites : Overwrites program eligible state trees stop)
    (hdraws : ∀ target ∈ trees, program.Draws target)
    (hindices : ∀ target ∈ trees, target.indices = [])
    (hrecords : state.Records naming ledger) : ∃ naming' : Naming, naming'.Extends naming ∧
      stop.Records naming' (ledger.overwritten program trees) := by
  induction hwrites generalizing naming ledger with
  | nil => exact ⟨naming, .refl naming, hrecords⟩
  | @cons state between stop target rest values root part hnumbers hroot hpart _ ih =>
    obtain ⟨hdraws, hlater⟩ := List.forall_mem_cons.mp hdraws
    obtain ⟨hnone, hindices⟩ := List.forall_mem_cons.mp hindices
    rw [hnone] at hnumbers
    cases hnumbers
    have hvalue : Value.Spells (naming.give state.fresh.1 (.made ledger.made))
        [state.fresh.1] [.made ledger.made] :=
      .single (Naming.give_self ..)
    obtain ⟨naming₁, hextends, hwritten⟩ := hrecords.give_made.write part root (by simp) hvalue
    obtain ⟨naming₂, hextends', hstop⟩ := ih hlater hindices hwritten
    refine ⟨naming₂, ((hrecords.names.extends_give _).trans hextends).trans hextends', ?_⟩
    rwa [Ledger.overwritten, List.foldl_cons, Ledger.stored_eq hdraws hroot hpart]

/-- A statement is numbered as it is performed. -/
theorem NumbersStatement.records {statement : Tree}
    (hnumbers : NumbersStatement program eligible state statement stop)
    (hsound : program.Sound statement) (hdraws : program.Draws statement)
    (hunindexed : program.Unindexed statement)
    (hrecords : state.Records naming ledger) : ∃ naming' : Naming, naming'.Extends naming ∧
      stop.Records naming' (ledger.performed program eligible statement) := by
  have hlinked := hdraws.linked
  cases hnumbers with
  | @assign valued stop id target value mask stored indices root part hvalue hindices hroot hpart =>
    have htarget : program.Draws target := hdraws.child (by simp)
    obtain ⟨naming₁, hextends₁, hvalued, hspells, hne⟩ :=
      hvalue.records (by simpa using hlinked.child (by simp)) hrecords
    obtain ⟨naming₂, hextends₂, hindexed, -⟩ :=
      hindices.records (fun position => htarget.linked.of_mem_indices) hvalued
    rw [← Ledger.numbered_append] at hindexed
    have hstored := ((List.forall₂_cons.mp hspells).1).mono hextends₂
    obtain ⟨naming₃, hextends₃, hstop⟩ :=
      hindexed.write part root (hne _ (List.mem_singleton_self _)) hstored
    refine ⟨naming₃, (hextends₁.trans hextends₂).trans hextends₃, ?_⟩
    rwa [Ledger.performed_assign, Ledger.stored_eq htarget hroot hpart]
  | @stored called stop id callee signature arguments target values indices root part hsignature
      hpure harguments hindices hroot hpart =>
    have hcall :
        program.Sound ⟨id, .call callee (arguments.map Tree.id) ((some target).map Tree.id),
      arguments ++ (some target).toList⟩ := hsound
    have htarget : program.Draws target := hdraws.child (by simp)
    obtain ⟨naming₁, hextends₁, hcalled, hspells, -⟩ :=
      harguments.records (fun argument hmem => hlinked.child (List.mem_append_left _ hmem)) hrecords
    obtain ⟨naming₂, hextends₂, hnoted, hnamed⟩ := hcalled.compute eligible
      ⟨id, .call callee (arguments.map Tree.id) (some target.id), arguments ++ [target]⟩
      (.call callee values) hspells
    obtain ⟨naming₃, hextends₃, hindexed, -⟩ :=
      hindices.records (fun position => htarget.linked.of_mem_indices) hnoted
    rw [Ledger.numbered_noting, ← Ledger.numbered_append] at hindexed
    obtain ⟨naming₄, hextends₄, hstop⟩ :=
      hindexed.write part root (by simp) (.single (hextends₃ _ _ hnamed))
    refine ⟨naming₄, ((hextends₁.trans hextends₂).trans hextends₃).trans hextends₄, ?_⟩
    have hperformed : ledger.performed program eligible _ = _ :=
      Ledger.performed_of_isPure id (some target) hsignature hpure (hcall.of_call hsignature).1
    simp only [Option.map_some, Option.toList_some, List.foldl_cons, List.foldl_nil,
      List.flatMap_singleton] at hperformed
    rw [hperformed, Ledger.stored_eq htarget hroot hpart]
    simpa [Node.kind, Key.head] using hstop
  | @dropped called id callee signature arguments values hsignature hpure harguments =>
    have hcall :
        program.Sound ⟨id, .call callee (arguments.map Tree.id) ((none : Option Tree).map Tree.id),
      arguments ++ (none : Option Tree).toList⟩ := by simpa using hsound
    obtain ⟨naming₁, hextends₁, hcalled, hspells, -⟩ :=
      harguments.records (fun argument => hlinked.child) hrecords
    obtain ⟨naming₂, hextends₂, hcounted, -⟩ := hcalled.numberOf (.call callee values) hspells
    have hperformed : ledger.performed program eligible _ = _ :=
      Ledger.performed_of_isPure id none hsignature hpure (hcall.of_call hsignature).1
    simp only [Option.map_none, Option.toList_none, List.append_nil, List.foldl_nil,
      List.flatMap_nil] at hperformed
    refine ⟨naming₂, hextends₁.trans hextends₂, ?_⟩
    rw [hperformed]
    simpa [Ledger.noting, Key.head] using hcounted.setValue id _
  | @effectful called overwritten _ id callee signature arguments result values hsignature hpure
      hinputs hwritten hresult =>
    have hlength := (hsound.of_call hsignature).1
    have htargets := Program.writtenBy_effectful id result hsignature hlength
    have hindices := hunindexed callee _ _ signature rfl hsignature hpure
    rw [htargets] at hindices
    have hpassed : ∀ passed ∈ signature.params.zip arguments, program.Draws passed.2 :=
      fun passed hmem =>
      hdraws.child (List.mem_append_left _ (List.of_mem_zip hmem).2)
    obtain ⟨naming₁, hextends₁, hcalled, -⟩ := hinputs.records (fun tree htree => by
      obtain ⟨passed, hmem, rfl⟩ := List.mem_map.mp htree
      exact (hpassed passed (List.mem_of_mem_filter hmem)).linked) hrecords
    obtain ⟨naming₂, hextends₂, hoverwritten⟩ := hwritten.records (fun tree htree => by
      obtain ⟨passed, hmem, rfl⟩ := List.mem_map.mp htree
      exact hpassed passed (List.mem_of_mem_filter hmem))
        (fun tree htree => hindices tree (List.mem_append_left _ htree))
      hcalled
    obtain ⟨naming₃, hextends₃, hstop⟩ :=
      hresult.records (fun tree htree => hdraws.child (List.mem_append_right _ htree))
      (fun tree htree => hindices tree (List.mem_append_right _ htree))
        (hoverwritten.give_made.setValue id _)
    refine ⟨naming₃, ((hextends₁.trans hextends₂).trans
      (hoverwritten.names.extends_give _)).trans hextends₃, ?_⟩
    rwa [Ledger.performed_effectful id result hsignature hpure hlength hunindexed]
  | @operands _ _ values hwrites hoperands =>
    obtain ⟨naming', hextends, hstop, -⟩ := hoperands.records (fun child => hlinked.child) hrecords
    exact ⟨naming', hextends, by rwa [Ledger.performed_operands hsound hwrites]⟩

/-- Statements are numbered as they are performed. -/
theorem NumbersStatements.records {statements : List Tree}
    (hnumbers : NumbersStatements program eligible state statements stop)
    (hstatements : ∀ statement ∈ statements, program.Sound statement ∧ program.Draws statement ∧
      program.Unindexed statement) (hrecords : state.Records naming ledger) :
      ∃ naming' : Naming, naming'.Extends naming ∧
        stop.Records naming' (ledger.performedAll program eligible statements) := by
  induction hnumbers generalizing naming ledger with
  | nil => exact ⟨naming, .refl naming, hrecords⟩
  | cons hfirst _ ih =>
    obtain ⟨⟨hsound, hdraws, hunindexed⟩, hlater⟩ := List.forall_mem_cons.mp hstatements
    obtain ⟨naming₁, hextends, hbetween⟩ := hfirst.records hsound hdraws hunindexed hrecords
    obtain ⟨naming₂, hextends', hstop⟩ := ih hlater hbetween
    exact ⟨naming₂, hextends.trans hextends', hstop⟩

end Numbering

end ShaderIR
