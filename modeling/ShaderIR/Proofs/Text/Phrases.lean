import ShaderIR.Proofs.Text.Brackets

/-!
Phrases: what the text of an expression says at its top, with the texts of the operands in it. A
nested operation is put in parentheses and nothing else is (`Phrase.spelling`). When the parts are
what the texts of operands are (`Phrase.Legible`), the phrase is such a text again
(`Phrase.Legible.enclosed`, `Phrase.Legible.enclosed_nested`), and it can be read back from its
spelling (`Phrase.eq_of_spelling_eq`): the last character tells an index and what ends in a
parenthesis from the rest, the first one tells an operation from a call, and a blank outside of all
brackets is that of an operation without parentheses.
-/

set_option autoImplicit false

namespace ShaderIR

/-- What keeps its place in a text: the characters that never belong to a name. -/
def punctuation : List Char :=
  [' ', ',', ':', '.', '(', ')', '[', ']']

/-- A text without punctuation. -/
def IsWord (text : List Char) : Prop :=
  ∀ char ∈ text, char ∉ punctuation

instance (text : List Char) : Decidable (IsWord text) :=
  List.decidableBAll (fun char => char ∉ punctuation) text

theorem bracketStep_of_not_mem {char : Char} (hplain : char ∉ punctuation) :
    bracketStep char = 0 := by
  simp only [punctuation, List.mem_cons, List.not_mem_nil, or_false, not_or] at hplain
  simp [bracketStep, hplain]

theorem IsWord.enclosed {stops text : List Char}
    (hword : IsWord text) (hstops : stops ⊆ punctuation) :
    Enclosed stops text :=
  .of_plain fun char hchar => ⟨bracketStep_of_not_mem (hword char hchar),
    fun hstop => hword char hchar (hstops hstop)⟩

theorem IsWord.not_mem {text : List Char} (hword : IsWord text)
    {char : Char} (hchar : char ∈ punctuation) :
    char ∉ text :=
  fun hmem => hword char hmem hchar

/-- Behind the last one of a character, a text is known. -/
theorem eq_of_append_cons {before before' behind behind' : List Char}
    {char : Char} (hbehind : char ∉ behind)
    (hbehind' : char ∉ behind') (hsame : before ++ char :: behind = before' ++ char :: behind') :
    before = before' ∧ behind = behind' := by
  rcases List.append_eq_append_iff.mp hsame with ⟨part, rfl, hrest⟩ | ⟨part, rfl, hrest⟩
  · cases part with
    | nil => exact ⟨(List.append_nil _).symm, (List.cons.inj hrest).2⟩
    | cons first part =>
      obtain rfl : behind = part ++ char :: behind' := (List.cons.inj hrest).2
      exact absurd (List.mem_append_right _ List.mem_cons_self) hbehind
  · cases part with
    | nil => exact ⟨List.append_nil _, (List.cons.inj hrest).2.symm⟩
    | cons first part =>
      obtain rfl : behind' = part ++ char :: behind := (List.cons.inj hrest).2
      exact absurd (List.mem_append_right _ List.mem_cons_self) hbehind'

/-! ### Phrases -/

/-- What the text of an expression says at its top, with the texts of its operands. -/
inductive Phrase
  | name (word : List Char)
  | index (base place : List Char)
  | swizzle (base lanes : List Char)
  /-- An operation whose symbol stands between its operands. -/
  | operation (left symbol right : List Char)
  | call (callee : List Char) (arguments : List (List Char))

namespace Phrase

/-- The text of a phrase; only an operation depends on whether it is an operand itself. -/
def spelling (nested : Bool) : Phrase → List Char
  | .name word => word
  | .index base place => base ++ '[' :: (place ++ [']'])
  | .swizzle base lanes => base ++ '.' :: lanes
  | .operation left symbol right =>
    let text := left ++ ' ' :: (symbol ++ ' ' :: right)
    if nested then '(' :: (text ++ [')']) else text
  | .call callee arguments => callee ++ '(' :: ([',', ' '].intercalate arguments ++ [')'])

/-- The parts of a phrase are the texts of operands, each as it is written in its place. -/
inductive Legible : Phrase → Prop
  | name {word : List Char} (hword : IsWord word) : Legible (.name word)
  | index {base place : List Char} (hbase : Enclosed [' ', ',', ':'] base)
      (hplace : Enclosed [',', ':'] place) :
    Legible (.index base place)
  | swizzle {base lanes : List Char} (hbase : Enclosed [' ', ',', ':'] base) (hlanes : IsWord lanes)
    (hne : lanes ≠ []) : Legible (.swizzle base lanes)
  | operation {left symbol right : List Char} (hleft : Enclosed [' ', ',', ':'] left)
    (hsymbol : IsWord symbol) (hright : Enclosed [' ', ',', ':'] right) :
    Legible (.operation left symbol right)
  | call {callee : List Char} {arguments : List (List Char)}
    (hcallee : Enclosed [' ', ',', ':'] callee)
    (hhead : ∃ char rest, callee = char :: rest ∧ char ≠ '(')
    (harguments : ∀ text ∈ arguments, Enclosed [','] text)
    (hne : arguments ≠ []) : Legible (.call callee arguments)

/-- What a phrase is, without its parts. -/
inductive Kind
  | name
  | index
  | swizzle
  | operation
  | call
deriving DecidableEq

/-- The kind of a phrase. -/
def kind : Phrase → Kind
  | .name .. => .name
  | .index .. => .index
  | .swizzle .. => .swizzle
  | .operation .. => .operation
  | .call .. => .call

variable {phrase phrase' : Phrase}

/-! ### Spellings are enclosed -/

/-- Unless it is an operation without parentheses, a phrase has no blank outside of brackets. -/
theorem Legible.enclosed_of_nested {nested : Bool} (hlegible : phrase.Legible)
    (hform : nested = true ∨ phrase.kind ≠ .operation) :
    Enclosed [' ', ',', ':'] (phrase.spelling nested) := by
  cases hlegible with
  | name hword => exact hword.enclosed (by decide)
  | index hbase hplace =>
    exact hbase.append
      ((hplace.mono (List.nil_subset _)).bracketed (by decide) (by decide) (by decide) (by decide))
  | swizzle hbase hlanes =>
    have hdot : Enclosed [' ', ',', ':'] ['.'] := .of_char (by decide) (by decide)
    exact hbase.append (hdot.append (hlanes.enclosed (by decide)))
  | operation hleft hsymbol hright =>
    obtain rfl := hform.resolve_right (fun hne => hne rfl)
    have hblank : Enclosed [] [' '] := .of_char (by decide) List.not_mem_nil
    have hbehind := hblank.append ((hsymbol.enclosed (List.nil_subset _)).append
      (hblank.append (hright.mono (List.nil_subset _))))
    exact ((hleft.mono (List.nil_subset _)).append
      hbehind).bracketed (by decide) (by decide) (by decide) (by decide)
  | call hcallee _ harguments =>
    have hinner : Enclosed [] _ :=
      Enclosed.intercalate fun text htext => (harguments text htext).mono (List.nil_subset _)
    exact hcallee.append (hinner.bracketed (by decide) (by decide) (by decide) (by decide))

theorem Legible.enclosed_nested (hlegible : phrase.Legible) :
    Enclosed [' ', ',', ':'] (phrase.spelling true) :=
  hlegible.enclosed_of_nested (Or.inl rfl)

theorem Legible.enclosed (hlegible : phrase.Legible) (nested : Bool) :
    Enclosed [',', ':'] (phrase.spelling nested) := by
  have hstops : [',', ':'] ⊆ [' ', ',', ':'] := List.subset_cons_self _ _
  by_cases hform : nested = true ∨ phrase.kind ≠ .operation
  · exact (hlegible.enclosed_of_nested hform).mono hstops
  · rw [not_or, not_not, Bool.not_eq_true] at hform
    obtain ⟨rfl, hoperation⟩ := hform
    cases hlegible with
    | operation hleft hsymbol hright =>
      have hblank : Enclosed [',', ':'] [' '] := .of_char (by decide) (by decide)
      exact (hleft.mono hstops).append
        (hblank.append ((hsymbol.enclosed (by decide)).append (hblank.append (hright.mono hstops))))
    | _ => cases hoperation

/-! ### Reading a phrase -/

/-- The kind of a phrase that is no operation without parentheses. -/
def Kind.ofText (text : List Char) : Kind :=
  if text.getLast? = some ']' then .index
  else if text.getLast? = some ')' then
    if text.head? = some '(' then .operation else .call
  else if '.' ∈ text then .swizzle else .name

theorem getLast?_append_cons_concat (before inner : List Char) (opening closing : Char) :
    (before ++ opening :: (inner ++ [closing])).getLast? = some closing := by
  rw [← List.cons_append, ← List.append_assoc, List.getLast?_concat]

theorem Kind.ofText_of_getLast? {text : List Char} (hlast : text.getLast? = some ')') :
    ofText text = if text.head? = some '(' then .operation else .call := by
  rw [ofText, if_neg (by simp [hlast]), if_pos hlast]

theorem Kind.ofText_spelling {nested : Bool} (hlegible : phrase.Legible)
    (hform : nested = true ∨ phrase.kind ≠ .operation) :
    Kind.ofText (phrase.spelling nested) = phrase.kind := by
  have hends {word text : List Char} {char : Char} (hword : IsWord word)
      (hlast : text.getLast? = word.getLast?) (hchar : char ∈ punctuation) :
        text.getLast? ≠ some char :=
    fun heq => hword char (List.mem_of_getLast? (hlast.symm.trans heq)) hchar
  cases hlegible with
  | name hword =>
    rw [spelling, ofText, if_neg (hends hword rfl (by decide)),
      if_neg (hends hword rfl (by decide)), if_neg (hword.not_mem (by decide)), kind]
  | index => rw [spelling, ofText, if_pos (getLast?_append_cons_concat ..), kind]
  | @swizzle base lanes _ hlanes hne =>
    have hlast : (base ++ '.' :: lanes).getLast? = lanes.getLast? := by
      rw [← List.singleton_append, ← List.append_assoc, List.getLast?_append_of_ne_nil _ hne]
    rw [spelling, ofText, if_neg (hends hlanes hlast (by decide)),
      if_neg (hends hlanes hlast (by decide)),
      if_pos (List.mem_append_right _ List.mem_cons_self), kind]
  | operation =>
    obtain rfl := hform.resolve_right (fun hne => hne rfl)
    exact (ofText_of_getLast? (getLast?_append_cons_concat [] ..)).trans (if_pos rfl)
  | call hcallee hhead =>
    obtain ⟨char, rest, rfl, hne⟩ := hhead
    exact (ofText_of_getLast? (getLast?_append_cons_concat (char :: rest) ..)).trans
      (if_neg fun hopen => hne (Option.some.inj hopen))

/-- A blank outside of brackets belongs to an operation without parentheses. -/
theorem Legible.spelling_ne_operation {left symbol right : List Char} (hlegible : phrase.Legible)
    (hform : phrase.kind ≠ .operation) (hleft : Enclosed [' ', ',', ':'] left) :
    phrase.spelling false ≠ (Phrase.operation left symbol right).spelling false := by
  intro hsame
  have hblank := (hlegible.enclosed_of_nested (Or.inr hform)).inside hsame (List.mem_cons_self)
  exact absurd hblank hleft.closed.not_gt

theorem kind_eq_of_spelling_eq {nested : Bool} (hlegible : phrase.Legible)
    (hlegible' : phrase'.Legible) (hsame : phrase.spelling nested = phrase'.spelling nested) :
    phrase.kind = phrase'.kind := by
  by_cases hform : nested = true ∨ phrase.kind ≠ .operation
  · by_cases hform' : nested = true ∨ phrase'.kind ≠ .operation
    · rw [← Kind.ofText_spelling hlegible hform, hsame, Kind.ofText_spelling hlegible' hform']
    · rw [not_or, not_not, Bool.not_eq_true] at hform'
      obtain ⟨rfl, hoperation⟩ := hform'
      cases hlegible' with
      | operation hleft =>
        exact absurd hsame (hlegible.spelling_ne_operation (by simpa using hform) hleft)
      | _ => cases hoperation
  · rw [not_or, not_not, Bool.not_eq_true] at hform
    obtain ⟨rfl, hoperation⟩ := hform
    by_cases hoperation' : phrase'.kind = .operation
    · rw [hoperation, hoperation']
    · cases hlegible with
      | operation hleft =>
        exact absurd hsame.symm (hlegible'.spelling_ne_operation hoperation' hleft)
      | _ => cases hoperation

theorem operation_inj {left symbol right left' symbol' right' : List Char}
    (hleft : Enclosed [' ', ',', ':'] left)
    (hleft' : Enclosed [' ', ',', ':'] left') (hsymbol : IsWord symbol) (hsymbol' : IsWord symbol')
    (hsame : left ++ ' ' :: (symbol ++ ' ' :: right) = left' ++ ' ' :: (symbol' ++ ' ' :: right')) :
    left = left' ∧ symbol = symbol' ∧ right = right' := by
  have hblank : ' ' ∈ [' ', ',', ':'] := List.mem_cons_self
  obtain ⟨hsameLeft, -, hbehind⟩ := hleft.append_cons_inj hleft' hblank hblank hsame
  obtain ⟨hsameSymbol, -, hsameRight⟩ := Enclosed.append_cons_inj (hsymbol.enclosed (by decide))
    (hsymbol'.enclosed (by decide)) hblank hblank hbehind
  exact ⟨hsameLeft, hsameSymbol, hsameRight⟩

/-- What ends with a bracket that closes the last one opened is known before that bracket and
inside. -/
theorem bracketed_inj {base base' inner inner' : List Char} {opening closing : Char}
    (hinner : Enclosed [] inner) (hinner' : Enclosed [] inner') (hopening : bracketStep opening = 1)
    (hsame : base ++ opening :: (inner ++ [closing]) = base' ++ opening :: (inner' ++ [closing])) :
    base = base' ∧ inner = inner' := by
  rw [← List.cons_append, ← List.cons_append, ← List.append_assoc, ← List.append_assoc] at hsame
  exact hinner.append_open_inj hinner' hopening hopening (List.append_cancel_right hsame)

/-- A phrase can be read back from its spelling. -/
theorem eq_of_spelling_eq {nested : Bool} (hlegible : phrase.Legible) (hlegible' : phrase'.Legible)
    (hsame : phrase.spelling nested = phrase'.spelling nested) : phrase = phrase' := by
  have hkind := kind_eq_of_spelling_eq hlegible hlegible' hsame
  cases hlegible with
  | name =>
    cases hlegible' with
    | name => exact congrArg Phrase.name hsame
    | _ => cases hkind
  | index _ hplace =>
    cases hlegible' with
    | index _ hplace' =>
      obtain ⟨rfl, rfl⟩ := bracketed_inj (hplace.mono (List.nil_subset _))
        (hplace'.mono (List.nil_subset _)) (by decide) hsame
      rfl
    | _ => cases hkind
  | swizzle _ hlanes =>
    cases hlegible' with
    | swizzle _ hlanes' =>
      obtain ⟨rfl, rfl⟩ :=
        eq_of_append_cons (hlanes.not_mem (by decide)) (hlanes'.not_mem (by decide)) hsame
      rfl
    | _ => cases hkind
  | operation hleft hsymbol =>
    cases hlegible' with
    | operation hleft' hsymbol' =>
      cases nested with
      | false =>
        obtain ⟨rfl, rfl, rfl⟩ := operation_inj hleft hleft' hsymbol hsymbol' hsame
        rfl
      | true =>
        obtain ⟨rfl, rfl, rfl⟩ := operation_inj hleft hleft' hsymbol hsymbol'
          (List.append_cancel_right (List.cons.inj hsame).2)
        rfl
    | _ => cases hkind
  | call _ _ harguments hne =>
    cases hlegible' with
    | call _ _ harguments' hne' =>
      obtain ⟨rfl, hrow⟩ := bracketed_inj (.intercalate fun text htext =>
          (harguments text htext).mono (List.nil_subset _)) (.intercalate fun text htext =>
          (harguments' text htext).mono (List.nil_subset _)) (by decide) hsame
      rw [eq_of_intercalate_eq harguments harguments' hne hne' hrow]
    | _ => cases hkind

end Phrase

end ShaderIR
