import Mathlib.Data.List.Basic
import Mathlib.Algebra.BigOperators.Group.List.Basic
import Mathlib.Algebra.Order.Ring.Int

/-!
Texts with brackets. A text is `Enclosed` if its brackets match and some characters occur in it only
between brackets. Such texts can be told apart from what is written around them: a first one up to a
stop (`Enclosed.append_cons_inj`), a last one from its opening bracket on
(`Enclosed.append_open_inj`), and a row of them by the commas in between (`eq_of_intercalate_eq`).
-/

set_option autoImplicit false

namespace ShaderIR

/-! ### Open brackets -/

/-- What a character adds to the number of open brackets. -/
def bracketStep (char : Char) : Int :=
  if char = '(' ∨ char = '[' then 1 else if char = ')' ∨ char = ']' then -1 else 0

/-- How many more brackets a text opens than it closes. -/
def openBrackets (text : List Char) : Int :=
  (text.map bracketStep).sum

@[simp] theorem openBrackets_nil : openBrackets [] = 0 :=
  rfl

@[simp] theorem openBrackets_cons (char : Char) (text : List Char) :
    openBrackets (char :: text) = bracketStep char + openBrackets text := by
  rw [openBrackets, List.map_cons, List.sum_cons, openBrackets]

@[simp] theorem openBrackets_append (first second : List Char) :
    openBrackets (first ++ second) = openBrackets first + openBrackets second := by
  rw [openBrackets, List.map_append, List.sum_append, openBrackets, openBrackets]

theorem openBrackets_eq_zero {text : List Char} (hplain : ∀ char ∈ text, bracketStep char = 0) :
    openBrackets text = 0 := by
  induction text with
  | nil => rfl
  | cons char text ih =>
    obtain ⟨hchar, htext⟩ := List.forall_mem_cons.mp hplain
    rw [openBrackets_cons, hchar, ih htext, Int.add_zero]

/-! ### Enclosed texts -/

/-- The brackets of a text match, and the stops in it are between brackets. -/
structure Enclosed (stops text : List Char) : Prop where
  closed : openBrackets text = 0
  nonneg : ∀ {before after : List Char}, text = before ++ after → 0 ≤ openBrackets before
  inside : ∀ {before after : List Char} {stop : Char},
    text = before ++ stop :: after → stop ∈ stops →
    0 < openBrackets before

namespace Enclosed

variable {stops stops' text text' rest rest' : List Char} {stop stop' : Char}

theorem mono (htext : Enclosed stops text) (hstops : stops' ⊆ stops) : Enclosed stops' text :=
  ⟨htext.closed, htext.nonneg, fun hsplit hstop => htext.inside hsplit (hstops hstop)⟩

theorem of_plain (hplain : ∀ char ∈ text, bracketStep char = 0 ∧ char ∉ stops) :
    Enclosed stops text where
  closed := openBrackets_eq_zero fun char hchar => (hplain char hchar).1
  nonneg := by
    rintro before after rfl
    exact (openBrackets_eq_zero fun char hchar => (hplain char (List.mem_append_left _ hchar)).1).ge
  inside := by
    rintro before after stop rfl hstop
    exact absurd hstop (hplain stop (by simp)).2

theorem of_char {char : Char} (hstep : bracketStep char = 0) (hstop : char ∉ stops) :
    Enclosed stops [char] :=
  of_plain (List.forall_mem_singleton.mpr ⟨hstep, hstop⟩)

theorem append (htext : Enclosed stops text) (htext' : Enclosed stops text') :
    Enclosed stops (text ++ text') where
  closed := by rw [openBrackets_append, htext.closed, htext'.closed, Int.add_zero]
  nonneg := by
    intro before after hsplit
    rcases List.append_eq_append_iff.mp hsplit with ⟨part, rfl, hrest⟩ | ⟨part, htaken, -⟩
    · rw [openBrackets_append, htext.closed, Int.zero_add]
      exact htext'.nonneg hrest
    · exact htext.nonneg htaken
  inside := by
    intro before after stop hsplit hstop
    rcases List.append_eq_append_iff.mp hsplit with ⟨part, rfl, hrest⟩ | ⟨part, htaken, hrest⟩
    · rw [openBrackets_append, htext.closed, Int.zero_add]
      exact htext'.inside hrest hstop
    · cases part with
      | nil =>
        rw [List.append_nil] at htaken
        have hfirst : 0 < openBrackets [] := htext'.inside hrest.symm hstop
        exact absurd hfirst (Int.lt_irrefl 0)
      | cons char part =>
        obtain ⟨rfl, -⟩ := List.cons.inj hrest
        exact htext.inside htaken hstop

/-- A text between brackets encloses whatever it holds. -/
theorem bracketed {opening closing : Char} (htext : Enclosed [] text)
    (hopening : bracketStep opening = 1) (hclosing : bracketStep closing = -1)
    (hopening' : opening ∉ stops) (hclosing' : closing ∉ stops) :
    Enclosed stops (opening :: (text ++ [closing])) where
  closed := by simp [htext.closed, hopening, hclosing]
  nonneg := by
    intro before after hsplit
    cases before with
    | nil => exact Int.le_refl 0
    | cons char before =>
      obtain ⟨rfl, hbehind⟩ := List.cons.inj hsplit
      rw [openBrackets_cons, hopening]
      rcases List.append_eq_append_iff.mp hbehind with ⟨part, rfl, hrest⟩ | ⟨part, htaken, -⟩
      · rw [openBrackets_append, htext.closed]
        rcases List.append_eq_singleton_iff.mp hrest.symm with ⟨rfl, -⟩ | ⟨rfl, -⟩
          <;> simp [hclosing]
      · have := htext.nonneg htaken
        omega
  inside := by
    intro before after stop hsplit hstop
    cases before with
    | nil =>
      obtain ⟨rfl, -⟩ := List.cons.inj hsplit
      exact absurd hstop hopening'
    | cons char before =>
      obtain ⟨rfl, hbehind⟩ := List.cons.inj hsplit
      rw [openBrackets_cons, hopening]
      rcases List.append_eq_append_iff.mp hbehind with ⟨part, rfl, hrest⟩ | ⟨part, htaken, -⟩
      · cases part with
        | nil =>
          obtain ⟨rfl, -⟩ := List.cons.inj hrest
          exact absurd hstop hclosing'
        | cons char part => simp at hrest
      · have := htext.nonneg htaken
        omega

/-- Before a stop, the text ends at the first stop that is not between brackets. -/
theorem append_cons_inj (htext : Enclosed stops text)
    (htext' : Enclosed stops text') (hstop : stop ∈ stops)
    (hstop' : stop' ∈ stops) (heq : text ++ stop :: rest = text' ++ stop' :: rest') :
    text = text' ∧ stop = stop' ∧ rest = rest' := by
  rcases List.append_eq_append_iff.mp heq with ⟨part, hsplit, hrest⟩ | ⟨part, hsplit, hrest⟩
  · cases part with
    | nil =>
      obtain ⟨rfl, rfl⟩ := List.cons.inj hrest
      exact ⟨by simpa using hsplit.symm, rfl, rfl⟩
    | cons char part =>
      obtain ⟨rfl, -⟩ := List.cons.inj hrest
      have := htext'.inside hsplit hstop
      rw [htext.closed] at this
      exact absurd this (Int.lt_irrefl 0)
  · cases part with
    | nil =>
      obtain ⟨rfl, rfl⟩ := List.cons.inj hrest
      exact ⟨by simpa using hsplit, rfl, rfl⟩
    | cons char part =>
      obtain ⟨rfl, -⟩ := List.cons.inj hrest
      have := htext.inside hsplit hstop'
      rw [htext'.closed] at this
      exact absurd this (Int.lt_irrefl 0)

/-- Behind an opening bracket, the text begins at the last bracket that it does not close. -/
theorem append_open_inj {base base' : List Char} {opening opening' : Char}
    (htext : Enclosed [] text) (htext' : Enclosed [] text')
    (hopening : bracketStep opening = 1) (hopening' : bracketStep opening' = 1)
    (heq : base ++ opening :: text = base' ++ opening' :: text') : base = base' ∧ text = text' := by
  rcases List.append_eq_append_iff.mp heq with ⟨part, rfl, hrest⟩ | ⟨part, rfl, hrest⟩
  · cases part with
    | nil => exact ⟨(List.append_nil _).symm, (List.cons.inj hrest).2⟩
    | cons char part =>
      have hsplit : text = part ++ opening' :: text' := (List.cons.inj hrest).2
      have hclosed := htext.closed
      rw [hsplit, openBrackets_append, openBrackets_cons, htext'.closed, hopening'] at hclosed
      have := htext.nonneg hsplit
      omega
  · cases part with
    | nil => exact ⟨List.append_nil _, (List.cons.inj hrest).2.symm⟩
    | cons char part =>
      have hsplit : text' = part ++ opening :: text := (List.cons.inj hrest).2
      have hclosed := htext'.closed
      rw [hsplit, openBrackets_append, openBrackets_cons, htext.closed, hopening] at hclosed
      have := htext'.nonneg hsplit
      omega

theorem intercalate {texts : List (List Char)} (htexts : ∀ text ∈ texts, Enclosed [] text) :
    Enclosed [] ([',', ' '].intercalate texts) := by
  have hcomma : Enclosed [] [','] := of_char (by decide) List.not_mem_nil
  have hseparator : Enclosed [] [',', ' '] := hcomma.append (of_char (by decide) List.not_mem_nil)
  induction texts with
  | nil => exact of_plain (by simp)
  | cons text texts ih =>
    obtain ⟨htext, htexts⟩ := List.forall_mem_cons.mp htexts
    cases texts with
    | nil => rwa [List.intercalate_singleton]
    | cons next texts =>
      rw [List.intercalate_cons_cons]
      exact (htext.append hseparator).append (ih htexts)

end Enclosed

/-- Texts without commas of their own are known from what they are when they are put together with
commas. -/
theorem eq_of_intercalate_eq {texts texts' : List (List Char)}
    (htexts : ∀ text ∈ texts, Enclosed [','] text)
    (htexts' : ∀ text ∈ texts', Enclosed [','] text) (hne : texts ≠ []) (hne' : texts' ≠ [])
    (heq : [',', ' '].intercalate texts = [',', ' '].intercalate texts') : texts = texts' := by
  have hcomma : ',' ∈ [','] := List.mem_singleton_self _
  induction texts generalizing texts' with
  | nil => exact absurd rfl hne
  | cons text texts ih =>
    obtain ⟨text', texts', rfl⟩ := List.exists_cons_of_ne_nil hne'
    obtain ⟨htext, hrest⟩ := List.forall_mem_cons.mp htexts
    obtain ⟨htext', hrest'⟩ := List.forall_mem_cons.mp htexts'
    cases texts with
    | nil =>
      cases texts' with
      | nil => rw [List.intercalate_singleton, List.intercalate_singleton] at heq; rw [heq]
      | cons next' texts' =>
        rw [List.intercalate_singleton, List.intercalate_cons_cons, List.append_assoc] at heq
        exact absurd (htext.inside heq hcomma) htext'.closed.not_gt
    | cons next texts =>
      cases texts' with
      | nil =>
        rw [List.intercalate_singleton, List.intercalate_cons_cons, List.append_assoc] at heq
        exact absurd (htext'.inside heq.symm hcomma) htext.closed.not_gt
      | cons next' texts' =>
        rw [List.intercalate_cons_cons, List.intercalate_cons_cons, List.append_assoc,
          List.append_assoc] at heq
        obtain ⟨hsame, -, hbehind⟩ := htext.append_cons_inj htext' hcomma hcomma heq
        rw [hsame,
          ih hrest hrest' (List.cons_ne_nil _ _) (List.cons_ne_nil _ _) (List.cons.inj hbehind).2]

end ShaderIR
