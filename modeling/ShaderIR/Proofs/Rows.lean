import Mathlib.Data.List.Forall2
import Mathlib.Data.List.Nodup
import Mathlib.Data.List.Pairwise

/-!
Rows that are related item by item: what belongs to an item, to the parts of a row, and to its last
item. A row that is made of rows without doubles tells from which of them an item comes
(`eq_of_mem_flatMap`).
-/

set_option autoImplicit false

namespace ShaderIR

variable {α β : Type} {relation : α → β → Prop}

theorem exists_of_forall₂ {items : List α} {others : List β}
    (hall : List.Forall₂ relation items others) {item : α} (hitem : item ∈ items) :
    ∃ other ∈ others, relation item other := by
  induction hall with
  | nil => cases hitem
  | cons hfirst _ ih =>
    rcases List.mem_cons.mp hitem with rfl | hitem
    · exact ⟨_, List.mem_cons_self, hfirst⟩
    · obtain ⟨other, hother, hrelation⟩ := ih hitem
      exact ⟨other, List.mem_cons_of_mem _ hother, hrelation⟩

theorem exists_mem_zip_of_forall₂ {γ : Type} {items : List α} {others : List β}
    (hall : List.Forall₂ relation items others) {keys : List γ} {found : γ × β}
    (hfound : found ∈ keys.zip others) :
    ∃ item, (found.1, item) ∈ keys.zip items ∧ relation item found.2 := by
  induction hall generalizing keys with
  | nil => simp at hfound
  | cons hfirst _ ih =>
    cases keys with
    | nil => simp at hfound
    | cons key keys =>
      rw [List.zip_cons_cons, List.mem_cons] at hfound
      rcases hfound with rfl | hfound
      · exact ⟨_, List.mem_cons_self, hfirst⟩
      · obtain ⟨item, hitem, hrelated⟩ := ih hfound
        exact ⟨item, List.mem_cons_of_mem _ hitem, hrelated⟩

theorem exists_append_of_forall₂_right {items : List α} {before behind : List β}
    (hall : List.Forall₂ relation items (before ++ behind)) :
    ∃ first second, items = first ++ second ∧ List.Forall₂ relation first before ∧
      List.Forall₂ relation second behind :=
  ⟨items.take before.length, items.drop before.length, (List.take_append_drop _ _).symm,
    List.forall₂_take_append _ _ _ hall, List.forall₂_drop_append _ _ _ hall⟩

theorem exists_append_of_forall₂ {first second : List α} {others : List β}
    (hall : List.Forall₂ relation (first ++ second) others) :
    ∃ before behind, others = before ++ behind ∧ List.Forall₂ relation first before ∧
      List.Forall₂ relation second behind := by
  obtain ⟨before, behind, rfl, hbefore, hbehind⟩ := exists_append_of_forall₂_right hall.flip
  exact ⟨before, behind, rfl, hbefore.flip, hbehind.flip⟩

theorem forall₂_of_append {first second : List α} {before behind : List β}
    (hall : List.Forall₂ relation (first ++ second) (before ++ behind))
    (hlength : first.length = before.length) :
    List.Forall₂ relation first before ∧ List.Forall₂ relation second behind := by
  obtain ⟨before', behind', hothers, hfirst, hsecond⟩ := exists_append_of_forall₂ hall
  obtain ⟨rfl, rfl⟩ := List.append_inj hothers (hlength.symm.trans hfirst.length_eq)
  exact ⟨hfirst, hsecond⟩

theorem exists_concat_of_forall₂ {last : α} {items : List α} {others : List β}
    (hall : List.Forall₂ relation (items ++ [last]) others) :
    ∃ earlier other, others = earlier ++ [other] ∧ List.Forall₂ relation items earlier ∧
      relation last other := by
  obtain ⟨earlier, later, rfl, hearlier, hlater⟩ := exists_append_of_forall₂ hall
  obtain ⟨other, rest, hlast, hrest, rfl⟩ := List.forall₂_cons_left_iff.mp hlater
  obtain rfl := List.forall₂_nil_left_iff.mp hrest
  exact ⟨earlier, other, rfl, hearlier, hlast⟩

theorem eq_of_mem_flatMap {items : List α} {row : α → List β} (hnodup : (items.flatMap row).Nodup)
    {first second : α} (hfirst : first ∈ items) (hsecond : second ∈ items) {item : β}
    (hitem : item ∈ row first) (hitem' : item ∈ row second) : first = second := by
  have : Std.Symm (Function.onFun List.Disjoint row) :=
    ⟨fun _ _ hdisjoint _ hleft hright => hdisjoint hright hleft⟩
  by_contra hne
  exact (List.nodup_flatMap.mp hnodup).2.forall hfirst hsecond hne hitem hitem'

/-- A row of images is the image of a row. -/
theorem exists_map_eq_of_subset {f : α → β} {items : List α} {row : List β}
    (hsubset : row ⊆ items.map f) : ∃ chosen, chosen ⊆ items ∧ chosen.map f = row := by
  induction row with
  | nil => exact ⟨[], List.nil_subset _, rfl⟩
  | cons first row ih =>
    obtain ⟨hfirst, hrow⟩ := List.cons_subset.mp hsubset
    obtain ⟨item, hitem, rfl⟩ := List.mem_map.mp hfirst
    obtain ⟨chosen, hchosen, rfl⟩ := ih hrow
    exact ⟨item :: chosen, List.cons_subset.mpr ⟨hitem, hchosen⟩, rfl⟩

/-- If each item of a row is the image of something good, then the row is the image of a row of good
things. -/
theorem exists_map_eq_of_forall {f : α → β} {good : α → Prop} {row : List β}
    (hrow : ∀ image ∈ row, ∃ item, f item = image ∧ good item) :
    ∃ items : List α, items.map f = row ∧ ∀ item ∈ items, good item := by
  induction row with
  | nil => exact ⟨[], rfl, nofun⟩
  | cons first row ih =>
    obtain ⟨⟨item, hfirst, hitem⟩, hrest⟩ := List.forall_mem_cons.mp hrow
    obtain ⟨items, rfl, hitems⟩ := ih hrest
    subst hfirst
    exact ⟨item :: items, rfl, List.forall_mem_cons.mpr ⟨hitem, hitems⟩⟩

end ShaderIR
