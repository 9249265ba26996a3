import ShaderIR.Graph.Flow
import ShaderIR.Proofs.Outline.Order

/-!
Control between statements. `Code.Leads` says that control can go from one statement of a list
directly to another one, or to what comes after the list. It always goes forward in the text
(`Code.Leads.sublist`), and every list leads on to what comes after it (`Code.exists_leads_after`).
When it is the only way out of the one statement and the only way into the other, the two are
neighbours in the text: one behind the other in a list, or one at the top of a body of the other
(`Code.Chained.nextTo`).
-/

set_option autoImplicit false

namespace ShaderIR

namespace Code

/-- Where control goes in front of a list: to its first statement, or else to what comes after
it. -/
def entry (code : Code) (after : Option NodeId) : Option NodeId :=
  code.heads.head?.or after

/-- Control can go from one statement directly to another one, or to what comes after the list.
Loops and returns have no place in a graph, and nothing is said of them. -/
def Leads (source target : NodeId) : Option NodeId → Code → Prop
  | _, nil => False
  | after, step statement rest =>
    (source = statement.id ∧ rest.entry after = some target) ∨ rest.Leads source target after
  | after, branch statement thenBody elseBody rest =>
    (source = statement.id ∧ target ∈
        Graph.branchTargets thenBody.heads.head? elseBody.heads.head? (rest.entry after)) ∨
      thenBody.Leads source target (rest.entry after) ∨
      elseBody.Leads source target (rest.entry after) ∨ rest.Leads source target after
  | _, loop .. => False

/-- There is no loop in the code. -/
def Loopless : Code → Prop
  | nil => True
  | step _ rest => rest.Loopless
  | branch _ thenBody elseBody rest => thenBody.Loopless ∧ elseBody.Loopless ∧ rest.Loopless
  | loop .. => False

variable {code part : Code} {after after' : Option NodeId} {source target : NodeId}

theorem entry_mem (hentry : code.entry after = some target) :
    target ∈ code.order ++ after.toList := by
  unfold entry at hentry
  rw [List.mem_append, Option.mem_toList]
  cases hhead : code.heads.head? with
  | none => exact Or.inr (by simpa [hhead] using hentry)
  | some head =>
    obtain rfl : head = target := by simpa [hhead] using hentry
    exact Or.inl (code.heads_subset_order (List.mem_of_head? hhead))

theorem toList_entry_sublist (code : Code) (after : Option NodeId) :
    (code.entry after).toList.Sublist (code.order ++ after.toList) := by
  cases hentry : code.entry after with
  | none => exact List.nil_sublist _
  | some target => exact List.singleton_sublist.mpr (entry_mem hentry)

theorem mem_branchTargets_iff {α : Type} {first second next : Option α} {target : α} :
    target ∈ Graph.branchTargets first second next ↔
      target ∈ first.toList ∨ target ∈ second.toList ∨
      ((first = none ∨ second = none) ∧ target ∈ next.toList) := by
  cases first <;> cases second <;> simp [Graph.branchTargets]

theorem mem_branchTargets {α : Type} {first second next : Option α} {target : α}
    (htarget : target ∈ Graph.branchTargets first second next) :
    first = some target ∨ second = some target ∨ next = some target := by
  simpa using (mem_branchTargets_iff.mp htarget).imp_right (Or.imp_right And.right)

/-! ### Parts -/

/-- A code with what comes after it is a body in another code, or the rest of it. -/
inductive Part : Option NodeId → Code → Option NodeId → Code → Prop
  | afterStep (after : Option NodeId) (statement : Tree) (rest : Code) :
    Part after (step statement rest) after rest
  | thenBody (after : Option NodeId) (statement : Tree) (thenBody elseBody rest : Code) :
    Part after (branch statement thenBody elseBody rest) (rest.entry after) thenBody
  | elseBody (after : Option NodeId) (statement : Tree) (thenBody elseBody rest : Code) :
    Part after (branch statement thenBody elseBody rest) (rest.entry after) elseBody
  | afterBranch (after : Option NodeId) (statement : Tree) (thenBody elseBody rest : Code) :
    Part after (branch statement thenBody elseBody rest) after rest

theorem Part.leads (hpart : Part after code after' part)
    (hleads : part.Leads source target after') :
    code.Leads source target after := by
  cases hpart with
  | afterStep => exact Or.inr hleads
  | thenBody => exact Or.inr (Or.inl hleads)
  | elseBody => exact Or.inr (Or.inr (Or.inl hleads))
  | afterBranch => exact Or.inr (Or.inr (Or.inr hleads))

theorem Part.loopless (hpart : Part after code after' part) (hloopless : code.Loopless) :
    part.Loopless := by
  cases hpart with
  | afterStep => exact hloopless
  | thenBody => exact hloopless.1
  | elseBody => exact hloopless.2.1
  | afterBranch => exact hloopless.2.2

/-- A part stands behind the first statement. -/
theorem Part.sublist (hpart : Part after code after' part) :
    (part.order ++ after'.toList).Sublist (code.order.tail ++ after.toList) := by
  cases hpart with
  | afterStep => exact List.Sublist.refl _
  | thenBody statement thenBody elseBody rest =>
    rw [order_branch, List.tail_cons, List.append_assoc, List.append_assoc]
    exact (List.Sublist.refl _).append
      ((rest.toList_entry_sublist after).trans (List.sublist_append_right _ _))
  | elseBody statement thenBody elseBody rest =>
    rw [order_branch, List.tail_cons, List.append_assoc, List.append_assoc]
    exact ((List.Sublist.refl _).append (rest.toList_entry_sublist after)).trans
      (List.sublist_append_right _ _)
  | afterBranch statement thenBody elseBody rest =>
    rw [order_branch, List.tail_cons]
    exact (List.sublist_append_right _ _).append (List.Sublist.refl _)

theorem Part.subset_tail (hpart : Part after code after' part) : part.order ⊆ code.order.tail := by
  cases hpart <;> simp

/-! ### Control goes forward -/

theorem Leads.sublist (hleads : code.Leads source target after) :
    [source, target].Sublist (code.order ++ after.toList) := by
  induction code generalizing after with
  | nil => exact hleads.elim
  | step statement rest ih =>
    rw [order_step, List.cons_append]
    rcases hleads with ⟨rfl, hentry⟩ | hleads
    · exact (List.singleton_sublist.mpr (entry_mem hentry)).cons_cons _
    · exact (ih hleads).cons _
  | branch statement thenBody elseBody rest ihthen ihelse ih =>
    have hpart {after' : Option NodeId} {part : Code}
        (hpart : Part after (branch statement thenBody elseBody rest) after' part)
        (hsublist : [source, target].Sublist (part.order ++ after'.toList)) :
        [source, target].Sublist
          (order (branch statement thenBody elseBody rest) ++ after.toList) := by
      refine hsublist.trans (hpart.sublist.trans ?_)
      exact (List.tail_sublist _).append (List.Sublist.refl _)
    rcases hleads with ⟨rfl, htarget⟩ | hleads | hleads | hleads
    · rw [order_branch, List.cons_append]
      refine (List.singleton_sublist.mpr ?_).cons_cons _
      rcases mem_branchTargets htarget with hhead | hhead | hentry
      · have := thenBody.heads_subset_order (List.mem_of_head? hhead)
        simp [this]
      · have := elseBody.heads_subset_order (List.mem_of_head? hhead)
        simp [this]
      · have := entry_mem hentry
        simp only [List.mem_append] at this ⊢
        tauto
    · exact hpart (.thenBody ..) (ihthen hleads)
    · exact hpart (.elseBody ..) (ihelse hleads)
    · exact hpart (.afterBranch ..) (ih hleads)
  | loop => exact hleads.elim

theorem Leads.source_mem (hleads : code.Leads source target after) : source ∈ code.order := by
  induction code generalizing after with
  | nil => exact hleads.elim
  | step statement rest ih =>
    rcases hleads with ⟨rfl, -⟩ | hleads
    · exact List.mem_cons_self
    · exact List.mem_cons_of_mem _ (ih hleads)
  | branch statement thenBody elseBody rest ihthen ihelse ih =>
    rw [order_branch, List.mem_cons, List.mem_append, List.mem_append]
    rcases hleads with ⟨rfl, -⟩ | hleads | hleads | hleads
    · exact Or.inl rfl
    · exact Or.inr (Or.inl (Or.inl (ihthen hleads)))
    · exact Or.inr (Or.inl (Or.inr (ihelse hleads)))
    · exact Or.inr (Or.inr (ih hleads))
  | loop => exact hleads.elim

theorem Leads.target_mem (hleads : code.Leads source target none) : target ∈ code.order := by
  have hmem := hleads.sublist.subset (List.mem_cons_of_mem _ List.mem_cons_self)
  rwa [Option.toList_none, List.append_nil] at hmem

/-- Control never goes back to the first statement. -/
theorem Leads.target_mem_tail (hleads : code.Leads source target after) :
    target ∈ code.order.tail ++ after.toList := by
  have hsublist := hleads.sublist
  have hsource := hleads.source_mem
  cases hcode : code.order with
  | nil =>
    rw [hcode] at hsource
    cases hsource
  | cons first rest =>
    rw [hcode, List.cons_append] at hsublist
    exact List.singleton_sublist.mp hsublist.tail

/-- A list leads on to what comes after it. -/
theorem exists_leads_after (hloopless : code.Loopless) (hheads : code.heads ≠ []) :
    ∃ source, code.Leads source target (some target) := by
  induction code with
  | nil => exact absurd rfl hheads
  | step statement rest ih =>
    by_cases hrest : rest.heads = []
    · exact ⟨statement.id, Or.inl ⟨rfl, by simp [entry, hrest]⟩⟩
    · obtain ⟨source, hleads⟩ := ih hloopless hrest
      exact ⟨source, Or.inr hleads⟩
  | branch statement thenBody elseBody rest ihthen ihelse ih =>
    by_cases hrest : rest.heads = []
    · have hentry : rest.entry (some target) = some target := by simp [entry, hrest]
      by_cases hthen : thenBody.heads = []
      · refine ⟨statement.id, Or.inl ⟨rfl, ?_⟩⟩
        rw [hentry, hthen]
        cases elseBody.heads <;> simp [Graph.branchTargets]
      · obtain ⟨source, hleads⟩ := ihthen hloopless.1 hthen
        exact ⟨source, Or.inr (Or.inl (hentry.symm ▸ hleads))⟩
    · obtain ⟨source, hleads⟩ := ih hloopless.2.2 hrest
      exact ⟨source, Or.inr (Or.inr (Or.inr hleads))⟩
  | loop => exact hloopless.elim

/-! ### What a part says of the whole -/

theorem Part.leads_iff_of_source (hpart : Part after code after' part) (hnodup : code.order.Nodup)
    (hsource : source ∈ part.order) :
    code.Leads source target after ↔ part.Leads source target after' := by
  refine ⟨fun hleads => ?_, hpart.leads⟩
  cases hpart with
  | afterStep statement rest =>
    rcases hleads with ⟨rfl, -⟩ | hleads
    · exact absurd hsource (List.nodup_cons.mp hnodup).1
    · exact hleads
  | thenBody statement thenBody elseBody rest | elseBody statement thenBody elseBody rest
  | afterBranch statement thenBody elseBody rest =>
    simp only [order_branch, List.nodup_cons, List.mem_append, List.nodup_append'] at hnodup
    obtain ⟨hfirst, ⟨-, -, hbodies⟩, -, hrest⟩ := hnodup
    rcases hleads with ⟨rfl, -⟩ | hleads | hleads | hleads
    · exact absurd (by tauto) hfirst
    all_goals
      have hmem := hleads.source_mem
      first
      | exact hleads
      | exact absurd hmem (hbodies hsource)
      | exact absurd hsource (hbodies hmem)
      | exact absurd hsource (hrest (by simp [hmem]))
      | exact absurd hmem (hrest (by simp [hsource]))

theorem entry_eq_some_iff : code.entry after = some target ↔
    code.order.head? = some target ∨ (code.order = [] ∧ after = some target) := by
  rw [entry, ← head?_order]
  cases code.order <;> simp

private theorem head?_not_mem_tail (hnodup : code.order.Nodup)
    (hhead : code.order.head? = some target) :
    target ∉ code.order.tail := by
  cases horder : code.order with
  | nil => simp
  | cons first rest =>
    rw [horder] at hnodup hhead
    obtain rfl : first = target := by simpa using hhead
    exact (List.nodup_cons.mp hnodup).1

theorem Part.leads_iff_of_target (hpart : Part after code after' part)
    (hnodup : (code.order ++ after.toList).Nodup) (htarget : target ∈ part.order.tail) :
    code.Leads source target after ↔ part.Leads source target after' := by
  refine ⟨fun hleads => ?_, hpart.leads⟩
  have hhead (piece : Code) : piece.order.Nodup → piece.order.head? = some target →
      target ∉ piece.order.tail := head?_not_mem_tail
  have hmem (piece : Code) (_ : target ∈ piece.order.tail) : target ∈ piece.order :=
    List.mem_of_mem_tail ‹_›
  have hmem' (piece : Code) (_ : piece.order.head? = some target) : target ∈ piece.order :=
    List.mem_of_head? ‹_›
  cases hpart with
  | afterStep =>
    rcases hleads with ⟨-, hentry⟩ | hleads
    · rw [entry_eq_some_iff] at hentry
      simp only [order_step, List.cons_append, List.nodup_cons, List.nodup_append',
        List.disjoint_left, Option.mem_toList] at hnodup
      grind
    · exact hleads
  | thenBody | elseBody | afterBranch =>
    simp only [order_branch, List.cons_append, List.nodup_cons, List.nodup_append',
      List.disjoint_left, List.mem_append, Option.mem_toList] at hnodup
    rcases hleads with ⟨-, hbranch⟩ | hleads | hleads | hleads
    · have hbranch := mem_branchTargets hbranch
      rw [entry_eq_some_iff, ← head?_order, ← head?_order] at hbranch
      grind
    all_goals
      have hlast := hleads.target_mem_tail
      first
      | exact hleads
      | simp only [List.mem_append, Option.mem_toList, entry_eq_some_iff] at hlast
        grind

/-! ### Neighbours -/

/-- One statement stands right behind the other in a list, or at the top of a body of it. -/
def Adjoining (code : Code) (first second : NodeId) : Prop :=
  (∃ before later, code.heads = before ++ first :: second :: later) ∨
    ∃ entry ∈ code.bodies, (∃ before later, entry.2 = before ++ first :: second :: later) ∨
      entry.1.owner? = some first ∧ entry.2.head? = some second

theorem Part.adjoining (hpart : Part after code after' part) {first second : NodeId}
    (hadjoining : part.Adjoining first second) : code.Adjoining first second := by
  -- a list of the part is a list of the whole, and the rest of a list is the end of one
  have hbodies (hinner : ∀ entry ∈ part.bodies, entry ∈ code.bodies)
      (hheads : (∃ before, code.heads = before ++ part.heads) ∨
        ∃ entry ∈ code.bodies, entry.2 = part.heads) : code.Adjoining first second := by
    rcases hadjoining with ⟨before, later, hlist⟩ | ⟨entry, hentry, hplace⟩
    · rcases hheads with ⟨earlier, hheads⟩ | ⟨entry, hentry, hheads⟩
      · exact Or.inl ⟨earlier ++ before, later, by rw [hheads, hlist, List.append_assoc]⟩
      · exact Or.inr ⟨entry, hentry, Or.inl ⟨before, later, hheads.trans hlist⟩⟩
    · exact Or.inr ⟨entry, hinner entry hentry, hplace⟩
  cases hpart with
  | afterStep statement => exact hbodies (fun _ hentry => hentry) (Or.inl ⟨[statement.id], rfl⟩)
  | thenBody statement =>
    refine hbodies (fun _ hentry => ?_) (Or.inr ⟨(.thenBody statement.id, _), ?_, rfl⟩) <;>
      simp [bodies, *]
  | elseBody statement =>
    refine hbodies (fun _ hentry => ?_) (Or.inr ⟨(.elseBody statement.id, _), ?_, rfl⟩) <;>
      simp [bodies, *]
  | afterBranch statement =>
    refine hbodies (fun _ hentry => ?_) (Or.inl ⟨[statement.id], rfl⟩)
    simp [bodies, *]

theorem Part.infix (hpart : Part after code after' part) :
    ∃ before later, code.order = before ++ part.order ++ later := by
  cases hpart with
  | afterStep statement => exact ⟨[statement.id], [], by simp⟩
  | thenBody statement _ elseBody rest =>
    exact ⟨[statement.id], elseBody.order ++ rest.order, by simp⟩
  | elseBody statement thenBody _ rest =>
    exact ⟨statement.id :: thenBody.order, rest.order, by simp⟩
  | afterBranch statement thenBody elseBody =>
    exact ⟨statement.id :: (thenBody.order ++ elseBody.order), [], by simp⟩

/-- Neighbours in a list or in a body stand side by side in the text as well. -/
structure NextTo (code : Code) (first second : NodeId) : Prop where
  adjoining : code.Adjoining first second
  order_eq : ∃ before later, code.order = before ++ first :: second :: later

theorem Part.nextTo (hpart : Part after code after' part) {first second : NodeId}
    (hnext : part.NextTo first second) : code.NextTo first second := by
  obtain ⟨before, later, horder⟩ := hnext.order_eq
  obtain ⟨before', later', horder'⟩ := hpart.infix
  exact ⟨hpart.adjoining hnext.adjoining, before' ++ before, later ++ later', by
    rw [horder', horder]; simp⟩

/-- Control goes from one statement to the other and nowhere else, and comes to the other from
nowhere else. -/
structure Chained (code : Code) (after : Option NodeId) (source target : NodeId) : Prop where
  leads : code.Leads source target after
  only : ∀ other, code.Leads source other after → other = target
  sole : ∀ other, code.Leads other target after → other = source

theorem Part.chained (hpart : Part after code after' part)
    (hchained : code.Chained after source target)
    (hleads : part.Leads source target after') : part.Chained after' source target where
  leads := hleads
  only other hother := hchained.only other (hpart.leads hother)
  sole other hother := hchained.sole other (hpart.leads hother)

theorem Part.nodup (hpart : Part after code after' part)
    (hnodup : (code.order ++ after.toList).Nodup) :
    (part.order ++ after'.toList).Nodup :=
  hnodup.sublist (hpart.sublist.trans ((List.tail_sublist _).append (List.Sublist.refl _)))

/-- What comes after a conditional is reached from outside of either body, past a missing body or
from the other one. -/
theorem exists_leads_entry {statement : Tree} {thenBody elseBody rest : Code}
    (hloopless : (branch statement thenBody elseBody rest).Loopless)
    (hnodup : (branch statement thenBody elseBody rest).order.Nodup)
    (hentry : rest.entry after = some target) :
    (∃ other, other ∉ thenBody.order ∧
        (branch statement thenBody elseBody rest).Leads other target after) ∧
      ∃ other, other ∉ elseBody.order ∧
        (branch statement thenBody elseBody rest).Leads other target after := by
  simp only [order_branch, List.nodup_cons, List.mem_append, not_or, List.nodup_append'] at hnodup
  obtain ⟨⟨⟨hthen, helse⟩, -⟩, ⟨-, -, hbodies⟩, -, -⟩ := hnodup
  constructor
  · by_cases hmissing : elseBody.heads = []
    · refine ⟨statement.id, hthen, Or.inl ⟨rfl, ?_⟩⟩
      rw [hmissing, hentry]
      cases thenBody.heads <;> simp [Graph.branchTargets]
    · obtain ⟨other, hleads⟩ := exists_leads_after hloopless.2.1 hmissing
      exact ⟨other, fun hmem => hbodies hmem hleads.source_mem,
        Or.inr (Or.inr (Or.inl (hentry.symm ▸ hleads)))⟩
  · by_cases hmissing : thenBody.heads = []
    · refine ⟨statement.id, helse, Or.inl ⟨rfl, ?_⟩⟩
      rw [hmissing, hentry]
      cases elseBody.heads <;> simp [Graph.branchTargets]
    · obtain ⟨other, hleads⟩ := exists_leads_after hloopless.1 hmissing
      exact ⟨other, fun hmem => hbodies hleads.source_mem hmem,
        Or.inr (Or.inl (hentry.symm ▸ hleads))⟩

/-- A conditional is chained to the top of its only body, or to what stands behind it if it has
none. -/
theorem Chained.nextTo_of_branch {statement : Tree} {thenBody elseBody rest : Code}
    (hchained : (branch statement thenBody elseBody rest).Chained after statement.id target)
    (hnodup : ((branch statement thenBody elseBody rest).order ++ after.toList).Nodup)
    (hbehind : target ∉ after.toList) (hmem : target ∈
      Graph.branchTargets thenBody.heads.head? elseBody.heads.head? (rest.entry after)) :
    (branch statement thenBody elseBody rest).NextTo statement.id target := by
  have honly (other : NodeId) (hother : other ∈
      Graph.branchTargets thenBody.heads.head? elseBody.heads.head? (rest.entry after)) :
      other = target := hchained.only other (Or.inl ⟨rfl, hother⟩)
  simp only [order_branch, List.cons_append, List.nodup_cons, List.nodup_append',
    List.disjoint_append_left] at hnodup
  obtain ⟨-, ⟨⟨-, -, hbodies⟩, -, hthenRest, helseRest⟩, -, hafter⟩ := hnodup
  have hrest {other : NodeId} (hentry : rest.entry after = some other) :
      other ∈ rest.order ∨ other ∈ after.toList := List.mem_append.mp (entry_mem hentry)
  cases hthen : thenBody.heads with
  | nil =>
    have hthenOrder : thenBody.order = [] := by
      rw [← List.head?_eq_none_iff, head?_order, hthen, List.head?_nil]
    cases helse : elseBody.heads with
    | nil =>
      have helseOrder : elseBody.order = [] := by
        rw [← List.head?_eq_none_iff, head?_order, helse, List.head?_nil]
      rw [hthen, helse] at hmem
      have hentry : rest.entry after = some target := by simpa [Graph.branchTargets] using hmem
      rcases entry_eq_some_iff.mp hentry with hhead | ⟨-, rfl⟩
      · obtain ⟨later, horder⟩ := List.head?_eq_some_iff.mp hhead
        obtain ⟨later', hheads⟩ := List.head?_eq_some_iff.mp (rest.head?_order ▸ hhead)
        exact ⟨Or.inl ⟨[], later', by simp [heads, hheads]⟩, [], later, by
          simp [horder, hthenOrder, helseOrder]⟩
      · exact absurd (by simp) hbehind
    | cons first others =>
      obtain rfl : first = target := honly first (by simp [hthen, helse, Graph.branchTargets])
      obtain ⟨later, horder⟩ := List.head?_eq_some_iff.mp
        (elseBody.head?_order.trans (by rw [helse, List.head?_cons]))
      exact ⟨Or.inr ⟨(.elseBody statement.id, elseBody.heads), by simp [bodies],
        Or.inr ⟨rfl, by simp [helse]⟩⟩, [], later ++ rest.order, by simp [horder, hthenOrder]⟩
  | cons first others =>
    obtain rfl : first = target := honly first (by
      rw [hthen]
      cases elseBody.heads <;> simp [Graph.branchTargets])
    obtain ⟨later, horder⟩ := List.head?_eq_some_iff.mp
      (thenBody.head?_order.trans (by rw [hthen, List.head?_cons]))
    exact ⟨Or.inr ⟨(.thenBody statement.id, thenBody.heads), by simp [bodies],
      Or.inr ⟨rfl, by simp [hthen]⟩⟩, [], later ++ elseBody.order ++ rest.order, by simp [horder]⟩

theorem Chained.nextTo (hchained : code.Chained after source target) (hloopless : code.Loopless)
    (hnodup : (code.order ++ after.toList).Nodup) (htarget : target ∈ code.order) :
    code.NextTo source target := by
  induction code generalizing after with
  | nil => exact hchained.leads.elim
  | step statement rest ih =>
    have hpart := Part.afterStep after statement rest
    have hbehind : target ∉ after.toList := List.disjoint_of_nodup_append hnodup htarget
    rcases hchained.leads with ⟨rfl, hentry⟩ | hleads
    · rcases entry_eq_some_iff.mp hentry with hhead | ⟨-, rfl⟩
      · obtain ⟨later, horder⟩ := List.head?_eq_some_iff.mp hhead
        obtain ⟨later', hheads⟩ := List.head?_eq_some_iff.mp (rest.head?_order ▸ hhead)
        exact ⟨Or.inl ⟨[], later', by simp [heads, hheads]⟩, [], later, by simp [horder]⟩
      · exact absurd (by simp) hbehind
    · have hrest : target ∈ rest.order :=
        (List.mem_append.mp hleads.target_mem_tail).elim List.mem_of_mem_tail fun h =>
          absurd h hbehind
      exact hpart.nextTo (ih (hpart.chained hchained hleads) hloopless (hpart.nodup hnodup) hrest)
  | branch statement thenBody elseBody rest ihthen ihelse ih =>
    have hbehind : target ∉ after.toList := List.disjoint_of_nodup_append hnodup htarget
    have hown := (List.nodup_append'.mp hnodup).1
    have hinside {after' : Option NodeId} {part : Code} (hleads : part.Leads source target after') :
        target ∈ part.order ∨ target ∈ after'.toList :=
      (List.mem_append.mp hleads.target_mem_tail).imp_left List.mem_of_mem_tail
    rcases hchained.leads with ⟨rfl, hmem⟩ | hleads | hleads | hleads
    · exact hchained.nextTo_of_branch hnodup hbehind hmem
    · have hpart := Part.thenBody after statement thenBody elseBody rest
      rcases hinside hleads with hmem | hentry
      · exact hpart.nextTo (ihthen (hpart.chained hchained hleads) hloopless.1
          (hpart.nodup hnodup) hmem)
      · obtain ⟨⟨other, hother, hinto⟩, -⟩ :=
          exists_leads_entry hloopless hown (Option.mem_toList.mp hentry)
        exact absurd (hchained.sole other hinto ▸ hleads.source_mem) hother
    · have hpart := Part.elseBody after statement thenBody elseBody rest
      rcases hinside hleads with hmem | hentry
      · exact hpart.nextTo (ihelse (hpart.chained hchained hleads) hloopless.2.1
          (hpart.nodup hnodup) hmem)
      · obtain ⟨-, other, hother, hinto⟩ :=
          exists_leads_entry hloopless hown (Option.mem_toList.mp hentry)
        exact absurd (hchained.sole other hinto ▸ hleads.source_mem) hother
    · have hpart := Part.afterBranch after statement thenBody elseBody rest
      have hmem := (hinside hleads).resolve_right hbehind
      exact hpart.nextTo (ih (hpart.chained hchained hleads) hloopless.2.2
        (hpart.nodup hnodup) hmem)
  | loop => exact hchained.leads.elim

end Code

end ShaderIR
