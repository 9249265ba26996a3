import ShaderIR.Proofs.Graph.Layout

/-!
Codes in which rows of statements stand for single ones. A pass that puts statements next to others
turns a list into one in which each statement has become a row: `Code.Expands` says so of a code and
of all bodies inside it. Inside a row control goes from one statement to the next, and between rows
it goes where it went before (`Code.Expands.leads_iff`), so that the ends of two rows are chained
exactly when the statements that they stand for were (`Code.Expands.chained_ends_iff`).
-/

set_option autoImplicit false

namespace ShaderIR

variable {row : NodeId → List NodeId}

/-- The first of the statements that stand for one. -/
def firstOf (row : NodeId → List NodeId) (statement : NodeId) : NodeId :=
  (row statement).headD statement

/-- The last of the statements that stand for one. -/
def lastOf (row : NodeId → List NodeId) (statement : NodeId) : NodeId :=
  (row statement).getLastD statement

theorem head?_eq_firstOf {statement : NodeId} (hrow : row statement ≠ []) :
    (row statement).head? = some (firstOf row statement) := by
  obtain ⟨first, later, hlist⟩ := List.exists_cons_of_ne_nil hrow
  rw [firstOf, hlist]
  rfl

theorem getLast?_eq_lastOf {statement : NodeId} (hrow : row statement ≠ []) :
    (row statement).getLast? = some (lastOf row statement) := by
  obtain ⟨earlier, last, hlist⟩ := (List.eq_nil_or_concat' (row statement)).resolve_left hrow
  rw [lastOf, hlist]
  simp

theorem firstOf_mem {statement : NodeId} (hrow : row statement ≠ []) :
    firstOf row statement ∈ row statement :=
  List.mem_of_head? (head?_eq_firstOf hrow)

theorem lastOf_mem {statement : NodeId} (hrow : row statement ≠ []) :
    lastOf row statement ∈ row statement :=
  List.mem_of_getLast? (getLast?_eq_lastOf hrow)

theorem head?_flatMap_row {statements : List NodeId}
    (hrows : ∀ statement ∈ statements, row statement ≠ []) :
    (statements.flatMap row).head? = statements.head?.map (firstOf row) := by
  cases statements with
  | nil => rfl
  | cons first rest =>
    rw [List.flatMap_cons, List.head?_append, head?_eq_firstOf (hrows first List.mem_cons_self)]
    rfl

theorem getLast?_flatMap_row {statements : List NodeId}
    (hrows : ∀ statement ∈ statements, row statement ≠ []) :
    (statements.flatMap row).getLast? = statements.getLast?.map (lastOf row) := by
  rcases List.eq_nil_or_concat' statements with rfl | ⟨earlier, last, rfl⟩
  · rfl
  · rw [List.flatMap_append, List.flatMap_singleton, List.getLast?_append,
      getLast?_eq_lastOf (hrows last (by simp)), List.getLast?_concat]
    rfl

/-! ### Statements side by side -/

section Infix

variable {α : Type} {first second : α} {items : List α}

theorem adjacent_cons_iff {head : α} :
    [first, second] <:+: head :: items ↔
      (first = head ∧ items.head? = some second) ∨ [first, second] <:+: items := by
  rw [List.infix_cons_iff, List.cons_prefix_cons]
  refine or_congr_left (and_congr_right fun _ => ?_)
  cases items with
  | nil => simp
  | cons next items => simp [eq_comm]

theorem adjacent_append_toList_iff (hitems : items ≠ []) {behind : Option α} :
    [first, second] <:+: items ++ behind.toList ↔
      [first, second] <:+: items ∨ (items.getLast? = some first ∧ behind = some second) := by
  induction items with
  | nil => exact absurd rfl hitems
  | cons head items ih =>
    rw [List.cons_append, adjacent_cons_iff, adjacent_cons_iff]
    by_cases hrest : items = []
    · subst hrest
      have hnone : ¬ [first, second] <:+: ([] : List α) := by simp
      rw [List.nil_append, Option.head?_toList, List.getLast?_singleton, Option.some.injEq]
      cases behind <;> grind [adjacent_cons_iff, Option.toList_none, Option.toList_some]
    · rw [ih hrest, List.head?_append_of_ne_nil _ hrest, List.getLast?_cons_of_ne_nil hrest,
        or_assoc]

theorem mem_of_adjacent (hpair : [first, second] <:+: items) : first ∈ items ∧ second ∈ items :=
  ⟨hpair.subset List.mem_cons_self, hpair.subset (by simp)⟩

section Nodup

variable (hnodup : items.Nodup) (hpair : [first, second] <:+: items)

include hnodup hpair

theorem getLast?_ne_of_adjacent : items.getLast? ≠ some first := by
  obtain ⟨before, later, rfl⟩ := hpair
  intro hlast
  have hmem := List.mem_of_getLast? (by simpa using hlast : (second :: later).getLast? = some first)
  rw [List.append_assoc] at hnodup
  exact (List.nodup_cons.mp (List.nodup_append'.mp hnodup).2.1).1 hmem

theorem head?_ne_of_adjacent : items.head? ≠ some second := by
  cases items with
  | nil => simp
  | cons head items =>
    intro hhead
    obtain rfl := Option.some.inj hhead
    refine (List.nodup_cons.mp hnodup).1 ?_
    rcases adjacent_cons_iff.mp hpair with ⟨-, hnext⟩ | hpair
    · exact List.mem_of_head? hnext
    · exact (mem_of_adjacent hpair).2

theorem eq_of_adjacent_right {other : α} (hother : [first, other] <:+: items) : other = second := by
  induction items with
  | nil => simp at hpair
  | cons head items ih =>
    obtain ⟨hhead, hitems⟩ := List.nodup_cons.mp hnodup
    rcases adjacent_cons_iff.mp hpair with ⟨hfirst, hnext⟩ | hinside <;>
      rcases adjacent_cons_iff.mp hother with ⟨hfirst', hnext'⟩ | hinside'
    · exact Option.some.inj (hnext'.symm.trans hnext)
    · exact absurd (hfirst ▸ (mem_of_adjacent hinside').1) hhead
    · exact absurd (hfirst' ▸ (mem_of_adjacent hinside).1) hhead
    · exact ih hitems hinside hinside'

theorem eq_of_adjacent_left {other : α} (hother : [other, second] <:+: items) : other = first := by
  induction items with
  | nil => simp at hpair
  | cons head items ih =>
    obtain ⟨-, hitems⟩ := List.nodup_cons.mp hnodup
    rcases adjacent_cons_iff.mp hpair with ⟨hfirst, hnext⟩ | hinside <;>
      rcases adjacent_cons_iff.mp hother with ⟨hother', hnext'⟩ | hinside'
    · exact hother'.trans hfirst.symm
    · exact absurd hnext (head?_ne_of_adjacent hitems hinside')
    · exact absurd hnext' (head?_ne_of_adjacent hitems hinside)
    · exact ih hitems hinside hinside'

end Nodup

end Infix

namespace Code

variable {code code' rest : Code} {after : Option NodeId} {source target : NodeId}

/-! ### Statements in front of a list -/

@[simp] theorem order_prepend (steps : List Tree) (code : Code) :
    (prepend steps code).order = steps.map Tree.id ++ code.order := by
  simp [order]

@[simp] theorem bodies_prepend (steps : List Tree) (code : Code) :
    (prepend steps code).bodies = code.bodies := by
  induction steps with
  | nil => rfl
  | cons step steps ih => exact ih

@[simp] theorem depth_prepend (steps : List Tree) (code : Code) :
    (prepend steps code).depth = code.depth := by
  induction steps with
  | nil => rfl
  | cons step steps ih => exact ih

@[simp] theorem loopless_prepend {steps : List Tree} {code : Code} :
    (prepend steps code).Loopless ↔ code.Loopless := by
  induction steps with
  | nil => rfl
  | cons step steps ih => exact ih

theorem entry_prepend (steps : List Tree) (code : Code) (after : Option NodeId) :
    (prepend steps code).entry after = (steps.map Tree.id ++ (code.entry after).toList).head? := by
  cases steps with
  | nil => cases hentry : code.entry after <;> simp [hentry]
  | cons step steps => simp [entry, heads]

theorem leads_prepend_iff {steps : List Tree} : (prepend steps code).Leads source target after ↔
    [source, target] <:+: steps.map Tree.id ++ (code.entry after).toList ∨
      code.Leads source target after := by
  induction steps with
  | nil =>
    have hnone : ¬ [source, target] <:+: (code.entry after).toList := fun hpair => by
      have hlength := hpair.length_le
      cases hentry : code.entry after <;> simp [hentry] at hlength
    simp [hnone]
  | cons step steps ih =>
    rw [prepend_cons, Leads, ih, entry_prepend, List.map_cons, List.cons_append, adjacent_cons_iff,
      or_assoc]

/-! ### Rows for statements -/

/-- The second code is the first one with rows in the places of statements; all statements of a row
are without bodies, but for the last one of a row that stands for a control statement, which is that
one. -/
inductive Expands (row : NodeId → List NodeId) : Code → Code → Prop
  | nil : Expands row nil nil
  | step {statement : Tree} {steps : List Tree} {rest rest' : Code}
    (hrow : row statement.id = steps.map Tree.id)
    (hsteps : steps ≠ []) (hrest : Expands row rest rest') :
    Expands row (step statement rest) (prepend steps rest')
  | branch {statement statement' : Tree} {steps : List Tree}
    {thenBody thenBody' elseBody elseBody' rest rest' : Code}
    (hrow : row statement.id = steps.map Tree.id ++ [statement.id])
    (hid : statement'.id = statement.id) (hthen : Expands row thenBody thenBody')
    (helse : Expands row elseBody elseBody') (hrest : Expands row rest rest') :
    Expands row (branch statement thenBody elseBody rest)
        (prepend steps (branch statement' thenBody' elseBody' rest'))
  | loop {statement statement' : Tree} {steps : List Tree} {body body' rest rest' : Code}
    (hrow : row statement.id = steps.map Tree.id ++ [statement.id])
    (hid : statement'.id = statement.id)
    (hbody : Expands row body body') (hrest : Expands row rest rest') :
    Expands row (loop statement body rest) (prepend steps (loop statement' body' rest'))

namespace Expands

variable (hexpands : Expands row code code')

include hexpands

theorem row_ne_nil : ∀ statement ∈ code.order, row statement ≠ [] := by
  induction hexpands with
  | nil => simp
  | step hrow hsteps _ ih =>
    rw [order_step, List.forall_mem_cons, hrow]
    exact ⟨by simpa using hsteps, ih⟩
  | branch hrow _ _ _ _ ihthen ihelse ih =>
    rw [order_branch, List.forall_mem_cons, List.forall_mem_append, List.forall_mem_append, hrow]
    exact ⟨by simp, ⟨ihthen, ihelse⟩, ih⟩
  | loop hrow _ _ _ ihbody ih =>
    rw [order_loop, List.forall_mem_cons, List.forall_mem_append, hrow]
    exact ⟨by simp, ihbody, ih⟩

theorem heads_eq : code'.heads = code.heads.flatMap row := by
  induction hexpands with
  | nil => rfl
  | step hrow _ _ ih => simp [heads, hrow, ih]
  | branch hrow hid _ _ _ _ _ ih => simp [heads, hrow, hid, ih]
  | loop hrow hid _ _ _ ih => simp [heads, hrow, hid, ih]

theorem order_eq : code'.order = code.order.flatMap row := by
  induction hexpands with
  | nil => rfl
  | step hrow _ _ ih => simp [hrow, ih]
  | branch hrow hid _ _ _ ihthen ihelse ih => simp [hrow, hid, ihthen, ihelse, ih]
  | loop hrow hid _ _ ihbody ih => simp [hrow, hid, ihbody, ih]

theorem bodies_eq : code'.bodies = code.bodies.map fun entry => (entry.1, entry.2.flatMap row) := by
  induction hexpands with
  | nil => rfl
  | step _ _ _ ih => simpa [bodies] using ih
  | branch _ hid hthen helse _ ihthen ihelse ih =>
    simp [bodies, hid, hthen.heads_eq, helse.heads_eq, ihthen, ihelse, ih]
  | loop _ hid hbody _ ihbody ih => simp [bodies, hid, hbody.heads_eq, ihbody, ih]

theorem lists_eq (ref : ListRef) :
    code'.lists ref = (code.lists ref).map fun entry => (entry.1, entry.2.flatMap row) := by
  rw [lists, lists, hexpands.heads_eq, hexpands.bodies_eq, List.map_cons]

theorem depth_eq : code'.depth = code.depth := by
  induction hexpands with
  | nil => rfl
  | step _ _ _ ih => simpa [depth] using ih
  | branch _ _ _ _ _ ihthen ihelse ih => simp [depth, ihthen, ihelse, ih]
  | loop _ _ _ _ ihbody ih => simp [depth, ihbody, ih]

theorem loopless (hloopless : code.Loopless) : code'.Loopless := by
  induction hexpands with
  | nil => trivial
  | step _ _ _ ih => exact loopless_prepend.mpr (ih hloopless)
  | branch _ _ _ _ _ ihthen ihelse ih =>
    exact loopless_prepend.mpr ⟨ihthen hloopless.1, ihelse hloopless.2.1, ih hloopless.2.2⟩
  | loop => exact hloopless.elim

theorem head?_heads : code'.heads.head? = code.heads.head?.map (firstOf row) := by
  rw [hexpands.heads_eq]
  exact head?_flatMap_row fun statement hmem =>
    hexpands.row_ne_nil statement (code.heads_subset_order hmem)

theorem entry_eq (after : Option NodeId) :
    code'.entry (after.map (firstOf row)) = (code.entry after).map (firstOf row) := by
  rw [entry, entry, hexpands.head?_heads]
  cases code.heads.head? <;> rfl

/-- Control goes from one statement of a row to the next one, and from the end of a row to the
beginning of another one where it went from the one statement to the other. -/
theorem leads_iff (hloopless : code.Loopless) :
    code'.Leads source target (after.map (firstOf row)) ↔
    (∃ statement ∈ code.order, [source, target] <:+: row statement) ∨
      ∃ last first, code.Leads last first after ∧ lastOf row last = source ∧
        firstOf row first = target := by
  induction hexpands generalizing after with
  | nil => simp [Leads]
  | @step statement steps rest rest' hrow hsteps hrest ih =>
    have hne : row statement.id ≠ [] := by simpa [hrow] using hsteps
    rw [leads_prepend_iff, hrest.entry_eq, ← hrow, adjacent_append_toList_iff hne,
      getLast?_eq_lastOf hne, ih hloopless]
    simp only [order_step, List.exists_mem_cons_iff, Leads, Option.map_eq_some_iff,
      Option.some.injEq]
    constructor
    · rintro ((hpair | ⟨hlast, first, hentry, hfirst⟩) | hinside | ⟨last, first, hleads, hends⟩)
      · exact Or.inl (Or.inl hpair)
      · exact Or.inr ⟨_, first, Or.inl ⟨rfl, hentry⟩, hlast, hfirst⟩
      · exact Or.inl (Or.inr hinside)
      · exact Or.inr ⟨last, first, Or.inr hleads, hends⟩
    · rintro ((hpair | hinside) | ⟨last, first, ⟨rfl, hentry⟩ | hleads, hlast, hfirst⟩)
      · exact Or.inl (Or.inl hpair)
      · exact Or.inr (Or.inl hinside)
      · exact Or.inl (Or.inr ⟨hlast, first, hentry, hfirst⟩)
      · exact Or.inr (Or.inr ⟨last, first, hleads, hlast, hfirst⟩)
  | @branch statement statement' steps thenBody thenBody' elseBody elseBody' rest rest' hrow hid
      hthen helse hrest ihthen ihelse ih =>
    have hlastOf : lastOf row statement.id = statement.id := by simp [lastOf, hrow]
    have htargets : target ∈ Graph.branchTargets thenBody'.heads.head? elseBody'.heads.head?
        (rest'.entry (after.map (firstOf row))) ↔ ∃ first ∈ Graph.branchTargets thenBody.heads.head?
          elseBody.heads.head? (rest.entry after), firstOf row first = target := by
      rw [hthen.head?_heads, helse.head?_heads, hrest.entry_eq, ← List.mem_map]
      cases thenBody.heads.head? <;> cases elseBody.heads.head? <;> cases rest.entry after <;> rfl
    have hentry :
        (Code.branch statement' thenBody' elseBody' rest').entry (after.map (firstOf row)) =
        some statement.id := by simp [entry, heads, hid]
    rw [leads_prepend_iff, hentry, Option.toList_some, ← hrow, Leads, hid, htargets, hrest.entry_eq,
      ihthen hloopless.1, ihelse hloopless.2.1, ih hloopless.2.2]
    simp only [order_branch, List.exists_mem_cons_iff, List.mem_append, or_and_right,
      exists_or, Leads]
    constructor
    · rintro (hpair | ⟨rfl, first, hfirst, hends⟩ | (hinside | ⟨last, first, hleads, hends⟩) |
        (hinside | ⟨last, first, hleads, hends⟩) | hinside | ⟨last, first, hleads, hends⟩)
      · exact Or.inl (Or.inl hpair)
      · exact Or.inr (Or.inl ⟨_, first, ⟨rfl, hfirst⟩, hlastOf, hends⟩)
      · exact Or.inl (Or.inr (Or.inl (Or.inl hinside)))
      · exact Or.inr (Or.inr (Or.inl ⟨last, first, hleads, hends⟩))
      · exact Or.inl (Or.inr (Or.inl (Or.inr hinside)))
      · exact Or.inr (Or.inr (Or.inr (Or.inl ⟨last, first, hleads, hends⟩)))
      · exact Or.inl (Or.inr (Or.inr hinside))
      · exact Or.inr (Or.inr (Or.inr (Or.inr ⟨last, first, hleads, hends⟩)))
    · rintro ((hpair | (hinside | hinside) | hinside) | ⟨last, first, ⟨rfl, hfirst⟩, hlast, hends⟩ |
        ⟨last, first, hleads, hends⟩ | ⟨last, first, hleads, hends⟩ | ⟨last, first, hleads, hends⟩)
      · exact Or.inl hpair
      · exact Or.inr (Or.inr (Or.inl (Or.inl hinside)))
      · exact Or.inr (Or.inr (Or.inr (Or.inl (Or.inl hinside))))
      · exact Or.inr (Or.inr (Or.inr (Or.inr (Or.inl hinside))))
      · exact Or.inr (Or.inl ⟨hlast ▸ hlastOf, first, hfirst, hends⟩)
      · exact Or.inr (Or.inr (Or.inl (Or.inr ⟨last, first, hleads, hends⟩)))
      · exact Or.inr (Or.inr (Or.inr (Or.inl (Or.inr ⟨last, first, hleads, hends⟩))))
      · exact Or.inr (Or.inr (Or.inr (Or.inr (Or.inr ⟨last, first, hleads, hends⟩))))
  | loop => exact hloopless.elim

/-- The same of a whole program. -/
theorem leads_none_iff (hloopless : code.Loopless) : code'.Leads source target none ↔
    (∃ statement ∈ code.order, [source, target] <:+: row statement) ∨
      ∃ last first, code.Leads last first none ∧ lastOf row last = source ∧
        firstOf row first = target := by
  have hnone : (none : Option NodeId).map (firstOf row) = none := rfl
  rw [← hexpands.leads_iff hloopless, hnone]

section Chained

variable (hloopless : code.Loopless) (hnodup : (code.order.flatMap row).Nodup)

theorem firstOf_mem_row {statement : NodeId} (hmem : statement ∈ code.order) :
    firstOf row statement ∈ row statement :=
  firstOf_mem (hexpands.row_ne_nil statement hmem)

theorem lastOf_mem_row {statement : NodeId} (hmem : statement ∈ code.order) :
    lastOf row statement ∈ row statement :=
  lastOf_mem (hexpands.row_ne_nil statement hmem)

include hloopless hnodup

/-- The statements of a row are chained one to the next. -/
theorem chained_of_adjacent {statement : NodeId} (hmem : statement ∈ code.order)
    (hpair : [source, target] <:+: row statement) : code'.Chained none source target where
  leads := (hexpands.leads_none_iff hloopless).mpr (Or.inl ⟨statement, hmem, hpair⟩)
  only other hleads := by
    have hrow := (List.nodup_flatMap.mp hnodup).1 statement hmem
    have hsource := (mem_of_adjacent hpair).1
    rcases (hexpands.leads_none_iff hloopless).mp hleads with
      ⟨statement', hmem', hother⟩ | ⟨last, first, hends, hlast, -⟩
    · obtain rfl := eq_of_mem_flatMap hnodup hmem' hmem (mem_of_adjacent hother).1 hsource
      exact eq_of_adjacent_right hrow hpair hother
    · have hlast' := hlast ▸ hexpands.lastOf_mem_row hends.source_mem
      obtain rfl := eq_of_mem_flatMap hnodup hends.source_mem hmem hlast' hsource
      exact absurd (hlast ▸ getLast?_eq_lastOf (List.ne_nil_of_mem hsource))
        (getLast?_ne_of_adjacent hrow hpair)
  sole other hleads := by
    have hrow := (List.nodup_flatMap.mp hnodup).1 statement hmem
    have htarget := (mem_of_adjacent hpair).2
    rcases (hexpands.leads_none_iff hloopless).mp hleads with
      ⟨statement', hmem', hother⟩ | ⟨last, first, hends, -, hfirst⟩
    · obtain rfl := eq_of_mem_flatMap hnodup hmem' hmem (mem_of_adjacent hother).2 htarget
      exact eq_of_adjacent_left hrow hpair hother
    · have hmem' := hends.target_mem
      have hfirst' := hfirst ▸ hexpands.firstOf_mem_row hmem'
      obtain rfl := eq_of_mem_flatMap hnodup hmem' hmem hfirst' htarget
      exact absurd (hfirst ▸ head?_eq_firstOf (List.ne_nil_of_mem htarget))
        (head?_ne_of_adjacent hrow hpair)

/-- Control goes on from the end of a row where it went on from the statement. -/
theorem leads_lastOf_iff {statement : NodeId} (hmem : statement ∈ code.order) :
    code'.Leads (lastOf row statement) target none ↔
      ∃ first, code.Leads statement first none ∧ firstOf row first = target := by
  refine (hexpands.leads_none_iff hloopless).trans ⟨?_, ?_⟩
  · rintro (⟨statement', hmem', hpair⟩ | ⟨last, first, hleads, hlast, hfirst⟩)
    · obtain rfl := eq_of_mem_flatMap hnodup hmem' hmem (mem_of_adjacent hpair).1
        (hexpands.lastOf_mem_row hmem)
      exact absurd (getLast?_eq_lastOf (hexpands.row_ne_nil _ hmem))
        (getLast?_ne_of_adjacent ((List.nodup_flatMap.mp hnodup).1 _ hmem) hpair)
    · obtain rfl := eq_of_mem_flatMap hnodup hleads.source_mem hmem
        (hlast ▸ hexpands.lastOf_mem_row hleads.source_mem) (hexpands.lastOf_mem_row hmem)
      exact ⟨first, hleads, hfirst⟩
  · rintro ⟨first, hleads, hfirst⟩
    exact Or.inr ⟨statement, first, hleads, rfl, hfirst⟩

/-- Control comes to the beginning of a row from where it came to the statement. -/
theorem leads_firstOf_iff {statement : NodeId} (hmem : statement ∈ code.order) :
    code'.Leads source (firstOf row statement) none ↔
      ∃ last, code.Leads last statement none ∧ lastOf row last = source := by
  refine (hexpands.leads_none_iff hloopless).trans ⟨?_, ?_⟩
  · rintro (⟨statement', hmem', hpair⟩ | ⟨last, first, hleads, hlast, hfirst⟩)
    · obtain rfl := eq_of_mem_flatMap hnodup hmem' hmem (mem_of_adjacent hpair).2
        (hexpands.firstOf_mem_row hmem)
      exact absurd (head?_eq_firstOf (hexpands.row_ne_nil _ hmem))
        (head?_ne_of_adjacent ((List.nodup_flatMap.mp hnodup).1 _ hmem) hpair)
    · obtain rfl := eq_of_mem_flatMap hnodup hleads.target_mem hmem
        (hfirst ▸ hexpands.firstOf_mem_row hleads.target_mem) (hexpands.firstOf_mem_row hmem)
      exact ⟨last, hleads, hlast⟩
  · rintro ⟨last, hleads, hlast⟩
    exact Or.inr ⟨last, statement, hleads, hlast, rfl⟩

variable {last first : NodeId} (hlast : last ∈ code.order) (hfirst : first ∈ code.order)

include hlast hfirst

/-- Control goes from the end of a row to the beginning of another one where it went from the one
statement to the other. -/
theorem leads_ends_iff :
    code'.Leads (lastOf row last) (firstOf row first) none ↔ code.Leads last first none := by
  rw [hexpands.leads_lastOf_iff hloopless hnodup hlast]
  refine ⟨?_, fun hleads => ⟨first, hleads, rfl⟩⟩
  rintro ⟨first', hleads, hsame⟩
  obtain rfl := eq_of_mem_flatMap hnodup hleads.target_mem hfirst
    (hsame ▸ hexpands.firstOf_mem_row hleads.target_mem) (hexpands.firstOf_mem_row hfirst)
  exact hleads

theorem chained_ends_iff :
    code'.Chained none (lastOf row last) (firstOf row first) ↔ code.Chained none last first := by
  refine ⟨fun hchained => ⟨?_, fun other hleads => ?_, fun other hleads => ?_⟩,
    fun hchained => ⟨?_, fun other hleads => ?_, fun other hleads => ?_⟩⟩
  · exact (hexpands.leads_ends_iff hloopless hnodup hlast hfirst).mp hchained.leads
  · have hsame :=
      hchained.only _ ((hexpands.leads_lastOf_iff hloopless hnodup hlast).mpr ⟨_, hleads, rfl⟩)
    exact eq_of_mem_flatMap hnodup hleads.target_mem hfirst
      (hsame ▸ hexpands.firstOf_mem_row hleads.target_mem) (hexpands.firstOf_mem_row hfirst)
  · have hsame :=
      hchained.sole _ ((hexpands.leads_firstOf_iff hloopless hnodup hfirst).mpr ⟨_, hleads, rfl⟩)
    exact eq_of_mem_flatMap hnodup hleads.source_mem hlast
      (hsame ▸ hexpands.lastOf_mem_row hleads.source_mem) (hexpands.lastOf_mem_row hlast)
  · exact (hexpands.leads_ends_iff hloopless hnodup hlast hfirst).mpr hchained.leads
  · obtain ⟨first', hleads', rfl⟩ := (hexpands.leads_lastOf_iff hloopless hnodup hlast).mp hleads
    rw [hchained.only first' hleads']
  · obtain ⟨last', hleads', rfl⟩ := (hexpands.leads_firstOf_iff hloopless hnodup hfirst).mp hleads
    rw [hchained.sole last' hleads']

end Chained

end Expands

end Code

/-! ### Ranges and blocks -/

/-- A range with the ends of the rows that stand for its ends. -/
def BlockRange.expanded (row : NodeId → List NodeId) (range : BlockRange) : BlockRange :=
  { range with first := firstOf row range.first, last := lastOf row range.last }

/-- A block whose ranges have the ends of the rows that stand for their ends. -/
def BasicBlock.expanded (row : NodeId → List NodeId) (block : BasicBlock) : BasicBlock :=
  { block with ranges := block.ranges.map (BlockRange.expanded row) }

theorem BlockRange.expanded_congr {row' : NodeId → List NodeId} {range : BlockRange}
    (hfirst : row range.first = row' range.first) (hlast : row range.last = row' range.last) :
    range.expanded row = range.expanded row' := by
  rw [expanded, expanded, firstOf, firstOf, lastOf, lastOf, hfirst, hlast]

theorem BlockRange.expanded_self (range : BlockRange) : range.expanded (fun id => [id]) = range :=
  rfl

theorem BasicBlock.expanded_self (block : BasicBlock) :
    block.expanded (fun id => [id]) = block := by
  rw [expanded, List.map_id'' BlockRange.expanded_self]

/-- A block goes along only with what becomes of its own statements. -/
theorem Graph.Depicts.expanded_congr {program : Program} {code : Code}
    {graph : Graph} {block : BasicBlock} {row' : NodeId → List NodeId}
    (hdepicts : graph.Depicts program code) (hblock : block ∈ graph.blocks)
    (hsame : ∀ statement ∈ block.row program, row statement = row' statement) :
    block.expanded row = block.expanded row' := by
  obtain ⟨rows, hcovers, hrows⟩ := (hdepicts.holds block hblock).covers
  rw [BasicBlock.expanded, BasicBlock.expanded]
  congr 1
  refine List.map_congr_left fun range hrange => ?_
  obtain ⟨statements, hmem, hcover⟩ := exists_of_forall₂ hcovers hrange
  have hsubset {statement : NodeId} (hstatement : statement ∈ statements) :
      statement ∈ block.row program :=
    hrows ▸ List.mem_flatten_of_mem hmem hstatement
  exact BlockRange.expanded_congr (hsame _ (hsubset hcover.first_mem))
    (hsame _ (hsubset hcover.last_mem))

theorem BlockRange.Covers.expanded {code code' : Code}
    {range : BlockRange} {statements : List NodeId}
    (hcovers : range.Covers code statements) (hexpands : code.Expands row code') :
    (range.expanded row).Covers code' (statements.flatMap row) where
  first := by
    rw [head?_flatMap_row fun statement hmem => hexpands.row_ne_nil _ (hcovers.subset_order hmem),
      hcovers.first]
    rfl
  last := by
    rw [getLast?_flatMap_row fun statement hmem =>
      hexpands.row_ne_nil _ (hcovers.subset_order hmem), hcovers.last]
    rfl
  list := by
    obtain ⟨before, after, hmem⟩ := hcovers.list
    refine ⟨before.flatMap row, after.flatMap row, ?_⟩
    rw [hexpands.lists_eq, ← List.flatMap_append, ← List.flatMap_append]
    exact List.mem_map_of_mem hmem

end ShaderIR
