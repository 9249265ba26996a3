import ShaderIR.Proofs.Pass.ShallowSharing

/-!
Whether sharing has changed something. An edit preserves an invariant of drafts that does not look
at the program if its parts do (`Edit.preserves_editStatement`), and sharing preserves that a draft
has changed exactly if some temporary is remembered (`SharingPlan.preserves_shareStatement`).
-/

set_option autoImplicit false

namespace ShaderIR

namespace Edit

variable {κ α : Type} {invariant : Draft κ → Prop}

/-- Whatever the edit answers, the invariant still holds then. -/
def Preserves (invariant : Draft κ → Prop) (edit : Edit κ α) : Prop :=
  ∀ draft, invariant draft → Walk.Ensures edit draft (fun _ => invariant) fun _ _ => True

/-- The invariant does not look at the program. -/
def Aloof (invariant : Draft κ → Prop) : Prop :=
  ∀ draft program, invariant draft → invariant { draft with program }

theorem preserves_mapM {step : NodeId → Edit κ NodeId} (hstep : ∀ id, Preserves invariant (step id))
    (ids : List NodeId) : Preserves invariant (ids.mapM step) := fun _ hdraft =>
  (Walk.ensures_mapM_facts invariant (fun _ => True) (fun id _ state hstate =>
    (hstep id state hstate).mono (fun _ _ hstop => ⟨hstop, trivial⟩) fun _ _ _ =>
      trivial) hdraft).mono (fun _ _ => And.left) fun _ _ _ => trivial

theorem preserves_forM {step : NodeId → Edit κ Unit} (hstep : ∀ id, Preserves invariant (step id))
    (ids : List NodeId) : Preserves invariant (ids.forM step) := fun _ hdraft =>
  Walk.ensures_forM invariant (fun id _ state hstate => hstep id state hstate) hdraft

section

variable (haloof : Aloof invariant)

include haloof

theorem preserves_editChildren {edit : NodeId → Edit κ NodeId}
    (hedit : ∀ id, Preserves invariant (edit id))
    (id : NodeId) : Preserves invariant (editChildren edit id) := by
  intro draft hdraft
  simp only [editChildren, Walk.ensures_bind, ensures_ask, ensures_changeNode]
  intro node _
  exact (preserves_mapM hedit _ draft hdraft).mono
    (fun _ between hbetween _ _ => haloof between _ hbetween) fun _ _ _ => trivial

theorem preserves_editPlace {limit : Nat} {edit : Nat → NodeId → Edit κ NodeId}
    (hedit : ∀ budget id, Preserves invariant (edit budget id)) (budget : Nat) (id : NodeId) :
    Preserves invariant (editPlace limit edit budget id) := by
  induction budget generalizing id with
  | zero => exact fun _ _ => trivial
  | succ budget ih =>
    intro draft hdraft
    simp only [editPlace, Walk.ensures_bind, ensures_ask]
    intro node _
    split
    · simp only [Walk.ensures_bind, ensures_changeNode]
      exact (hedit budget _ draft hdraft).mono
        (fun _ between hbetween _ _ => ih _ _ (haloof between _ hbetween)) fun _ _ _ => trivial
    · exact ih _ draft hdraft
    · exact hdraft

/-- The rules of a pass preserve an invariant. -/
structure Rules.Preserve (invariant : Draft κ → Prop) (rules : Rules κ) : Prop where
  value : ∀ id, Preserves invariant (rules.value id)
  target : ∀ id, Preserves invariant (rules.target id)
  operand : ∀ id, Preserves invariant (rules.operand id)
  place : ∀ id, Preserves invariant (rules.place id)

omit haloof in
theorem preserves_editArguments {rules : Rules κ}
    (hrules : rules.Preserve invariant) (params : List Param)
    (arguments : List NodeId) : Preserves invariant (editArguments rules params arguments) := by
  induction params generalizing arguments with
  | nil => exact fun _ hdraft => hdraft
  | cons param params ih =>
    cases arguments with
    | nil => exact fun _ hdraft => hdraft
    | cons argument arguments =>
      intro draft hdraft
      have hrest : ∀ first between, invariant between → Walk.Ensures
          (do return first :: (← editArguments rules params arguments)) between (fun _ => invariant)
            fun _ _ => True := fun first between hbetween => by
        simpa only [Walk.ensures_bind, Walk.ensures_pure] using ih arguments between hbetween
      unfold editArguments
      split
      · exact Walk.ensures_bind.mpr ((hrules.operand argument draft hdraft).mono
          (fun first between => hrest first between) fun _ _ _ => trivial)
      · exact Walk.ensures_bind.mpr ((hrules.place argument draft hdraft).mono
          (fun _ between => hrest argument between) fun _ _ _ => trivial)

theorem preserves_editStatement {rules : Rules κ}
    (hrules : rules.Preserve invariant) (id : NodeId) :
    Preserves invariant (editStatement rules id) := by
  intro draft hdraft
  simp only [editStatement, Walk.ensures_bind, ensures_ask]
  intro node _
  split
  · simp only [Walk.ensures_bind, ensures_setNode]
    refine (hrules.value _ draft hdraft).mono (fun _ between hbetween => ?_) fun _ _ _ => trivial
    exact (hrules.target _ between hbetween).mono (fun _ after hafter => haloof after _ hafter)
      fun _ _ _ => trivial
  · simp only [editCall, Walk.ensures_bind, ensures_ask, ensures_setNode]
    intro signature _
    refine (preserves_editArguments hrules _ _ draft hdraft).mono (fun _ between hbetween => ?_)
      fun _ _ _ => trivial
    exact (preserves_forM hrules.place _ between hbetween).mono
      (fun _ after hafter => haloof after _ hafter) fun _ _ _ => trivial
  · simp only [Walk.ensures_bind, ensures_changeNode]
    exact (hrules.operand _ draft hdraft).mono (fun _ after hafter _ _ => haloof after _ hafter)
      fun _ _ _ => trivial
  · simp only [Walk.ensures_bind, ensures_changeNode]
    exact (hrules.operand _ draft hdraft).mono (fun _ after hafter _ _ => haloof after _ hafter)
      fun _ _ _ => trivial
  · simp only [Walk.ensures_bind, ensures_changeNode]
    exact (hrules.operand _ draft hdraft).mono (fun _ after hafter _ _ => haloof after _ hafter)
      fun _ _ _ => trivial
  · exact hdraft

end

end Edit

open Edit

/-- A draft has changed exactly if a temporary is remembered, and at least so many are. -/
structure Draft.Flagged (least : Nat) (draft : Draft Temporaries) : Prop where
  changed_iff : draft.changed = true ↔ draft.memory ≠ []
  least_le : least ≤ draft.memory.length

namespace SharingPlan

variable {plan : SharingPlan} {least : Nat}

theorem aloof_flagged : Aloof (Draft.Flagged least) :=
  fun _ _ hdraft => ⟨hdraft.changed_iff, hdraft.least_le⟩

theorem ne_nil_of_lookup {memory : Temporaries} {number : ValueNumber} {temporary : VarId}
    (hlookup : memory.lookup number = some temporary) : memory ≠ [] := by
  rintro rfl
  cases hlookup

theorem preserves_shareExpression (plan : SharingPlan) (budget : Nat) (id : NodeId) :
    Preserves (Draft.Flagged least) (plan.shareExpression budget id) := by
  induction budget generalizing id with
  | zero => exact fun _ _ => trivial
  | succ budget ih =>
    intro draft hdraft
    have hchildren := preserves_editChildren aloof_flagged ih id
    unfold shareExpression
    split
    · exact Walk.ensures_bind.mpr ((hchildren draft hdraft).mono (fun _ _ hbetween => hbetween)
        fun _ _ _ => trivial)
    · simp only [temporary?, Walk.ensures_bind, Walk.ensures_get, Walk.ensures_pure]
      split
      · next hlookup =>
        simp only [readOf, Walk.ensures_bind, ensures_markChanged, ensures_create]
        exact fun _ _ _ => ⟨iff_of_true rfl (ne_nil_of_lookup hlookup), hdraft.least_le⟩
      · simp only [materialize, remember, readOf, Walk.ensures_bind, ensures_ask, ensures_create,
          Walk.ensures_modify, Walk.ensures_pure]
        refine (hchildren draft hdraft).mono (fun _ between hbetween => ?_) fun _ _ _ => trivial
        -- the type, and the three additions
        intros
        exact ⟨iff_of_true rfl (List.cons_ne_nil _ _), hbetween.least_le.trans (Nat.le_succ _)⟩

theorem preserves_sharePlace (plan : SharingPlan) (id : NodeId) :
    Preserves (Draft.Flagged least) (plan.sharePlace id) :=
  preserves_editPlace aloof_flagged plan.preserves_shareExpression plan.limit id

theorem preserve_rules (plan : SharingPlan) : plan.rules.Preserve (Draft.Flagged least) where
  value := plan.preserves_shareExpression plan.limit
  target := preserves_editPlace aloof_flagged plan.preserves_shareExpression (plan.limit + 1)
  operand := plan.preserves_shareExpression plan.limit
  place := plan.preserves_sharePlace

/-- Sharing in a statement changes a draft exactly if it remembers a temporary. -/
theorem preserves_shareStatement (plan : SharingPlan) (id : NodeId) :
    Preserves (Draft.Flagged least) (plan.shareStatement id) := by
  intro draft hdraft
  simp only [shareStatement, Walk.ensures_bind, ensures_ask]
  intro node _
  split
  · simp only [shareCall, temporary?, Walk.ensures_bind, Walk.ensures_get, Walk.ensures_pure]
    split
    · next hlookup =>
      have hheld : draft.Flagged draft.memory.length := ⟨hdraft.changed_iff, le_rfl⟩
      simp only [copyTo, readOf, Walk.ensures_bind, ensures_create, ensures_markChanged,
        Walk.ensures_pure]
      refine (plan.preserves_sharePlace _ draft hheld).mono (fun _ after hafter => ?_)
        fun _ _ _ => trivial
      have hpos := List.length_pos_iff.mpr (ne_nil_of_lookup hlookup)
      exact fun _ _ _ _ _ _ =>
        ⟨iff_of_true rfl (List.length_pos_iff.mp (hpos.trans_le hafter.least_le)),
        hdraft.least_le.trans hafter.least_le⟩
    · simp only [copyTo, readOf, remember, Walk.ensures_bind, ensures_ask, ensures_create,
        ensures_setNode, Walk.ensures_modify, ensures_markChanged, Walk.ensures_pure]
      refine (preserves_mapM (plan.preserves_shareExpression plan.limit) _ draft hdraft).mono
        (fun _ between hbetween => ?_) fun _ _ _ => trivial
      refine (plan.preserves_sharePlace _ between hbetween).mono (fun _ after hafter => ?_)
        fun _ _ _ => trivial
      -- the signature, and the four additions
      intros
      exact ⟨iff_of_true rfl (List.cons_ne_nil _ _), hafter.least_le.trans (Nat.le_succ _)⟩
  · exact hdraft
  · exact Walk.ensures_bind.mpr ((preserves_editStatement aloof_flagged plan.preserve_rules id draft
        hdraft).mono (fun _ _ hbetween => hbetween) fun _ _ _ => trivial)

end SharingPlan

end ShaderIR
