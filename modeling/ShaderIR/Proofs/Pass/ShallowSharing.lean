import ShaderIR.Pass.Sharing
import ShaderIR.Proofs.Pass.ShallowEdits

/-!
Sharing in statements that fit. `SharingPlan.shallow_shareExpression` says that sharing gets through
every expression that fits the budget, whatever has been shared before, and
`SharingPlan.ensures_shareStatement` that it gets through every statement that fits the limit and
leaves a row of statements for it.
-/

set_option autoImplicit false

namespace ShaderIR

open Program Edit

variable {κ : Type}

namespace Draft.Evolved

variable {scope : Scope} {draft : Draft κ} (hevolved : draft.Evolved scope) {id : NodeId}

include hevolved

theorem not_mem_of_lt (hold : id.index < scope.origin.nodes.size) : id ∉ draft.pending :=
  fun hmem =>
  absurd (hevolved.pending id hmem).1 (Nat.not_le.mpr hold)

theorem rowFor_self (hold : id.index < scope.origin.nodes.size) :
    scope.origin.RowFor draft.program id (draft.pending ++ [id]) where
  nodup := List.nodup_append'.mpr ⟨hevolved.nodup, List.nodup_singleton _,
    List.disjoint_singleton.mpr (hevolved.not_mem_of_lt hold)⟩
  new statement hmem := by
    rcases List.mem_append.mp hmem with hmem | hmem
    · exact Or.inr ((hevolved.pending statement hmem).imp_right Scope.Stows.writesWhole)
    · exact Or.inl (List.mem_singleton.mp hmem)
  ends := Or.inl (List.getLast?_concat ..)

theorem rowFor_of_call {callee : SignatureId} {arguments : List NodeId} {result : Option NodeId}
    (hnode : scope.origin.node id = .ok (.call callee arguments result))
    {row : List NodeId} (hrow : row ≠ []) (hnodup : row.Nodup ∧ draft.pending.Disjoint row)
    (hnew : ∀ statement ∈ row, statement = id ∨
      scope.origin.nodes.size ≤ statement.index ∧ draft.program.WritesWhole statement) :
    scope.origin.RowFor draft.program id (draft.pending ++ row) where
  nodup := List.nodup_append'.mpr ⟨hevolved.nodup, hnodup.1, hnodup.2⟩
  new statement hmem := by
    rcases List.mem_append.mp hmem with hmem | hmem
    · exact Or.inr ((hevolved.pending statement hmem).imp_right Scope.Stows.writesWhole)
    · exact hnew statement hmem
  ends := Or.inr ⟨by simp [hrow], _, _, _, hnode⟩

end Draft.Evolved

namespace Draft.Advances

variable {scope : Scope} {draft draft₁ draft' : Draft κ}

theorem of_same (hadvances : draft.Advances scope draft₁)
    (hprogram : draft'.program = draft₁.program) (hpending : draft'.pending = draft₁.pending) :
    draft.Advances scope draft' := by
  obtain ⟨⟨htrims, hframe, hlists, hnew, hnodup⟩, hreads⟩ := hadvances
  rw [← hprogram] at htrims hframe hlists hnew hreads
  rw [← hpending] at hnew hnodup
  exact ⟨⟨htrims, hframe, hlists, hnew, hnodup⟩, hreads⟩

theorem withTemporary (hadvances : draft.Advances scope draft') (ty : Ty) :
    draft.Advances scope { draft' with program := (draft'.program.withTemporary ty) } where
  evolved := {
    trims := hadvances.evolved.trims.withTemporary ty
    frame := hadvances.evolved.frame
    lists := hadvances.evolved.lists
    pending := hadvances.evolved.pending
    nodup := hadvances.evolved.nodup }
  reads := hadvances.reads

end Draft.Advances

namespace Edit

variable {draft : Draft κ} {bad : PassError → Draft κ → Prop}

theorem ensures_readOf {held : VarId} {good : NodeId → Draft κ → Prop}
    (hgood : good ⟨draft.program.nodes.size⟩
      { draft with program := draft.program.withNode (.variable held) }) :
    Walk.Ensures (readOf held) draft good bad :=
  ensures_addNode hgood

variable {scope : Scope}

theorem ensures_materialize {id : NodeId} (hstowable : scope.operand id ∨ draft.program.Reads id)
    (hevolved : draft.Evolved scope) :
    Walk.Ensures (materialize id) draft (fun _ draft' => draft.Advances scope draft')
      fun _ _ => False := by
  unfold materialize
  simp only [Walk.ensures_bind, ensures_ask]
  intro ty _
  refine ensures_addTemporary (ensures_addAssignment ?_)
  rw [Walk.ensures_modify, Walk.ensures_pure]
  have hplace := (hevolved.refl.withTemporary ty).withNode
    (.variable ⟨draft.program.vars.size⟩)
  have hassigned := hplace.withNode (.assign ⟨draft.program.nodes.size⟩ id 0)
  -- the assignment comes right after the reference to its temporary
  have hsize : draft.program.nodes.size + 1 = ((draft.program.withTemporary ty).withNode
      (.variable ⟨draft.program.vars.size⟩)).nodes.size := (Array.size_push _).symm
  change Draft.Advances scope draft { draft with
    program := ((draft.program.withTemporary ty).withNode
      (.variable ⟨draft.program.vars.size⟩)).withNode (.assign ⟨draft.program.nodes.size⟩ id 0)
    pending := draft.pending ++ [⟨draft.program.nodes.size + 1⟩]
    changed := true }
  rw [hsize]
  refine ⟨⟨hassigned.evolved.trims, hassigned.evolved.frame, hassigned.evolved.lists,
      fun statement hmem => ?_, ?_⟩, hassigned.reads⟩
  · rcases List.mem_append.mp hmem with hmem | hmem
    · exact hassigned.evolved.pending statement hmem
    · obtain rfl := List.mem_singleton.mp hmem
      have htarget : ((draft.program.withTemporary ty).withNode
          (.variable ⟨draft.program.vars.size⟩)).Reads ⟨draft.program.nodes.size⟩ :=
        ⟨_, node_withNode_self _ _⟩
      exact ⟨hplace.evolved.trims.size, _, _, node_withNode_self _ _, htarget.withNode _,
        hstowable.imp_right (hassigned.reads id)⟩
  · exact List.nodup_append'.mpr ⟨hplace.evolved.nodup, List.nodup_singleton _,
      List.disjoint_singleton.mpr hplace.evolved.not_mem_pending⟩

end Edit

namespace SharingPlan

variable {plan : SharingPlan} {scope : Scope} {draft : Draft Temporaries}

/-! ### Expressions -/

/-- Sharing never fails on an expression that fits the budget. -/
theorem shallow_shareExpression (plan : SharingPlan) (scope : Scope) (budget : Nat) :
    Shallow scope budget (plan.shareExpression budget) := by
  induction budget with
  | zero =>
    rintro id draft (⟨-, hfits⟩ | ⟨hpos, -⟩)
    · exact hfits.elim
    · exact absurd hpos (Nat.lt_irrefl 0)
  | succ budget ih =>
    intro id draft hfits hevolved
    have hchildren := ih.editChildren hfits hevolved
    unfold shareExpression
    split
    · refine Walk.ensures_bind.mpr (hchildren.mono ?_ fun _ _ => False.elim)
      exact fun _ draft' hadvances => ⟨hadvances, Or.inl rfl⟩
    · next number _ =>
      simp only [temporary?, Walk.ensures_bind, Walk.ensures_get, Walk.ensures_pure]
      split
      · next temporary _ =>
        simp only [Walk.ensures_bind, ensures_markChanged]
        have hread := (hevolved.refl.withNode (.variable temporary))
        exact ensures_readOf ⟨hread.of_same rfl rfl, Or.inr ⟨temporary, node_withNode_self _ _⟩⟩
      · simp only [Walk.ensures_bind, remember, Walk.ensures_modify]
        refine hchildren.mono (fun _ between hadvances => ?_) fun _ _ => False.elim
        refine (ensures_materialize (hadvances.stillFits hfits).stowable hadvances.evolved).mono ?_
          fun _ _ => False.elim
        intro temporary draft' hadvances'
        exact ensures_readOf ⟨((hadvances.trans hadvances').withNode (.variable temporary)).of_same
          rfl rfl, Or.inr ⟨temporary, node_withNode_self _ _⟩⟩

theorem shallow_shareOperand (plan : SharingPlan) (scope : Scope) :
    Shallow scope plan.limit plan.shareOperand :=
  plan.shallow_shareExpression scope _

theorem shallow_sharePlace (plan : SharingPlan) (scope : Scope) :
    ShallowPlace scope plan.limit plan.sharePlace :=
  shallow_editPlace (plan.shallow_shareExpression scope)

theorem shallow_rules (plan : SharingPlan) (scope : Scope) :
    ShallowRules scope plan.limit plan.rules where
  value := plan.shallow_shareOperand scope
  target id draft hfits := shallow_editPlace (plan.shallow_shareExpression scope) id draft
    (hfits.mono (Nat.le_succ _))
  operand := plan.shallow_shareOperand scope
  place := plan.shallow_sharePlace scope

/-! ### Statements -/

theorem ensures_copyTo {target : NodeId} {temporary : VarId} (hevolved : draft.Evolved scope) :
    Walk.Ensures (copyTo target temporary) draft (fun copy draft' => draft.Advances scope draft' ∧
      scope.origin.nodes.size ≤ copy.index ∧ draft'.program.WritesWhole copy ∧
      copy ∉ draft'.pending) fun _ _ => False := by
  unfold copyTo
  rw [Walk.ensures_bind]
  have hread := hevolved.refl.withNode (.variable temporary)
  exact ensures_readOf <| ensures_addNode ⟨hread.withNode _, hread.evolved.trims.size,
    ⟨_, _, node_withNode_self _ _⟩, hread.evolved.not_mem_pending⟩

theorem ensures_shareCall {id : NodeId} {number : ValueNumber} {callee : SignatureId}
    {arguments : List NodeId} {target : NodeId} (hcovers : scope.covers id)
    (hnode : scope.origin.node id = .ok (.call callee arguments (some target)))
    (hfits : scope.origin.FitsStatement plan.limit id) (hpurely : scope.origin.CallsPurely id)
    (hevolved : draft.Evolved scope) :
    Walk.Ensures (plan.shareCall id number callee arguments target) draft (fun row draft' =>
        draft'.Evolved scope ∧ scope.origin.RowFor draft'.program id (draft'.pending ++ row))
      fun _ _ => False := by
  obtain ⟨found, hfound, hparts⟩ := hfits
  obtain rfl := Except.ok.inj (hnode.symm.trans hfound)
  obtain ⟨signature, hsignature, -, hpure, hresult⟩ := hparts
  obtain ⟨signature', hsignature', hispure⟩ := hpurely _ _ _ hnode
  obtain rfl := Except.ok.inj (hsignature.symm.trans hsignature')
  have hchildren := scope.closed id _ hcovers hnode
  have htarget {between : Draft Temporaries} (hevolved : between.Evolved scope) :
      scope.StillFitsPlace between.program plan.limit target :=
    Scope.stillFitsPlace hevolved.trims (hchildren target (by simp [Node.children])) (Or.inl rfl)
      (hresult target rfl)
  unfold shareCall
  simp only [temporary?, Walk.ensures_bind, Walk.ensures_get, Walk.ensures_pure]
  split
  · simp only [Walk.ensures_bind, ensures_markChanged, Walk.ensures_pure]
    refine (plan.shallow_sharePlace scope target draft (htarget hevolved) hevolved).mono ?_
      fun _ _ => False.elim
    intro _ between hadvances
    refine (ensures_copyTo hadvances.evolved).mono ?_ fun _ _ => False.elim
    rintro copy draft' ⟨hadvances', hnew, hwrites, hfresh⟩
    have hmarked : between.Advances scope { draft' with changed := true } :=
      hadvances'.of_same rfl rfl
    refine ⟨hmarked.evolved,
      hmarked.evolved.rowFor_of_call hnode (by simp) (by simpa using hfresh) ?_⟩
    exact fun statement hmem => Or.inr (List.mem_singleton.mp hmem ▸ ⟨hnew, hwrites⟩)
  · simp only [Walk.ensures_bind, ensures_ask, ensures_setNode, remember, Walk.ensures_modify,
      ensures_markChanged, Walk.ensures_pure]
    refine ((plan.shallow_shareOperand scope).mapM (fun argument hargument =>
      Scope.stillFits hevolved.trims (hchildren argument (List.mem_append_left _ hargument))
        (Or.inl rfl) (hpure hispure argument hargument)) hevolved).mono ?_ fun _ _ => False.elim
    rintro arguments' between ⟨hadvances, hkeeps⟩
    refine (plan.shallow_sharePlace scope target between
      (htarget hadvances.evolved) hadvances.evolved).mono ?_ fun _ _ => False.elim
    intro _ between' hadvances' signature' _
    refine ensures_addTemporary (ensures_readOf ?_)
    have hread := (hadvances'.withTemporary signature'.returnTy).withNode
      (.variable ⟨between'.program.vars.size⟩)
    obtain ⟨current, hcurrent, halike⟩ :=
      ShallowRules.exists_alike hnode (fun _ => rfl) hread.evolved
    have hresult' : Keeps ((between'.program.withTemporary signature'.returnTy).withNode
        (.variable ⟨between'.program.vars.size⟩)) target
          ⟨between'.program.nodes.size⟩ := Or.inr ⟨_, node_withNode_self _ _⟩
    have hkeeps' := List.rel_append (hkeeps.imp fun _ _ => hread.keeps) (.cons hresult' .nil)
    have hlike : Node.Alike (.call callee arguments (some target))
        (.call callee arguments' (some ⟨between'.program.nodes.size⟩)) :=
      .call _ _ _ _ _ hkeeps.length_eq rfl
    have hset := hread.evolved.setNode hcovers hnode hcurrent (halike.symm.trans hlike) hkeeps'
    refine (ensures_copyTo hset).mono ?_ fun _ _ => False.elim
    rintro copy draft' ⟨hadvances'', hnew, hwrites, hfresh⟩
    have hevolved' : Draft.Evolved scope
        { draft' with memory := (number, ⟨between'.program.vars.size⟩) ::
            draft'.memory, changed := true } := Draft.Advances.evolved (hadvances''.of_same rfl rfl)
    have hold : id.index < scope.origin.nodes.size := lt_size_of_node hnode
    refine ⟨hevolved', hevolved'.rowFor_of_call hnode (by simp) ?_ fun statement hmem => ?_⟩
    · have hne : id ≠ copy := fun hsame => absurd hnew (Nat.not_le.mpr (hsame ▸ hold))
      simp [hne, hfresh, hevolved'.not_mem_of_lt hold]
    · rcases List.mem_pair.mp hmem with rfl | rfl
      · exact Or.inl rfl
      · exact Or.inr ⟨hnew, hwrites⟩

/-- Sharing never fails on a statement that fits the limit, and a row of statements stands for it
then. -/
theorem ensures_shareStatement {id : NodeId} (hprogram : draft.program = scope.origin)
    (hpending : draft.pending = []) (hcovers : scope.covers id)
    (hfits : scope.origin.FitsStatement plan.limit id)
    (hpurely : (plan.targets.lookup id).isSome → scope.origin.CallsPurely id) :
    Walk.Ensures (plan.shareStatement id) draft
      (fun row draft' => draft'.Evolved scope ∧
        scope.origin.RowFor draft'.program id (draft'.pending ++ row))
      fun _ _ => False := by
  have hevolved : draft.Evolved scope := .start hprogram hpending
  have hold : id.index < scope.origin.nodes.size := hfits.lt_size
  unfold shareStatement
  simp only [Walk.ensures_bind, ensures_ask, hprogram]
  intro node hnode
  split
  · next hlookup =>
    exact ensures_shareCall hcovers hnode hfits (hpurely (by simp [hlookup])) hevolved
  · exact ⟨hevolved, hevolved.rowFor_self hold⟩
  · simp only [Walk.ensures_bind, Walk.ensures_pure]
    refine ((plan.shallow_rules scope).ensures_editStatement hcovers hfits hprogram hevolved).mono
      ?_ fun _ _ => False.elim
    exact fun _ draft' hevolved' => ⟨hevolved', hevolved'.rowFor_self hold⟩

end SharingPlan

end ShaderIR
