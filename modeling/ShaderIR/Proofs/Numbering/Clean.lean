import ShaderIR.Proofs.Numbering.Depth
import ShaderIR.Proofs.Numbering.Trees

/-!
Numbering of sound statements. Where every operand can stand in its place, numbering leaves nothing
poisoned, and it fails only for depth and only if some operand is too high;
`Program.exists_numbers_of_numberStatements` says that the numbering of a row of such statements is
the end of steps of numbering.
-/

set_option autoImplicit false

namespace ShaderIR

/-! ### Clean states -/

/-- Nothing has spoilt what is known of the block so far, and there were ids for all numbers. -/
def Numberer.Clean (numberer : Numberer) : Prop :=
  numberer.numbering.poisoned = false ∧ numberer.numbering.allocated ≤ IdAllocator.last

namespace Numberer

variable {numberer : Numberer}

@[simp] theorem poisoned_numberOf (key : Key) :
    (numberer.numberOf key).2.numbering.poisoned = numberer.numbering.poisoned := by
  unfold numberOf
  split <;> rfl

@[simp] theorem poisoned_history (id : VarId) :
    (numberer.history id).2.numbering.poisoned = numberer.numbering.poisoned := by
  unfold history
  split <;> rfl

@[simp] theorem poisoned_writePart (id : VarId) (value : Value) :
    (numberer.writePart id value).numbering.poisoned = numberer.numbering.poisoned :=
  poisoned_history id

end Numberer

/-- A step that hands out numbers spoils nothing if it does not say so itself. -/
theorem NumberingWalk.ensures_clean_handOut {α : Type} {step : Numberer → α × Numberer}
    {start : Numberer} {bad : NumberingFault → Numberer → Prop} (hclean : start.Clean)
    (hstep : (step start).2.numbering.poisoned = start.numbering.poisoned) :
    Walk.Ensures (handOut step) start (fun _ stop => stop.Clean) bad :=
  ensures_handOut.mpr fun hids => ⟨hstep.trans hclean.1, hids⟩

/-! ### Walks over sound trees -/

namespace Program

variable {program : Program} {config : Config} {eligible : NodeKinds} {start : Numberer}
  {fits : Prop}

/-- The walk numbers what can stand where it does: it does not spoil anything, and it fails only for
depth and only if what it numbers does not fit. -/
abbrev NumbersCleanly {α : Type} (fits : Prop) (walk : NumberingWalk α) (start : Numberer) : Prop :=
  Walk.Ensures walk start (fun _ stop => stop.Clean) fun failure _ => failure = .tooDeep ∧ ¬ fits

theorem numbersCleanly_recordNumber {id : NodeId} {node : Node} {number : ValueNumber}
    (hclean : start.Clean) : NumbersCleanly fits (recordNumber eligible id node number) start := by
  unfold recordNumber
  split
  · simp only [Walk.ensures_bind, Walk.ensures_modify, Walk.ensures_pure]
    exact hclean
  · simp only [Walk.ensures_bind, Walk.ensures_modify, Walk.ensures_pure]
    exact hclean

/-- Numbering a sound operand. -/
theorem numbersCleanly_numberExpression {budget : Nat} {tree : Tree} (hdraws : program.Draws tree)
    (hsound : program.SoundOperand tree)
    (hfits : fits → tree.height ≤ budget) (hclean : start.Clean) :
    NumbersCleanly fits (program.numberExpression eligible budget tree.id) start := by
  induction budget generalizing tree start with
  | zero => exact Walk.ensures_throw.mpr ⟨rfl, fun h => tree.height_pos.not_ge (hfits h)⟩
  | succ budget ih =>
    obtain ⟨root, node, children⟩ := tree
    have hids := hdraws.children_eq
    have hchild : ∀ child ∈ node.children, ∀ state : Numberer, state.Clean → Walk.Ensures
        (program.numberExpression eligible budget child) state (fun _ stop => stop.Clean ∧ True)
          fun failure _ => failure = .tooDeep ∧ ¬ fits := by
      intro child hmem state hstate
      rw [hids] at hmem
      obtain ⟨below, hbelow, rfl⟩ := List.mem_map.mp hmem
      exact (ih (hdraws.child hbelow) (Lifted.soundOperand_of_mem_children hsound hbelow)
        (fun h => Tree.height_le_of_mem_children hbelow (hfits h)) hstate).mono
        (fun _ _ hstop => ⟨hstop, trivial⟩) fun _ _ => id
    have hfinish : ∀ {key : Key} {state : Numberer}, state.Clean → NumbersCleanly fits (do
        let number ← NumberingWalk.handOut fun numberer => numberer.numberOf key
        recordNumber eligible root node number) state := fun hstate => by
      rw [NumbersCleanly, Walk.ensures_bind]
      exact (NumberingWalk.ensures_clean_handOut hstate (Numberer.poisoned_numberOf _)).mono
        (fun _ _ hbetween => numbersCleanly_recordNumber hbetween) fun _ _ => id
    unfold numberExpression
    simp only [NumbersCleanly, Walk.ensures_bind, Walk.ensures_liftCrash]
    intro found hfound
    obtain rfl : node = found := Except.ok.inj (hdraws.node_eq.symm.trans hfound)
    have hoperand := (hsound _ (Tree.mem_subtrees_self _)).operand
    cases node with
    | constant value => exact hfinish hclean
    | «variable» read =>
      simp only [Walk.ensures_bind, Walk.ensures_modify, Walk.ensures_pure]
      exact NumberingWalk.ensures_clean_handOut hclean (Numberer.poisoned_history read)
    | index base place =>
      simp only [Node.children, List.forall_mem_cons] at hchild
      rw [Walk.ensures_bind]
      refine (hchild.1 start hclean).mono (fun _ between hbetween => ?_) fun _ _ => id
      rw [Walk.ensures_bind]
      exact (hchild.2.1 between hbetween.1).mono (fun _ stop hstop => hfinish hstop.1) fun _ _ => id
    | field record number =>
      simp only [Node.children, List.forall_mem_cons] at hchild
      rw [Walk.ensures_bind]
      exact (hchild.1 start hclean).mono (fun _ stop hstop => hfinish hstop.1) fun _ _ => id
    | swizzle value mask =>
      simp only [Node.children, List.forall_mem_cons] at hchild
      rw [Walk.ensures_bind]
      exact (hchild.1 start hclean).mono (fun _ stop hstop => hfinish hstop.1) fun _ _ => id
    | apply op operands ty =>
      rw [Walk.ensures_bind]
      exact (Walk.ensures_mapM_facts Numberer.Clean (fun _ => True) hchild hclean).mono
        (fun _ stop hstop => hfinish hstop.1) fun _ _ => id
    | texture op channel operands ty =>
      rw [Walk.ensures_bind]
      exact (Walk.ensures_mapM_facts Numberer.Clean (fun _ => True) hchild hclean).mono
        (fun _ stop hstop => hfinish hstop.1) fun _ _ => id
    | _ => cases hoperand

/-- Numbering the indices in a sound place. -/
theorem numbersCleanly_numberPlace {budget : Nat} {tree : Tree} (hdraws : program.Draws tree)
    (hsound : program.SoundOperand tree) (hplace : tree.isPlace = true)
    (hfits : fits → tree.height ≤ budget) (hclean : start.Clean) :
    NumbersCleanly fits (program.numberPlace eligible budget tree.id) start := by
  induction budget generalizing tree start with
  | zero => exact Walk.ensures_throw.mpr ⟨rfl, fun h => tree.height_pos.not_ge (hfits h)⟩
  | succ budget ih =>
    obtain ⟨root, node, children⟩ := tree
    have hids := hdraws.children_eq
    rw [Tree.isPlace, Tree.fold_mk, ← Tree.isPlace] at hplace
    unfold numberPlace
    simp only [NumbersCleanly, Walk.ensures_bind, Walk.ensures_liftCrash]
    intro found hfound
    obtain rfl : node = found := Except.ok.inj (hdraws.node_eq.symm.trans hfound)
    cases node with
    | «variable» written => exact Walk.ensures_pure.mpr hclean
    | index base place =>
      obtain ⟨base, place, rfl, rfl, rfl⟩ := Tree.exists_pair_of_ids hids
      have hbelow : ∀ child ∈ [base, place], program.Draws child ∧ program.SoundOperand child ∧
          (fits → child.height ≤ budget) := fun child hchild => ⟨hdraws.child hchild,
        Lifted.soundOperand_of_mem_children hsound hchild,
        fun h => Tree.height_le_of_mem_children hchild (hfits h)⟩
      simp only [List.forall_mem_cons] at hbelow
      obtain ⟨⟨hbase, hbaseSound, hbaseFits⟩, ⟨hposition, hpositionSound, hpositionFits⟩,
        -⟩ := hbelow
      rw [Walk.ensures_bind]
      exact (numbersCleanly_numberExpression hposition hpositionSound hpositionFits hclean).mono
        (fun _ _ hbetween => ih hbase hbaseSound hplace hbaseFits hbetween) fun _ _ => id
    | field record number =>
      obtain ⟨record, rfl, rfl⟩ := Tree.exists_single_of_ids hids
      exact ih (hdraws.child List.mem_cons_self)
        (Lifted.soundOperand_of_mem_children hsound List.mem_cons_self) hplace
        (fun h => Tree.height_le_of_mem_children List.mem_cons_self (hfits h)) hclean
    | _ => cases hplace

theorem numbersCleanly_numberStore {target : Tree} (hdraws : program.Draws target)
    (hsound : program.SoundOperand target) (hplace : target.isPlace = true)
    (hfits : fits → target.height ≤ config.maxDepth)
    {mask : UInt8} {value : Value} (hclean : start.Clean) :
    NumbersCleanly fits (program.numberStore config target.id mask value) start := by
  unfold numberStore
  simp only [NumbersCleanly, Walk.ensures_bind, Walk.ensures_liftCrash]
  refine (numbersCleanly_numberPlace hdraws hsound hplace hfits hclean).mono
    (fun written between hbetween part hpart => ?_) fun _ _ => id
  split
  · exact NumberingWalk.ensures_clean_handOut hbetween (Numberer.poisoned_writePart written value)
  · exact Walk.ensures_modify.mpr hbetween

/-- Numbering a sound statement. -/
theorem numbersCleanly_numberStatement {statement : Tree} (hdraws : program.Draws statement)
    (hsound : program.Sound statement)
    (hoperands : ∀ operand ∈ statement.children, program.SoundOperand operand)
    (hfits : fits → ∀ operand ∈ statement.children, operand.height ≤ config.maxDepth)
    (hclean : start.Clean) :
    NumbersCleanly fits (program.numberStatement config statement.id) start := by
  have hexpression : ∀ operand ∈ statement.children, ∀ state : Numberer, state.Clean →
      NumbersCleanly fits (program.numberExpression config.eligible config.maxDepth operand.id)
        state := fun operand hmem _ => numbersCleanly_numberExpression (hdraws.child hmem)
      (hoperands operand hmem) fun h => hfits h operand hmem
  have hstore : ∀ target ∈ statement.children, target.isPlace = true →
      ∀ (mask : UInt8) (value : Value) (state : Numberer), state.Clean →
      NumbersCleanly fits (program.numberStore config target.id mask value) state :=
    fun target hmem hplace _ _ _ => numbersCleanly_numberStore (hdraws.child hmem)
      (hoperands target hmem) hplace fun h => hfits h target hmem
  unfold numberStatement
  simp only [NumbersCleanly, Walk.ensures_bind, Walk.ensures_liftCrash]
  intro found hfound
  obtain rfl : statement.node = found := Except.ok.inj (hdraws.node_eq.symm.trans hfound)
  cases hsound with
  | assign id target value mask hplace =>
    rw [Walk.ensures_bind]
    exact (hexpression value (by simp) start hclean).mono
      (fun _ _ hbetween => hstore target (by simp) hplace _ _ _ hbetween) fun _ _ h => h
  | call id callee arguments result signature hsignature hlength hwritten hresult =>
    simp only [List.forall_mem_append] at hexpression hstore
    rw [Walk.ensures_bind, Walk.ensures_liftCrash]
    intro answer hanswer
    obtain rfl : signature = answer := Except.ok.inj (hsignature.symm.trans hanswer)
    split
    · unfold numberPureCall
      rw [Walk.ensures_bind]
      refine (Walk.ensures_mapM_facts Numberer.Clean (fun _ => True)
        (fun argument hmem state hstate => ?_) hclean).mono (fun values called hcalled => ?_)
        fun _ _ h => h
      · obtain ⟨argument, hargument, rfl⟩ := List.mem_map.mp hmem
        exact (hexpression.1 argument hargument state hstate).mono
          (fun _ _ hstop => ⟨hstop, trivial⟩) fun _ _ h => h
      rw [Walk.ensures_bind]
      refine (NumberingWalk.ensures_clean_handOut hcalled.1 (Numberer.poisoned_numberOf _)).mono
        (fun _ _ hcounted => ?_) fun _ _ h => h
      cases result with
      | none => exact Walk.ensures_modify.mpr hcounted
      | some target =>
        simp only [Option.map_some, Walk.ensures_bind]
        exact (numbersCleanly_recordNumber hcounted).mono (fun _ _ hnoted =>
          hstore.2 target (by simp) (hresult target rfl) _ _ _ hnoted) fun _ _ h => h
    · unfold numberEffectfulCall
      have hpassed : ∀ {passed : Param × NodeId},
          passed ∈ signature.params.zip (arguments.map Tree.id) → ∃ argument ∈ arguments,
            argument.id = passed.2 ∧ (passed.1.mode.writes = true → argument.isPlace = true) := by
        intro passed hmem
        rw [List.zip_map_right] at hmem
        obtain ⟨⟨param, argument⟩, hzip, rfl⟩ := List.mem_map.mp hmem
        exact ⟨argument, (List.of_mem_zip hzip).2, rfl, hwritten param argument hzip⟩
      rw [Walk.ensures_bind]
      refine (Walk.ensures_forM Numberer.Clean (fun passed hmem state hstate => ?_) hclean).mono
        (fun _ called hcalled => ?_) fun _ _ h => h
      · obtain ⟨argument, hargument, hsame, -⟩ := hpassed hmem
        dsimp only
        split
        · rw [Walk.ensures_bind, ← hsame]
          exact hexpression.1 argument hargument state hstate
        · exact Walk.ensures_pure.mpr hstate
      rw [Walk.ensures_bind]
      refine (Walk.ensures_forM Numberer.Clean (fun passed hmem state hstate => ?_) hcalled).mono
        (fun _ overwritten hoverwritten => ?_) fun _ _ h => h
      · obtain ⟨argument, hargument, hsame, hplace⟩ := hpassed hmem
        dsimp only
        split
        · next hmode =>
          rw [Walk.ensures_bind, ← hsame]
          exact (NumberingWalk.ensures_clean_handOut hstate rfl).mono (fun _ _ hfresh =>
            hstore.1 argument hargument (hplace hmode) _ _ _ hfresh) fun _ _ h => h
        · exact Walk.ensures_pure.mpr hstate
      rw [Walk.ensures_bind]
      refine (NumberingWalk.ensures_clean_handOut hoverwritten rfl).mono
        (fun number state hfresh => ?_) fun _ _ h => h
      have hset : (state.setValue id [number]).Clean := hfresh
      rw [Walk.ensures_bind, Walk.ensures_modify]
      cases result with
      | none => exact Walk.ensures_pure.mpr hset
      | some target =>
        rw [Option.map_some, Walk.ensures_bind]
        exact (NumberingWalk.ensures_clean_handOut hset rfl).mono (fun _ _ hstored =>
          hstore.2 target (by simp) (hresult target rfl) _ _ _ hstored) fun _ _ h => h
  | branch id condition thenBody elseBody =>
    rw [Walk.ensures_bind]
    exact hexpression condition (by simp) start hclean
  | loop id body => exact Walk.ensures_pure.mpr hclean
  | ret id operand | discard id operand =>
    cases operand with
    | none => exact Walk.ensures_pure.mpr hclean
    | some operand =>
      refine Walk.ensures_bind.mpr (Walk.ensures_bind.mpr ?_)
      exact hexpression operand (by simp) start hclean

/-- Numbering a row of sound statements. -/
theorem numbersCleanly_numberStatements {statements : List Tree}
    (hdraws : ∀ statement ∈ statements, program.Draws statement)
    (hsound : ∀ statement ∈ statements, program.Sound statement)
    (hoperands : ∀ statement ∈ statements, ∀ operand ∈ statement.children,
      program.SoundOperand operand) (config : Config) :
    NumbersCleanly (∀ statement ∈ statements, ∀ operand ∈ statement.children, operand.height ≤
      config.maxDepth) ((statements.map Tree.id).forM (program.numberStatement config)) {} := by
  refine Walk.ensures_forM Numberer.Clean (fun id hmem state hstate => ?_) ⟨rfl, Nat.zero_le _⟩
  obtain ⟨statement, hstatement, rfl⟩ := List.mem_map.mp hmem
  exact numbersCleanly_numberStatement (hdraws _ hstatement) (hsound _ hstatement)
    (hoperands _ hstatement) (fun hfits => hfits statement hstatement) hstate

/-- The numbering of a row of sound statements is what the steps of numbering make of it. -/
theorem exists_numbers_of_numberStatements {statements : List Tree} {numbering : Numbering}
    (hdraws : ∀ statement ∈ statements, program.Draws statement)
    (hsound : ∀ statement ∈ statements, program.Sound statement)
    (hoperands : ∀ statement ∈ statements, ∀ operand ∈ statement.children,
      program.SoundOperand operand) (hanswers : Query.Answers
      (program.numberStatements (statements.map Tree.id) config) numbering) :
    ∃ stop, NumbersStatements program config.eligible {} statements stop ∧
      numbering = stop.numbering ∧
      numbering.poisoned = false ∧ numbering.allocated ≤ IdAllocator.last := by
  have hclean := numbersCleanly_numberStatements hdraws hsound hoperands config
  unfold numberStatements at hanswers
  simp only [Query.answers_bind, Query.answers_liftCrash] at hanswers
  obtain ⟨⟨outcome, stop⟩, hrun, hanswers⟩ := hanswers
  cases outcome with
  | ok answer =>
    obtain rfl := Query.answers_pure.mp hanswers
    exact ⟨stop, numbersStatements_of_forM (fun statement hmem => ⟨hdraws _ hmem, hsound _ hmem⟩)
      hrun, rfl, hclean.of_answers hrun⟩
  | error fault =>
    obtain ⟨rfl, -⟩ := hclean.of_fails hrun
    exact absurd hanswers Query.answers_throw

end Program

end ShaderIR
