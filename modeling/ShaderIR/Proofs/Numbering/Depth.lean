import ShaderIR.Proofs.Numbering.Tables
import ShaderIR.Proofs.Pass.Depth

/-!
Numbering measures depth. A statement that has been numbered within the limit fits it, and only
calls that leave their arguments alone are noted as occurrences; `Program.fits_of_numberStatements`
says so of a whole block.
-/

set_option autoImplicit false

namespace ShaderIR

/-! ### Occurrences -/

/-- No call that writes its arguments is noted. -/
def Numbering.NotesPurely (program : Program) (numbering : Numbering) : Prop :=
  ∀ occurrence ∈ numbering.occurrences, program.CallsPurely occurrence.1

namespace Numberer

variable {program : Program} {numberer : Numberer}

@[simp] theorem occurrences_fresh :
    numberer.fresh.2.numbering.occurrences = numberer.numbering.occurrences :=
  rfl

@[simp] theorem occurrences_numberOf (key : Key) :
    (numberer.numberOf key).2.numbering.occurrences = numberer.numbering.occurrences := by
  unfold numberOf
  split <;> rfl

@[simp] theorem occurrences_setValue (id : NodeId) (value : Value) :
    (numberer.setValue id value).numbering.occurrences = numberer.numbering.occurrences :=
  rfl

@[simp] theorem occurrences_history (id : VarId) :
    (numberer.history id).2.numbering.occurrences = numberer.numbering.occurrences := by
  unfold history
  split <;> rfl

@[simp] theorem occurrences_read (id : VarId) :
    (numberer.read id).2.numbering.occurrences = numberer.numbering.occurrences :=
  occurrences_history id

@[simp] theorem occurrences_writeWhole (id : VarId) (value : Value) :
    (numberer.writeWhole id value).numbering.occurrences = numberer.numbering.occurrences :=
  rfl

@[simp] theorem occurrences_writePart (id : VarId) (value : Value) :
    (numberer.writePart id value).numbering.occurrences = numberer.numbering.occurrences := by
  unfold writePart
  simp

end Numberer

namespace Program

open Numberer NumberingWalk

variable {program : Program} {config : Config} {eligible : NodeKinds} {id : NodeId} {node : Node}
  {start : Numberer}

/-- The notes that were made so far. -/
abbrev Notes (program : Program) (numberer : Numberer) : Prop :=
  numberer.numbering.NotesPurely program

theorem notes_of_eq {numberer numberer' : Numberer} (hnotes : program.Notes numberer)
    (hsame : numberer'.numbering.occurrences = numberer.numbering.occurrences) :
    program.Notes numberer' := by
  unfold Notes Numbering.NotesPurely
  rw [hsame]
  exact hnotes

theorem ensures_recordNumber {number : ValueNumber} (hpurely : program.CallsPurely id)
    (hnotes : program.Notes start) : Walk.Ensures (recordNumber eligible id node number) start
      (fun _ stop => program.Notes stop) fun _ _ => True := by
  unfold recordNumber
  have hnoted : program.Notes ((start.addOccurrence id number).setValue id [number]) := by
    refine fun occurrence hmem => ?_
    rcases List.mem_append.mp hmem with hmem | hmem
    · exact hnotes occurrence hmem
    · exact List.mem_singleton.mp hmem ▸ hpurely
  split
  · simp only [Walk.ensures_bind, Walk.ensures_modify, Walk.ensures_pure]
    exact hnoted
  · simp only [Walk.ensures_bind, Walk.ensures_modify, Walk.ensures_pure]
    exact notes_of_eq hnotes rfl

theorem callsPurely_of_node (hnode : program.node id = .ok node)
    (hother : ∀ callee arguments result, node ≠ .call callee arguments result) :
    program.CallsPurely id := by
  intro callee arguments result hcall
  exact absurd (Except.ok.inj (hnode.symm.trans hcall)) (hother callee arguments result)

/-- An expression that has been numbered fits the budget. -/
theorem ensures_numberExpression {budget : Nat} (hnotes : program.Notes start) :
    Walk.Ensures (program.numberExpression eligible budget id) start
      (fun _ stop => program.Notes stop ∧ program.Fits budget id) fun _ _ => True := by
  induction budget generalizing id start with
  | zero => exact Walk.ensures_throw.mpr trivial
  | succ budget ih =>
    unfold numberExpression
    simp only [Walk.ensures_bind, Walk.ensures_liftCrash]
    intro node hnode
    have hfinish {key : Key} {state : Numberer} (hstate : program.Notes state)
        (hother : ∀ callee arguments result, node ≠ .call callee arguments result)
        (hfits : ∀ child ∈ node.children, program.Fits budget child) :
        Walk.Ensures (do
          let number ← handOut fun numberer => numberer.numberOf key
          recordNumber eligible id node number) state
          (fun _ stop => program.Notes stop ∧ program.Fits (budget + 1) id) fun _ _ => True := by
      simp only [Walk.ensures_bind, ensures_handOut]
      intro _
      refine (ensures_recordNumber (callsPurely_of_node hnode hother)
        (notes_of_eq hstate (occurrences_numberOf key))).mono (fun _ stop hstop => ?_)
        fun _ _ _ => trivial
      exact ⟨hstop, node, hnode, hfits⟩
    cases node with
    | constant value => exact hfinish hnotes (by simp) (by simp [Node.children])
    | «variable» read =>
      simp only [Walk.ensures_bind, ensures_handOut, Walk.ensures_modify, Walk.ensures_pure]
      exact fun _ => ⟨notes_of_eq hnotes (occurrences_read read), _, hnode, by simp [Node.children]⟩
    | index base place =>
      simp only [Walk.ensures_bind]
      refine (ih hnotes).mono (fun _ between hbase => ?_) fun _ _ _ => trivial
      refine (ih hbase.1).mono (fun _ stop hplace => ?_) fun _ _ _ => trivial
      rw [← Walk.ensures_bind]
      exact hfinish hplace.1 (by simp) (by simpa [Node.children] using ⟨hbase.2, hplace.2⟩)
    | field record number =>
      rw [Walk.ensures_bind]
      refine (ih hnotes).mono (fun _ stop hrecord => ?_) fun _ _ _ => trivial
      exact hfinish hrecord.1 (by simp) (by simpa [Node.children] using hrecord.2)
    | swizzle value mask =>
      rw [Walk.ensures_bind]
      refine (ih hnotes).mono (fun _ stop hvalue => ?_) fun _ _ _ => trivial
      exact hfinish hvalue.1 (by simp) (by simpa [Node.children] using hvalue.2)
    | apply op operands ty =>
      rw [Walk.ensures_bind]
      refine (Walk.ensures_mapM_facts program.Notes (program.Fits budget)
        (fun operand _ state hstate =>
          ih hstate) hnotes).mono (fun _ stop hoperands => ?_) fun _ _ _ => trivial
      exact hfinish hoperands.1 (by simp) hoperands.2
    | texture op channel operands ty =>
      rw [Walk.ensures_bind]
      refine (Walk.ensures_mapM_facts program.Notes (program.Fits budget)
        (fun operand _ state hstate =>
          ih hstate) hnotes).mono (fun _ stop hoperands => ?_) fun _ _ _ => trivial
      exact hfinish hoperands.1 (by simp) hoperands.2
    | _ => exact Walk.ensures_throw.mpr trivial

/-- An lvalue that has been numbered fits the budget. -/
theorem ensures_numberPlace {budget : Nat} (hnotes : program.Notes start) :
    Walk.Ensures (program.numberPlace eligible budget id) start
      (fun _ stop => program.Notes stop ∧ program.FitsPlace budget id) fun _ _ => True := by
  induction budget generalizing id start with
  | zero => exact Walk.ensures_throw.mpr trivial
  | succ budget ih =>
    unfold numberPlace
    simp only [Walk.ensures_bind, Walk.ensures_liftCrash]
    intro node hnode
    cases node with
    | «variable» written => exact Walk.ensures_pure.mpr ⟨hnotes, _, hnode, trivial⟩
    | index base place =>
      simp only [Walk.ensures_bind]
      refine (ensures_numberExpression hnotes).mono (fun _ between hplace => ?_)
        fun _ _ _ => trivial
      exact (ih hplace.1).mono (fun _ stop hbase => ⟨hbase.1, _, hnode, hplace.2, hbase.2⟩)
        fun _ _ _ => trivial
    | field record number =>
      exact (ih hnotes).mono (fun _ stop hrecord => ⟨hrecord.1, _, hnode, hrecord.2⟩)
        fun _ _ _ => trivial
    | _ => exact Walk.ensures_throw.mpr trivial

theorem ensures_numberStore {target : NodeId} {mask : UInt8} {value : Value}
    (hnotes : program.Notes start) :
    Walk.Ensures (program.numberStore config target mask value) start
      (fun _ stop => program.Notes stop ∧ program.FitsPlace config.maxDepth target) fun _ _ =>
        True := by
  unfold numberStore
  simp only [Walk.ensures_bind, Walk.ensures_liftCrash]
  refine (ensures_numberPlace hnotes).mono (fun written stop htarget => ?_) fun _ _ _ => trivial
  intro part _
  split
  · exact ensures_handOut.mpr fun _ =>
      ⟨notes_of_eq htarget.1 (occurrences_writePart written value), htarget.2⟩
  · exact ⟨notes_of_eq htarget.1 (occurrences_writeWhole written value), htarget.2⟩

/-! ### Statements -/

theorem ensures_numberPureCall {callee : SignatureId} {arguments : List NodeId}
    {result : Option NodeId} (hpurely : program.CallsPurely id) (hnotes : program.Notes start) :
    Walk.Ensures (program.numberPureCall config id node callee arguments result) start
      (fun _ stop => program.Notes stop ∧
        (∀ argument ∈ arguments, program.Fits config.maxDepth argument) ∧
        ∀ target ∈ result, program.FitsPlace config.maxDepth target) fun _ _ => True := by
  unfold numberPureCall
  simp only [Walk.ensures_bind, ensures_handOut]
  refine (Walk.ensures_mapM_facts program.Notes (program.Fits config.maxDepth)
    (fun argument _ state hstate => ensures_numberExpression hstate) hnotes).mono
    (fun values between harguments _ => ?_) fun _ _ _ => trivial
  have hbetween := notes_of_eq harguments.1 (occurrences_numberOf (.call callee values))
  cases result with
  | none =>
    exact Walk.ensures_modify.mpr ⟨notes_of_eq hbetween rfl, harguments.2, by simp⟩
  | some target =>
    simp only [Walk.ensures_bind]
    refine (ensures_recordNumber hpurely hbetween).mono (fun _ recorded hrecorded => ?_)
      fun _ _ _ => trivial
    exact (ensures_numberStore hrecorded).mono
      (fun _ stop hstop => ⟨hstop.1, harguments.2, by simpa using hstop.2⟩) fun _ _ _ => trivial

theorem ensures_numberEffectfulCall {passed : List (Param × NodeId)} {result : Option NodeId}
    (hnotes : program.Notes start) :
    Walk.Ensures (program.numberEffectfulCall config id passed result) start
      (fun _ stop => program.Notes stop ∧
        (∀ argument ∈ passed, program.FitsPassed config.maxDepth argument) ∧
        ∀ target ∈ result, program.FitsPlace config.maxDepth target) fun _ _ => True := by
  unfold numberEffectfulCall
  simp only [Walk.ensures_bind, ensures_handOut, Walk.ensures_modify]
  refine (Walk.ensures_forM_facts program.Notes (fun argument : Param × NodeId =>
    argument.1.mode = .input →
      program.Fits config.maxDepth argument.2) (fun passed _ state hstate => ?_)
    hnotes).mono (fun _ between hinputs => ?_) fun _ _ (_ : True) => trivial
  · obtain ⟨param, argument⟩ := passed
    dsimp only
    split
    · next hmode =>
      rw [Walk.ensures_bind]
      exact (ensures_numberExpression hstate).mono
        (fun _ stop hstop => ⟨hstop.1, fun _ => hstop.2⟩) fun _ _ _ => trivial
    · next hmode => exact Walk.ensures_pure.mpr ⟨hstate, fun hinput => absurd hinput hmode⟩
  refine (Walk.ensures_forM_facts program.Notes (fun argument : Param × NodeId =>
    argument.1.mode ≠ .input →
      program.FitsPlace config.maxDepth argument.2) (fun passed _ state hstate => ?_)
    hinputs.1).mono (fun _ stored houtputs => ?_) fun _ _ (_ : True) => trivial
  · obtain ⟨param, argument⟩ := passed
    dsimp only
    split
    · rw [Walk.ensures_bind, ensures_handOut]
      intro _
      exact (ensures_numberStore (notes_of_eq hstate occurrences_fresh)).mono
        (fun _ stop hstop => ⟨hstop.1, fun _ => hstop.2⟩) fun _ _ _ => trivial
    · next hmode =>
      refine Walk.ensures_pure.mpr ⟨hstate, fun hother => ?_⟩
      cases hkind : param.mode with
      | input => exact absurd hkind hother
      | output | inout => exact absurd (by rw [hkind]; rfl) hmode
  have hpassed : ∀ argument ∈ passed, program.FitsPassed config.maxDepth argument := by
    intro argument hargument
    unfold FitsPassed
    split
    · next hmode => exact hinputs.2 argument hargument hmode
    · next hmode => exact houtputs.2 argument hargument hmode
  intro _
  have hset : program.Notes (stored.fresh.2.setValue id [stored.fresh.1]) :=
    notes_of_eq houtputs.1 occurrences_fresh
  cases result with
  | none => exact Walk.ensures_pure.mpr ⟨hset, hpassed, by simp⟩
  | some target =>
    simp only [Walk.ensures_bind, ensures_handOut]
    intro _
    exact (ensures_numberStore (notes_of_eq hset occurrences_fresh)).mono
      (fun _ stop hstop => ⟨hstop.1, hpassed, by simpa using hstop.2⟩) fun _ _ _ => trivial

/-- A statement that has been numbered fits the limit. -/
theorem ensures_numberStatement (hnotes : program.Notes start) :
    Walk.Ensures (program.numberStatement config id) start
      (fun _ stop => program.Notes stop ∧ program.FitsStatement config.maxDepth id) fun _ _ =>
        True := by
  have hexpression {operand : NodeId} {state : Numberer} (hstate : program.Notes state) :
      Walk.Ensures (do let _ ← program.numberExpression config.eligible config.maxDepth operand)
        state (fun _ stop => program.Notes stop ∧ program.Fits config.maxDepth operand) fun _ _ =>
          True := by
    rw [Walk.ensures_bind]
    exact (ensures_numberExpression hstate).mono (fun _ _ hstop => hstop) fun _ _ _ => trivial
  unfold numberStatement
  simp only [Walk.ensures_bind, Walk.ensures_liftCrash]
  intro node hnode
  cases node with
  | assign target value mask =>
    simp only [Walk.ensures_bind]
    refine (ensures_numberExpression hnotes).mono (fun number between hvalue => ?_)
      fun _ _ _ => trivial
    exact (ensures_numberStore hvalue.1).mono
      (fun _ stop htarget => ⟨htarget.1, _, hnode, hvalue.2, htarget.2⟩) fun _ _ _ => trivial
  | call callee arguments result =>
    simp only [Walk.ensures_bind, Walk.ensures_liftCrash]
    intro signature hsignature
    split
    · next hpure =>
      have hpurely : program.CallsPurely id := by
        intro callee' arguments' result' hcall
        cases hnode.symm.trans hcall
        exact ⟨signature, hsignature, hpure⟩
      refine (ensures_numberPureCall hpurely hnotes).mono (fun _ stop hstop => ?_)
        fun _ _ _ => trivial
      refine ⟨hstop.1, _, hnode, signature, hsignature, fun passed hpassed => ?_,
        fun _ => hstop.2.1, hstop.2.2⟩
      have hinput : passed.1.mode = .input := by
        have hall := List.all_eq_true.mp hpure passed.1 (List.of_mem_zip hpassed).1
        simpa using hall
      exact (if_pos hinput).mpr (hstop.2.1 passed.2 (List.of_mem_zip hpassed).2)
    · next himpure =>
      refine (ensures_numberEffectfulCall hnotes).mono (fun _ stop hstop => ?_) fun _ _ _ => trivial
      exact ⟨hstop.1, _, hnode, signature, hsignature, hstop.2.1, fun hpure => absurd hpure himpure,
        hstop.2.2⟩
  | branch condition thenBody elseBody =>
    exact (hexpression hnotes).mono (fun _ stop hstop => ⟨hstop.1, _, hnode, hstop.2⟩)
      fun _ _ _ => trivial
  | ret operand | discard operand =>
    refine (Walk.ensures_forM_facts program.Notes (program.Fits config.maxDepth)
      (fun operand _ state hstate => hexpression hstate) hnotes).mono (fun _ stop hstop => ?_)
      fun _ _ _ => trivial
    exact ⟨hstop.1, _, hnode, fun value hvalue => hstop.2 value (Option.mem_toList.mpr hvalue)⟩
  | loop body => exact Walk.ensures_pure.mpr ⟨hnotes, _, hnode, trivial⟩
  | _ => exact Walk.ensures_throw.mpr trivial

/-- The statements of a numbered block that is not poisoned fit the limit, and no call that writes
its arguments may be shared. -/
theorem fits_of_numberStatements {statements : List NodeId} {numbering : Numbering}
    (hnumbering : Query.Answers (program.numberStatements statements config) numbering)
    (hpoisoned : numbering.poisoned = false) :
    (∀ statement ∈ statements, program.FitsStatement config.maxDepth statement) ∧
      numbering.NotesPurely program := by
  unfold numberStatements at hnumbering
  obtain ⟨⟨outcome, numberer⟩, hwalk, hanswer⟩ := Query.answers_bind.mp hnumbering
  have hensures : Walk.Ensures (statements.forM (program.numberStatement config)) {}
      (fun _ stop => program.Notes stop ∧
        ∀ statement ∈ statements, program.FitsStatement config.maxDepth statement) fun _ _ =>
        True := Walk.ensures_forM_facts program.Notes _ (fun statement _ state hstate =>
          ensures_numberStatement hstate) (by simp [Notes, Numbering.NotesPurely])
  cases outcome with
  | ok answer =>
    obtain rfl := Query.answers_pure.mp hanswer
    obtain ⟨hnotes, hfits⟩ := hensures.of_answers (Query.answers_liftCrash.mp hwalk)
    exact ⟨hfits, hnotes⟩
  | error fault =>
    cases fault with
    | tooDeep => exact (Query.answers_throw hanswer).elim
    | malformed id =>
      obtain rfl := Query.answers_pure.mp hanswer
      cases hpoisoned

end Program

end ShaderIR
