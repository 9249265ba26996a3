import ShaderIR.Proofs.Graph.Rebuilding
import ShaderIR.Proofs.Pass.BareTrees
import ShaderIR.Proofs.Pass.Flags

/-!
What sharing makes of the statements of blocks. `SharingPlan.EditedAll` says that statements have
been shared one after the other, each one replaced by rows and trees, and `BlockEdit.Edits` that
this has happened to a whole block unless it was skipped. This is what `SharingPlan.Steps` and
`Workspace.StepsAll` come to (`SharingPlan.Steps.exists_edited`, `Workspace.StepsAll.exists_edits`),
and all that comes up is sound (`BlockEdit.EditsAll.sound`).
-/

set_option autoImplicit false

namespace ShaderIR

open Program

namespace SharingPlan

variable {plan : SharingPlan} {program program' : Program} {memory memory' : Temporaries}
  {next next' : Nat} {statement : Tree} {rows : List Row} {trees : List Tree}

/-! ### Edited statements -/

theorem soundOperand_readTree {leaf : NodeId} {temporary : VarId}
    (hlt : temporary.index < program.vars.size) :
    program.SoundOperand (readTree leaf temporary) :=
  Tree.forall_subtrees_mk.mpr ⟨⟨rfl, fun _ hread => by cases hread; exact hlt, nofun⟩, by simp⟩

theorem soundStatement_copyTree {copy leaf : NodeId} {temporary : VarId} {target : Tree}
    (hplace : target.isPlace = true) (htarget : program.SoundOperand target)
    (hlt : temporary.index < program.vars.size) :
    program.SoundStatement (copyTree copy leaf temporary target) where
  sound := .assign copy target (readTree leaf temporary) 0 hplace
  operands := by simpa using ⟨soundOperand_readTree hlt, htarget⟩

theorem of_callTree {id : NodeId} {callee : SignatureId} {arguments : List Tree} {target : Tree}
    {signature : Signature} (hsound : program.Sound (callTree id callee arguments target))
    (hsignature : program.signature callee = .ok signature) :
    signature.params.length = arguments.length ∧ target.isPlace = true := by
  have hcall : program.Sound ⟨id, .call callee (arguments.map Tree.id) ((some target).map Tree.id),
    arguments ++ (some target).toList⟩ := hsound
  exact (hcall.of_call hsignature).imp_right fun hresult => hresult target rfl

/-- If the statement is a repeated call, it leaves its arguments alone. -/
def SharesPurely (plan : SharingPlan) (program : Program) (statement : Tree) : Prop :=
  ∀ callee arguments result, statement.node = .call callee arguments result →
    (plan.targets.lookup statement.id).isSome →
      ∃ signature, program.signature callee = .ok signature ∧ signature.isPure

theorem SharesPurely.of_signatures {other : Program} (hpurely : plan.SharesPurely program statement)
    (hsignatures : other.signatures = program.signatures) : plan.SharesPurely other statement := by
  unfold SharesPurely Program.signature at hpurely ⊢
  rwa [hsignatures]

theorem SharesPurely.of_bare_eq {statement' : Tree} (hpurely : plan.SharesPurely program statement)
    (hsame : statement.bare = statement'.bare) : plan.SharesPurely program statement' := by
  rcases Tree.eq_or_of_bare_eq hsame with rfl | ⟨_, _, _, _, _, _, _, -, rfl⟩ | ⟨_, _, _, _, -, rfl⟩
  · exact hpurely
  · exact fun _ _ _ hnode => by cases hnode
  · exact fun _ _ _ hnode => by cases hnode

/-- What stands for an edited statement is as sound as the old one. -/
theorem Edited.sound
    (hedited : plan.Edited program program' memory next statement rows trees memory' next')
    (hsound : program.SoundStatement statement) (hlinked : statement.Linked)
    (hpurely : plan.SharesPurely program statement)
    (hsignatures : program'.signatures = program.signatures)
    (hvars : program.vars.size ≤ program'.vars.size) (hnext : next' ≤ program'.vars.size)
    (hmemory : ∀ number temporary, memory.lookup number = some temporary → temporary.index < next) :
    (∀ edited ∈ rows.map Row.statement ++ trees, program'.SoundStatement edited) ∧
      ∀ number temporary, memory'.lookup number = some temporary → temporary.index < next' := by
  have hrow {rows : List Row} (hrows : ∀ row ∈ rows, program'.SoundOperand row.value ∧
      row.temporary.index < program'.vars.size) :
      ∀ edited ∈ rows.map Row.statement, program'.SoundStatement edited :=
    List.forall_mem_map.mpr fun row hrow => soundStatement_row (hrows row hrow).1 (hrows row hrow).2
  cases hedited with
  | operands hnumber hlifted _ =>
    exact hsound.edited hlinked hlifted hsignatures hvars hnext hmemory
  | dropped hnumber => exact ⟨by simpa using hsound.mono hvars hsignatures, hmemory⟩
  | @first memory₁ _ next₁ id place copy leaf callee arguments arguments' target target' _ number
      signature name hnumber hfresh hsignature hlifted hdeclares hdeclared =>
    have hforest : ∀ item ∈ arguments.map (Role.value, ·) ++ [(Role.place, target)],
        item.2 ∈ (callTree id callee arguments target).children := by
      intro item hitem
      have hmem : item.2 ∈ (arguments.map (Role.value, ·) ++ [(Role.place, target)]).map Prod.snd :=
        List.mem_map_of_mem hitem
      simpa using hmem
    obtain ⟨hparts, hrows, hmemory₁⟩ := hlifted.sound hvars (by omega) hmemory
      (fun item hitem => hlinked.child (hforest item hitem)) fun item hitem =>
        hsound.operands _ (hforest item hitem)
    obtain ⟨harguments, htarget⟩ := List.forall_mem_append.mp hparts
    have hcount : (arguments.map (Role.value, ·)).length = arguments'.length := by
      simpa using hlifted.length_eq.symm
    obtain ⟨-, hplace⟩ := forall₂_of_append hlifted.isPlace hcount
    obtain ⟨hlength, hplace'⟩ := of_callTree hsound.sound hsignature
    have hplace : target'.isPlace = true := (List.forall₂_cons.mp hplace).1 rfl hplace'
    have hlt : next₁ < program'.vars.size := by omega
    have hcall :
        program'.SoundStatement (callTree id callee arguments' (readTree place ⟨next₁⟩)) := by
      obtain ⟨found, hfound, hpure⟩ := hpurely _ _ _ rfl (hnumber ▸ rfl)
      obtain rfl := Except.ok.inj (hsignature.symm.trans hfound)
      refine ⟨.call id callee arguments' (some (readTree place ⟨next₁⟩)) signature ?_ ?_ ?_ ?_,
        List.forall_mem_append.mpr ⟨harguments, by simpa using soundOperand_readTree hlt⟩⟩
      · rw [← hsignature, Program.signature, Program.signature, hsignatures]
      · simpa using hlength.trans (by simpa using hcount)
      · intro param argument hpassed hwrites
        rw [eq_of_beq (List.all_eq_true.mp hpure param (List.of_mem_zip hpassed).1)] at hwrites
        cases hwrites
      · rintro _ ⟨⟩
        rw [Tree.isPlace, Tree.fold_mk]
    refine ⟨List.forall_mem_append.mpr ⟨hrow hrows,
        List.forall_mem_cons.mpr ⟨hcall, List.forall_mem_singleton.mpr
      (soundStatement_copyTree hplace (htarget _ List.mem_cons_self) hlt)⟩⟩,
      fun number' temporary hlookup => ?_⟩
    have hremembered : ((some number).toList.map (·, (⟨next₁⟩ : VarId)) ++ memory₁).lookup number' =
        some temporary := hlookup
    rcases Lifted.lookup_remembered hremembered with ⟨-, rfl⟩ | hlookup
    · exact Nat.lt_succ_self _
    · exact (hmemory₁ number' temporary hlookup).trans (Nat.lt_succ_self _)
  | @again _ _ _ id copy leaf callee arguments target target' _ number temporary hnumber hheld
      hlifted hdeclares =>
    have htarget : target ∈ (callTree id callee arguments target).children := by simp
    obtain ⟨signature, hsignature, -⟩ := hpurely _ _ _ rfl (hnumber ▸ rfl)
    obtain ⟨hparts, hrows, hmemory'⟩ := hlifted.sound hvars hnext hmemory
      (by simpa using hlinked.child htarget) (by simpa using hsound.operands target htarget)
    have hplace : target'.isPlace = true :=
      (List.forall₂_cons.mp hlifted.isPlace).1 rfl (of_callTree hsound.sound hsignature).2
    have hle := hlifted.next_eq
    have hlt := hmemory number temporary hheld
    exact ⟨List.forall_mem_append.mpr ⟨hrow hrows, List.forall_mem_singleton.mpr
      (soundStatement_copyTree hplace (hparts _ List.mem_cons_self) (by omega))⟩, hmemory'⟩

theorem Edited.next_le
    (hedited : plan.Edited program program' memory next statement rows trees memory' next') :
    next ≤ next' := by
  cases hedited with
  | operands _ hlifted _ | first _ _ _ hlifted _ _ | again _ _ hlifted _ =>
    have := hlifted.next_eq
    omega
  | dropped => exact le_rfl

/-- An edit depends on its program through the signatures only. -/
theorem Edited.of_signatures {other : Program}
    (hedited : plan.Edited program program' memory next statement rows trees memory' next')
    (hsignatures : other.signatures = program.signatures) :
    plan.Edited other program' memory next statement rows trees memory' next' := by
  have hsignature : ∀ callee, other.signature callee = program.signature callee := fun callee => by
    rw [Program.signature, Program.signature, hsignatures]
  have hparts : other.parts .value statement = program.parts .value statement := by
    simp only [Program.parts, hsignature]
  cases hedited with
  | operands hnumber hlifted hdeclares => exact .operands hnumber (hparts ▸ hlifted) hdeclares
  | dropped hnumber => exact .dropped hnumber
  | first hnumber hfresh hfound hlifted hdeclares hdeclared =>
    exact .first hnumber hfresh ((hsignature _).trans hfound) hlifted hdeclares hdeclared
  | again hnumber hheld hlifted hdeclares => exact .again hnumber hheld hlifted hdeclares

/-- An edit of a statement does not depend on its lists. -/
theorem Edited.of_bare_eq {statement' : Tree}
    (hedited : plan.Edited program program' memory next statement rows trees memory' next')
    (hsame : statement.bare = statement'.bare) :
    ∃ trees', plan.Edited program program' memory next statement' rows trees' memory' next' ∧
      trees'.map Tree.bare = trees.map Tree.bare := by
  rcases Tree.eq_or_of_bare_eq hsame with rfl | hcontrol
  · exact ⟨trees, hedited, rfl⟩
  · have hparts : program.parts .value statement' = program.parts .value statement := by
      rcases hcontrol with ⟨_, _, _, _, _, _, _, rfl, rfl⟩ | ⟨_, _, _, _, rfl, rfl⟩ <;> rfl
    have hcall : ∀ callee arguments result, statement'.node ≠ .call callee arguments result := by
      rcases hcontrol with ⟨_, _, _, _, _, _, _, -, rfl⟩ | ⟨_, _, _, _, -, rfl⟩ <;> simp
    cases hedited with
    | operands hnumber hlifted hdeclares =>
      exact ⟨_, .operands (fun _ _ _ hnode => absurd hnode (hcall _ _ _)) (hparts ▸ hlifted)
        hdeclares, congrArg (List.cons · []) (Tree.withChildren_bare_eq hsame _).symm⟩
    | _ => rcases hcontrol with ⟨_, _, _, _, _, _, _, h, -⟩ | ⟨_, _, _, _, h, -⟩ <;> cases h

end SharingPlan

/-! ### Statements one after the other -/

/-- What has become of a statement: rows, and behind them the trees that stand for what was left of
it. -/
structure Replacement where
  rows : List Row
  rest : List Tree

namespace Replacement

/-- The statements in their order. -/
def trees (replaced : Replacement) : List Tree :=
  replaced.rows.map Row.statement ++ replaced.rest

/-- A statement that has been left alone. -/
def unchanged (statement : Tree) : Replacement :=
  ⟨[], [statement]⟩

end Replacement

namespace SharingPlan

/-- Statements have been shared one after the other. Before and after, the memory tells which
temporaries hold which numbers, and the next temporary has this index. -/
inductive EditedAll (plan : SharingPlan) (program program' : Program) :
    Temporaries → Nat → List Tree →
    List Replacement → Temporaries → Nat → Prop
  | nil (memory : Temporaries) (next : Nat) :
      EditedAll plan program program' memory next [] [] memory next
  | cons {memory memory₁ memory' : Temporaries} {next next₁ next' : Nat} {statement : Tree}
    {statements : List Tree} {replaced : Replacement} {others : List Replacement}
    (hfirst : plan.Edited program program' memory
      next statement replaced.rows replaced.rest memory₁ next₁)
    (hrest : EditedAll plan program program' memory₁ next₁ statements others memory' next') :
    EditedAll plan program program' memory next (statement :: statements)
      (replaced :: others) memory' next'

variable {plan : SharingPlan} {program program' : Program}
  {memory memory' : Temporaries} {next next' : Nat}
  {statements : List Tree} {replaced : List Replacement} {draft draft' : Draft Temporaries}

theorem EditedAll.mono {program₁ : Program}
    (hedited : plan.EditedAll program program₁ memory next statements replaced memory' next')
    (hvars : ∀ (index : Nat) declared, program₁.vars[index]? = some declared →
      program'.vars[index]? = some declared)
    (hsignatures : program'.signatures = program₁.signatures) :
    plan.EditedAll program program' memory next statements replaced memory' next' := by
  induction hedited with
  | nil => exact .nil _ _
  | cons hfirst _ ih => exact .cons (hfirst.mono hvars hsignatures) ih

theorem EditedAll.of_signatures {other : Program}
    (hedited : plan.EditedAll program program' memory next statements replaced memory' next')
    (hsignatures : other.signatures = program.signatures) :
    plan.EditedAll other program' memory next statements replaced memory' next' := by
  induction hedited with
  | nil => exact .nil _ _
  | cons hfirst _ ih => exact .cons (hfirst.of_signatures hsignatures) ih

theorem EditedAll.next_le
    (hedited : plan.EditedAll program program' memory next statements replaced memory' next') :
    next ≤ next' := by
  induction hedited with
  | nil => exact le_rfl
  | cons hfirst _ ih => exact hfirst.next_le.trans ih

/-- What stands for edited statements is as sound as the old ones. -/
theorem EditedAll.sound
    (hedited : plan.EditedAll program program' memory next statements replaced memory' next')
    (hsound : ∀ statement ∈ statements, program.SoundStatement statement)
    (hlinked : ∀ statement ∈ statements, statement.Linked)
    (hpurely : ∀ statement ∈ statements, plan.SharesPurely program statement)
    (hsignatures : program'.signatures = program.signatures)
    (hvars : program.vars.size ≤ program'.vars.size) (hnext : next' ≤ program'.vars.size)
    (hmemory : ∀ number temporary, memory.lookup number = some temporary → temporary.index < next) :
    ∀ edited ∈ replaced.flatMap Replacement.trees, program'.SoundStatement edited := by
  induction hedited with
  | nil => simp
  | cons hfirst hrest ih =>
    rw [List.forall_mem_cons] at hsound hlinked hpurely
    obtain ⟨hmade, hmemory₁⟩ := hfirst.sound hsound.1 hlinked.1 hpurely.1 hsignatures hvars
      (hrest.next_le.trans hnext) hmemory
    rw [List.flatMap_cons]
    exact List.forall_mem_append.mpr ⟨hmade, ih hsound.2 hlinked.2 hpurely.2 hnext hmemory₁⟩

theorem vars_eq_of_bare_eq (hsame : program.bare = program'.bare) :
    program.vars = program'.vars ∧ program.signatures = program'.signatures := by
  simp only [Program.bare, Program.mk.injEq] at hsame
  exact ⟨hsame.2.1, hsame.2.2.1⟩

/-- Sharing in one statement after the other edits them. -/
theorem Steps.exists_edited {entries : List (NodeId × List NodeId)}
    (hsteps : plan.Steps draft entries draft')
    (hids : entries.map Prod.fst = statements.map Tree.id)
    (hsound : ∀ statement ∈ statements, draft.program.SoundStatement statement)
    (hpurely : ∀ statement ∈ statements, plan.SharesPurely draft.program statement)
    (hseparate : draft.program.bare.Separate (statements.map Tree.bare))
    (hmemory : ∀ number temporary, draft.memory.lookup number = some temporary →
      temporary.index < draft.program.vars.size) :
    ∃ replaced, plan.EditedAll draft.program draft'.program draft.memory
      draft.program.vars.size statements replaced draft'.memory draft'.program.vars.size ∧
      draft.program.bare.Yields draft'.program.bare (statements.flatMap Tree.ids)
        ((replaced.flatMap Replacement.trees).map Tree.bare) ∧
      entries.map Prod.snd = replaced.map fun replaced => replaced.trees.map Tree.id := by
  induction hsteps generalizing statements with
  | nil draft =>
    obtain rfl := List.map_eq_nil_iff.mp hids.symm
    exact ⟨[], .nil _ _, .of_separate hseparate, rfl⟩
  | @cons draft between draft' id answer entries program hpending hshares hprogram hrest ih =>
    obtain ⟨statement, statements, rfl, rfl, hrestIds⟩ := List.map_eq_cons_iff.mp hids.symm
    obtain ⟨hfirst, hsound⟩ := List.forall_mem_cons.mp hsound
    obtain ⟨hpurelyFirst, hpurely⟩ := List.forall_mem_cons.mp hpurely
    obtain ⟨drawn, hdrawn, hsame⟩ :=
      (hseparate.draws statement.bare (by simp)).exists_of_bare hfirst.operands
    have hid := Tree.id_eq_of_bare_eq hsame
    have hdrawnIds :
        drawn.ids = statement.ids := by rw [← drawn.ids_bare, hsame, statement.ids_bare]
    have hsoundDrawn := hfirst.of_bare_eq hsame.symm
    have hseparateDrawn : draft.program.Separate [drawn] := by
      refine ⟨by simpa using hdrawn, ?_⟩
      have hnodup := (hseparate.left [statement.bare]).nodup
      simpa [hdrawnIds] using hnodup
    -- the first statement is edited, and the lists are written back
    rw [← hid] at hshares
    obtain ⟨rows, trees, hedited, hyields, hwaiting, rfl⟩ :=
      exists_of_shareStatement hsoundDrawn.sound hseparateDrawn hshares
    rw [hpending, List.nil_append] at hwaiting
    obtain ⟨hvars, hsignatures⟩ := vars_eq_of_bare_eq hprogram
    have hkept := size_le_of_getElem? hyields.vars
    obtain ⟨hmade, hmemory₁⟩ := hedited.sound hsoundDrawn hdrawn.linked
      (hpurelyFirst.of_bare_eq hsame.symm) hyields.signatures hkept le_rfl hmemory
    have hbare := hyields.bare fun tree htree => (hmade tree htree).operands
    rw [← hprogram] at hbare
    have hsignatures' : program.signatures = draft.program.signatures := hbare.signatures
    have hdisjoint := hseparate.disjoint [statement.bare]
    dsimp only at ih
    rw [hvars] at ih
    obtain ⟨others, hall, hyields', hanswers⟩ := ih hrestIds.symm
      (fun other hother => (hsound other hother).mono (by rwa [hvars]) hsignatures')
      (fun other hother => (hpurely other hother).of_signatures hsignatures') (hbare.separate
        (hseparate.right [statement.bare]) (by simpa [hdrawnIds] using hdisjoint.symm)) hmemory₁
    obtain ⟨trees', hedited', hbareTrees⟩ := hedited.of_bare_eq hsame
    have hids : trees'.map Tree.id = trees.map Tree.id := by
      have hsame := congrArg (List.map Tree.id) hbareTrees
      simpa [Function.comp_def] using hsame
    refine ⟨⟨rows, trees'⟩ :: others, .cons (hedited'.mono (fun index declared hdeclared => ?_) ?_)
      (hall.of_signatures hsignatures'.symm), ?_, ?_⟩
    · rw [← hvars] at hdeclared
      exact hyields'.vars index declared hdeclared
    · exact hyields'.signatures.trans hsignatures
    · have hlater :
          ∀ id ∈ statements.flatMap Tree.ids, id.index < draft.program.bare.nodes.size := by
        simpa using (hseparate.right [statement.bare]).lt_size
      have happend := hbare.append hyields' (by simpa [hdrawnIds] using hdisjoint) hlater
      simpa [Replacement.trees, hdrawnIds, hbareTrees] using happend
    · rw [List.map_cons, List.map_cons, hanswers, hwaiting, Replacement.trees, List.map_append,
        List.map_map, hids]
      rfl

theorem Steps.flagged {entries : List (NodeId × List NodeId)} {least : Nat}
    (hsteps : plan.Steps draft entries draft') (hdraft : draft.Flagged least) :
    draft'.Flagged least := by
  induction hsteps with
  | nil => exact hdraft
  | cons _ hshares _ _ ih =>
    have hafter := (plan.preserves_shareStatement _ _ hdraft).of_answers hshares
    exact ih ⟨hafter.changed_iff, hafter.least_le⟩

end SharingPlan

/-! ### Blocks -/

/-- What sharing makes of a numbered block. -/
structure BlockEdit where
  numbering : Numbering
  statements : List Tree
  replaced : List Replacement
  /-- The temporaries that hold the shared numbers in the end. -/
  memory : Temporaries

namespace BlockEdit

/-- The statements that stand in the block in the end. -/
def trees (edit : BlockEdit) : List Tree :=
  edit.replaced.flatMap Replacement.trees

/-- What sharing had to know of the block. -/
def plan (edit : BlockEdit) (config : Config) : SharingPlan :=
  .ofNumbering edit.numbering config

/-- The block has been skipped, or its statements have been shared one after the other. Before and
after, the next temporary has this index. -/
inductive Edits (config : Config) (program program' : Program) (edit : BlockEdit) (next : Nat) :
    Nat → Prop
  | skipped (hplan : edit.numbering.poisoned = true ∨ (edit.plan config).targets = [])
    (hreplaced : edit.replaced = edit.statements.map .unchanged) (hmemory : edit.memory = []) :
    Edits config program program' edit next next
  | shared {next' : Nat} (hpoisoned : edit.numbering.poisoned = false)
    (hedited : (edit.plan config).EditedAll program program'
      [] next edit.statements edit.replaced edit.memory next') :
    Edits config program program' edit next next'

/-- Blocks have been shared one after the other. -/
inductive EditsAll (config : Config) (program program' : Program) :
    Nat → List BlockEdit → Nat → Prop
  | nil (next : Nat) : EditsAll config program program' next [] next
  | cons {next next₁ next' : Nat} {edit : BlockEdit} {edits : List BlockEdit}
    (hfirst : edit.Edits config program program' next next₁)
    (hrest : EditsAll config program program' next₁ edits next') :
    EditsAll config program program' next (edit :: edits) next'

variable {config : Config} {program program' other : Program} {edit : BlockEdit}
  {edits : List BlockEdit} {next next' : Nat}

theorem Edits.mono {program₁ : Program} (hedits : edit.Edits config program program₁ next next')
    (hvars : ∀ (index : Nat) declared, program₁.vars[index]? = some declared →
      program'.vars[index]? = some declared)
    (hsignatures : program'.signatures = program₁.signatures) :
    edit.Edits config program program' next next' := by
  cases hedits with
  | skipped hplan hreplaced hmemory => exact .skipped hplan hreplaced hmemory
  | shared hpoisoned hedited => exact .shared hpoisoned (hedited.mono hvars hsignatures)

theorem Edits.of_signatures (hedits : edit.Edits config program program' next next')
    (hsignatures : other.signatures = program.signatures) :
    edit.Edits config other program' next next' := by
  cases hedits with
  | skipped hplan hreplaced hmemory => exact .skipped hplan hreplaced hmemory
  | shared hpoisoned hedited => exact .shared hpoisoned (hedited.of_signatures hsignatures)

theorem Edits.next_le (hedits : edit.Edits config program program' next next') : next ≤ next' := by
  cases hedits with
  | skipped => exact le_rfl
  | shared _ hedited => exact hedited.next_le

theorem EditsAll.next_le (hedits : EditsAll config program program' next edits next') :
    next ≤ next' := by
  induction hedits with
  | nil => exact le_rfl
  | cons hfirst _ ih => exact hfirst.next_le.trans ih

/-- What stands in an edited block is as sound as what stood in it. -/
theorem Edits.sound (hedits : edit.Edits config program program' next next')
    (hsound : ∀ statement ∈ edit.statements, program.SoundStatement statement)
    (hlinked : ∀ statement ∈ edit.statements, statement.Linked)
    (hpurely : edit.numbering.poisoned = false →
      ∀ statement ∈ edit.statements, (edit.plan config).SharesPurely program statement)
    (hsignatures : program'.signatures = program.signatures)
    (hvars : program.vars.size ≤ program'.vars.size) (hnext : next' ≤ program'.vars.size) :
    ∀ edited ∈ edit.trees, program'.SoundStatement edited := by
  cases hedits with
  | skipped _ hreplaced _ =>
    rw [trees, hreplaced]
    simpa [List.flatMap_map, Replacement.trees, Replacement.unchanged] using
      fun statement hstatement => (hsound statement hstatement).mono hvars hsignatures
  | shared hpoisoned hedited =>
    exact hedited.sound hsound hlinked (hpurely hpoisoned) hsignatures hvars hnext (by simp)

theorem EditsAll.exists_edits (hedits : EditsAll config program program' next edits next') :
    ∀ edit ∈ edits, ∃ first last, edit.Edits config program program' first last ∧ next ≤ first ∧
      last ≤ next' := by
  induction hedits with
  | nil => simp
  | cons hfirst hrest ih =>
    refine List.forall_mem_cons.mpr ⟨⟨_, _, hfirst, le_rfl, hrest.next_le⟩, fun edit hmem => ?_⟩
    obtain ⟨first, last, hedits, hfirst', hlast⟩ := ih edit hmem
    exact ⟨first, last, hedits, hfirst.next_le.trans hfirst', hlast⟩

theorem EditsAll.of_signatures (hedits : EditsAll config program program' next edits next')
    (hsignatures : other.signatures = program.signatures) :
    EditsAll config other program' next edits next' := by
  induction hedits with
  | nil => exact .nil _
  | cons hfirst _ ih => exact .cons (hfirst.of_signatures hsignatures) ih

theorem sharesPurely_of_numberStatements {origin : Program}
    {ids : List NodeId} {numbering : Numbering}
    (hnumbering : Query.Answers (origin.numberStatements ids config) numbering)
    (hpoisoned : numbering.poisoned = false) {statement : Tree} (hdraws : origin.Draws statement)
    (hsignatures : program.signatures = origin.signatures) :
    (SharingPlan.ofNumbering numbering config).SharesPurely program statement := by
  refine SharingPlan.SharesPurely.of_signatures (fun callee arguments result hnode hlookup => ?_)
    hsignatures
  have hnotes := (fits_of_numberStatements hnumbering hpoisoned).2
  exact SharingPlan.callsPurely_of_lookup hnotes hlookup callee arguments result
    (hnode ▸ hdraws.node_eq)

/-- What stands in blocks that have been numbered and edited is as sound as what stood in them. -/
theorem EditsAll.sound (hedits : EditsAll config program program' next edits next')
    (hnumbered : ∀ edit ∈ edits, ∃ ids, Query.Answers (program.numberStatements ids config)
      edit.numbering) (hstatements : ∀ edit ∈ edits, ∀ statement ∈ edit.statements,
      program.Draws statement ∧ program.SoundStatement statement)
    (hsignatures : program'.signatures = program.signatures)
    (hvars : program.vars.size ≤ program'.vars.size) (hnext : next' ≤ program'.vars.size) :
    ∀ edit ∈ edits, ∀ edited ∈ edit.trees, program'.SoundStatement edited := by
  intro edit hedit
  obtain ⟨ids, hnumbering⟩ := hnumbered edit hedit
  obtain ⟨first, last, hone, -, hlast⟩ := hedits.exists_edits edit hedit
  have hstatement := hstatements edit hedit
  exact hone.sound (fun statement hmem => (hstatement statement hmem).2)
    (fun statement hmem => (hstatement statement hmem).1.linked)
    (fun hpoisoned statement hmem =>
      sharesPurely_of_numberStatements hnumbering hpoisoned (hstatement statement hmem).1 rfl)
    hsignatures hvars (hlast.trans hnext)

end BlockEdit

namespace Workspace

variable {config : Config} {row : NodeId → List NodeId} {workspace workspace' : Workspace}

/-- A block that has been skipped or shared has been edited. -/
theorem Steps.exists_edit {numbering : Numbering} {statements : List Tree}
    (hsteps : Workspace.Steps numbering config row (statements.map Tree.id) workspace workspace')
    (hsound : ∀ statement ∈ statements, workspace.program.SoundStatement statement)
    (hpurely : numbering.poisoned = false → ∀ statement ∈ statements,
      (SharingPlan.ofNumbering numbering config).SharesPurely workspace.program statement)
    (hseparate : workspace.program.bare.Separate (statements.map Tree.bare)) :
    ∃ edit : BlockEdit, edit.numbering = numbering ∧ edit.statements = statements ∧
      edit.Edits config workspace.program workspace'.program workspace.program.vars.size
        workspace'.program.vars.size ∧
      workspace.program.bare.Yields workspace'.program.bare (statements.flatMap Tree.ids)
        (edit.trees.map Tree.bare) ∧
      (statements.map fun statement => row statement.id) =
        edit.replaced.map (fun replaced => replaced.trees.map Tree.id) ∧
      (workspace'.graph.changed = true ↔ workspace.graph.changed = true ∨ edit.memory ≠ []) := by
  cases hsteps with
  | skipped hplan hself =>
    refine ⟨⟨numbering, statements, statements.map .unchanged, []⟩, rfl, rfl,
      .skipped hplan rfl rfl, ?_, ?_, by simp⟩
    · have htrees :
          (statements.map Replacement.unchanged).flatMap Replacement.trees = statements := by
        simp [List.flatMap_map, Replacement.trees, Replacement.unchanged]
      rw [BlockEdit.trees, htrees]
      simpa using Yields.of_separate hseparate
    · refine (List.map_congr_left fun statement hmem => hself _ (List.mem_map_of_mem hmem)).trans ?_
      simp [Function.comp_def, Replacement.trees, Replacement.unchanged]
  | @shared _ draft hpoisoned hsteps hprogram hchanged =>
    obtain ⟨replaced, hedited, hyields, hrows⟩ := hsteps.exists_edited (by simp [Function.comp_def])
      hsound (hpurely hpoisoned) hseparate (by simp)
    have hflagged : draft.Flagged 0 := hsteps.flagged ⟨by simp, Nat.zero_le _⟩
    rw [← hprogram] at hedited hyields
    refine ⟨⟨numbering, statements, replaced, draft.memory⟩, rfl, rfl, .shared hpoisoned hedited,
      hyields, ?_, ?_⟩
    · simpa [Function.comp_def] using hrows
    · rw [hchanged, Bool.or_eq_true, hflagged.changed_iff]

/-- Numbered blocks that have been skipped or shared one after the other have been edited. -/
theorem StepsAll.exists_edits {origin : Program}
    {graph : Graph} {entries : List (BlockId × Numbering)}
    (hsteps : Workspace.StepsAll origin graph config row workspace entries workspace')
    (hlocated : graph.Located)
    {blocks : List BasicBlock} (trees : BasicBlock → List Tree) (hblocks : blocks ⊆ graph.blocks)
    (hentries : List.Forall₂ (fun block entry => block.id = entry.1 ∧
        Query.Answers (origin.numberStatements (block.row origin) config) entry.2) blocks entries)
    (hids : ∀ block ∈ blocks, (trees block).map Tree.id = block.row origin)
    (hsound : ∀ block ∈ blocks, ∀ statement ∈ trees block, origin.Draws statement ∧
      origin.SoundStatement statement) (hvars : origin.vars.size ≤ workspace.program.vars.size)
    (hsignatures : workspace.program.signatures = origin.signatures)
    (hseparate : workspace.program.bare.Separate ((blocks.flatMap trees).map Tree.bare)) :
    ∃ edits : List BlockEdit, List.Forall₂ (fun block edit => edit.statements = trees block ∧
        Query.Answers (origin.numberStatements (block.row origin) config) edit.numbering)
        blocks edits ∧
      BlockEdit.EditsAll config workspace.program workspace'.program
        workspace.program.vars.size edits workspace'.program.vars.size ∧
      workspace.program.bare.Yields workspace'.program.bare
        ((blocks.flatMap trees).flatMap Tree.ids) ((edits.flatMap BlockEdit.trees).map Tree.bare) ∧
      (∀ edit ∈ edits, (edit.statements.map fun statement => row statement.id) =
        edit.replaced.map fun replaced => replaced.trees.map Tree.id) ∧
      (workspace'.graph.changed = true ↔ workspace.graph.changed = true ∨ ∃ edit ∈ edits,
        edit.memory ≠ []) := by
  induction hsteps generalizing blocks with
  | nil workspace =>
    obtain rfl := List.forall₂_nil_right_iff.mp hentries
    exact ⟨[], .nil, .nil _, .of_separate hseparate, by simp, by simp⟩
  | @cons workspace between workspace' block numbering entries hblock hfirst hrest ih =>
    obtain ⟨found, blocks, ⟨hid, hnumbering⟩, hlater, rfl⟩ :=
      List.forall₂_cons_right_iff.mp hentries
    rw [List.cons_subset] at hblocks
    obtain rfl := hlocated.eq_of_id hblocks.1 hblock hid
    rw [List.forall_mem_cons] at hids hsound
    rw [List.flatMap_cons, List.map_append] at hseparate
    rw [← hids.1] at hfirst
    have hmono (statement : Tree)
        (hstatement : origin.Draws statement ∧ origin.SoundStatement statement) :
        workspace.program.SoundStatement statement := hstatement.2.mono hvars hsignatures
    obtain ⟨edit, rfl, hstatements, hedit, hyields, hrow, hchanged⟩ :=
      hfirst.exists_edit (fun statement hmem => hmono statement (hsound.1 statement hmem))
      (fun hpoisoned statement hmem => BlockEdit.sharesPurely_of_numberStatements hnumbering
        hpoisoned (hsound.1 statement hmem).1 hsignatures) hseparate.left
    have hkept := size_le_of_getElem? hyields.vars
    have hsame : between.program.signatures = workspace.program.signatures := hyields.signatures
    obtain ⟨edits, hparts, hedits, hyields', hrows, hchanged'⟩ :=
      ih hblocks.2 hlater hids.2 hsound.2 (hvars.trans hkept) (hsame.trans hsignatures)
        (hyields.separate hseparate.right (by simpa using hseparate.disjoint.symm))
    refine ⟨edit :: edits, .cons ⟨hstatements, hnumbering⟩ hparts,
      .cons (hedit.mono (fun _ _ => hyields'.vars _ _) hyields'.signatures)
        (hedits.of_signatures hsame.symm), ?_,
      List.forall_mem_cons.mpr ⟨by rw [hstatements, hrow], hrows⟩, ?_⟩
    · have happend := hyields.append hyields' (by simpa using hseparate.disjoint)
        (by simpa using hseparate.right.lt_size)
      simpa using happend
    · rw [hchanged', hchanged]
      simp [or_assoc]

end Workspace

end ShaderIR
