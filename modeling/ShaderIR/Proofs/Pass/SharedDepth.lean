import ShaderIR.Proofs.Numbering.Exhaustion
import ShaderIR.Proofs.Pass.SharedRuns
import ShaderIR.Proofs.Pass.ThreeAddressForm

/-!
Depth of shared programs. A statement that has been numbered nests no deeper than the limit allows
(`Program.Draws.height_le_of_fitsStatement`), and neither does anything that stands for it after
sharing (`SharingPlan.EditedAll.height_le`). So the blocks of a shared program can be numbered again
if the numbers last (`Program.SharesBlocks.exists_numbers`).
-/

set_option autoImplicit false

namespace ShaderIR

/-! ### What fits -/

namespace Program

variable {program : Program} {budget limit : Nat}

/-- A place that fits nests no deeper than the budget. -/
theorem Draws.height_le_of_fitsPlace {tree : Tree} (hdraws : program.Draws tree)
    (hplace : tree.isPlace = true) (hfits : program.FitsPlace budget tree.id) :
    tree.height ≤ budget := by
  induction budget generalizing tree with
  | zero => exact hfits.elim
  | succ budget ih =>
    obtain ⟨found, hnode, hparts⟩ := hfits
    obtain rfl := Except.ok.inj (hdraws.node_eq.symm.trans hnode)
    have hids := hdraws.children_eq
    obtain ⟨id, node, children⟩ := tree
    rw [Tree.isPlace, Tree.fold_mk, ← Tree.isPlace] at hplace
    rw [Tree.height_mk_le_iff]
    cases node with
    | «variable» read =>
      obtain rfl := Tree.eq_nil_of_ids hids
      simp
    | index base position =>
      obtain ⟨base, position, rfl, rfl, rfl⟩ := Tree.exists_pair_of_ids hids
      have hbase := ih (hdraws.child List.mem_cons_self) hplace hparts.2
      have hposition := (hdraws.child (by simp)).fits_iff.mp hparts.1
      simpa using ⟨hbase, hposition⟩
    | field record number =>
      obtain ⟨record, rfl, rfl⟩ := Tree.exists_single_of_ids hids
      simpa using ih (hdraws.child List.mem_cons_self) hplace hparts
    | _ => cases hplace

/-- The operands of a statement that fits nest no deeper than the limit. -/
theorem Draws.height_le_of_fitsStatement {statement : Tree} (hdraws : program.Draws statement)
    (hsound : program.Sound statement) (hfits : program.FitsStatement limit statement.id) :
    ∀ operand ∈ statement.children, operand.height ≤ limit := by
  obtain ⟨found, hnode, hparts⟩ := hfits
  obtain rfl := Except.ok.inj (hdraws.node_eq.symm.trans hnode)
  have hvalue {operand : Tree} (hchild : operand ∈ statement.children)
      (hfits : program.Fits limit operand.id) :
      operand.height ≤ limit := (hdraws.child hchild).fits_iff.mp hfits
  have htarget {place : Tree} (hchild : place ∈ statement.children) (hplace : place.isPlace = true)
      (hfits : program.FitsPlace limit place.id) : place.height ≤ limit :=
    (hdraws.child hchild).height_le_of_fitsPlace hplace hfits
  cases hsound with
  | assign id target value mask hplace =>
    exact List.forall_mem_cons.mpr ⟨hvalue (by simp) hparts.1,
      List.forall_mem_singleton.mpr (htarget (by simp) hplace hparts.2)⟩
  | call id callee arguments result signature hsignature hlength hwritten hresult =>
    obtain ⟨found, hfound, hpassed, -, hstored⟩ := hparts
    obtain rfl := Except.ok.inj (hsignature.symm.trans hfound)
    refine List.forall_mem_append.mpr ⟨fun argument hargument => ?_, fun place hmem => ?_⟩
    · have hchild := List.mem_append_left result.toList hargument
      obtain ⟨param, hzip⟩ : ∃ param, (param, argument) ∈ signature.params.zip arguments := by
        obtain ⟨index, hindex, rfl⟩ := List.mem_iff_getElem.mp hargument
        exact ⟨signature.params[index], List.mem_iff_getElem.mpr ⟨index, by simp; omega, by simp⟩⟩
      have hfits := hpassed (param, argument.id) (by
        rw [List.zip_map_right]
        exact List.mem_map_of_mem hzip)
      unfold FitsPassed at hfits
      split at hfits
      · exact hvalue hchild hfits
      · next hmode =>
        exact htarget hchild (hwritten param argument hzip (ParamMode.writes_iff.mpr hmode)) hfits
    · have hplace : place ∈ result := by simpa using hmem
      exact htarget (List.mem_append_right _ hmem) (hresult place hplace)
        (hstored place.id (Option.mem_map_of_mem _ hplace))
  | branch id condition thenBody elseBody =>
    exact List.forall_mem_singleton.mpr (hvalue (by simp) hparts)
  | loop id body => simp
  | ret id operand | discard id operand =>
    cases operand with
    | none => simp
    | some operand =>
      exact List.forall_mem_singleton.mpr (hvalue (by simp) (hparts operand.id (by simp)))

end Program

/-! ### Edited statements -/

namespace SharingPlan

variable {plan : SharingPlan} {program program' : Program} {memory memory' : Temporaries}
  {next next' limit : Nat}

theorem height_le_row {row : Row} (hvalue : row.value.height ≤ limit) :
    ∀ operand ∈ row.statement.children, operand.height ≤ limit :=
  fun _ hchild => Tree.height_le_of_mem_children hchild (Row.height_statement_le hvalue)

theorem height_le_copyTree {copy leaf : NodeId} {temporary : VarId}
    {target : Tree} (htarget : target.height ≤ limit) :
    ∀ operand ∈ (copyTree copy leaf temporary target).children, operand.height ≤ limit :=
  List.forall_mem_cons.mpr ⟨Tree.height_leaf_le (target.height_pos.trans_le htarget),
    List.forall_mem_singleton.mpr htarget⟩

/-- What stands for a shared statement nests no deeper. -/
theorem Edited.height_le {statement : Tree} {rows : List Row} {trees : List Tree}
    (hedited : plan.Edited program program' memory next statement rows trees memory' next')
    (hsound : program.Sound statement)
    (hstatement : ∀ operand ∈ statement.children, operand.height ≤ limit) :
    ∀ tree ∈ rows.map Row.statement ++ trees, ∀ operand ∈ tree.children,
      operand.height ≤ limit := by
  have hrows {rows : List Row} (hrows : ∀ row ∈ rows, row.value.height ≤ limit) :
      ∀ tree ∈ rows.map Row.statement, ∀ operand ∈ tree.children, operand.height ≤ limit :=
    List.forall_mem_map.mpr fun row hrow => height_le_row (hrows row hrow)
  cases hedited with
  | operands _ hlifted =>
    obtain ⟨hparts, htaken⟩ := hlifted.height_le fun item hitem =>
      hstatement item.2 (Program.map_snd_parts hsound .value ▸ List.mem_map_of_mem hitem)
    exact List.forall_mem_append.mpr ⟨hrows htaken, List.forall_mem_singleton.mpr hparts⟩
  | dropped => simpa using hstatement
  | first _ _ _ hlifted =>
    obtain ⟨harguments, htarget⟩ := List.forall_mem_append.mp hstatement
    obtain ⟨hparts, htaken⟩ := hlifted.height_le (List.forall_mem_append.mpr
      ⟨List.forall_mem_map.mpr harguments, by simpa using htarget⟩)
    obtain ⟨hparts, htarget'⟩ := List.forall_mem_append.mp hparts
    rw [List.forall_mem_singleton] at htarget'
    have hleaf (place : NodeId) (temporary : VarId) : (readTree place temporary).height ≤ limit :=
      Tree.height_leaf_le ((Tree.height_pos _).trans_le htarget')
    exact List.forall_mem_append.mpr ⟨hrows htaken, List.forall_mem_cons.mpr
      ⟨List.forall_mem_append.mpr ⟨hparts, List.forall_mem_singleton.mpr (hleaf _ _)⟩,
        List.forall_mem_singleton.mpr (height_le_copyTree htarget')⟩⟩
  | again _ _ hlifted =>
    obtain ⟨-, htarget⟩ := List.forall_mem_append.mp hstatement
    obtain ⟨hparts, htaken⟩ := hlifted.height_le (by simpa using htarget)
    exact List.forall_mem_append.mpr ⟨hrows htaken, List.forall_mem_singleton.mpr
      (height_le_copyTree (hparts _ List.mem_cons_self))⟩

theorem EditedAll.height_le {statements : List Tree} {replaced : List Replacement}
    (hedited : plan.EditedAll program program' memory next statements replaced memory' next')
    (hsound : ∀ statement ∈ statements, program.Sound statement)
    (hstatements : ∀ statement ∈ statements,
      ∀ operand ∈ statement.children, operand.height ≤ limit) :
    ∀ tree ∈ replaced.flatMap Replacement.trees, ∀ operand ∈ tree.children,
      operand.height ≤ limit := by
  induction hedited with
  | nil => simp
  | cons hfirst _ ih =>
    rw [List.forall_mem_cons] at hsound hstatements
    rw [List.flatMap_cons]
    exact List.forall_mem_append.mpr
      ⟨hfirst.height_le hsound.1 hstatements.1, ih hsound.2 hstatements.2⟩

end SharingPlan

/-! ### Numbering again -/

namespace Program.SharesBlocks

variable {program program' : Program} {config : Config} {code code' : Code} {graph : Graph}
  {row : NodeId → List NodeId} {blocks : List SharedBlock} {block : SharedBlock}
  (hshares : program.SharesBlocks config code graph blocks row program' code')

include hshares

/-- What stands in a block nests no deeper than the limit. -/
theorem height_le_statements (hblock : block ∈ blocks) :
    ∀ statement ∈ block.edit.statements, ∀ operand ∈ statement.children,
      operand.height ≤ config.maxDepth := by
  intro statement hmem
  have hstatement := hshares.statements_subset hblock hmem
  obtain ⟨_, -, hids, hnumbering⟩ := hshares.shares.exists_block (List.mem_map_of_mem hblock)
  rw [← hids] at hnumbering
  obtain ⟨hfits, -⟩ := fits_of_numberStatements hnumbering (hshares.sharesPurely hblock).1
  exact (hshares.outlines.draws.statement statement hstatement).height_le_of_fitsStatement
    (hshares.outlines.sound statement hstatement) (hfits _ (List.mem_map_of_mem hmem))

/-- What stands in an edited block nests no deeper than the limit. -/
theorem height_le (hblock : block ∈ blocks) :
    ∀ tree ∈ block.edit.trees, ∀ operand ∈ tree.children, operand.height ≤ config.maxDepth := by
  obtain ⟨_, _, hedited, -⟩ := hshares.exists_editedAll hblock
  exact hedited.height_le
    (fun statement hmem => hshares.outlines.sound statement (hshares.statements_subset hblock hmem))
    (hshares.height_le_statements hblock)

/-- Numbers have lasted for a block that has been numbered. -/
theorem allocated_le_last (hblock : block ∈ blocks) :
    block.edit.numbering.allocated ≤ IdAllocator.last := by
  have hstatements := hshares.statements_subset hblock
  obtain ⟨final, -, hrun⟩ := exists_numbersStatements_of_height_le
    (fun statement hmem => hshares.outlines.draws.statement statement (hstatements hmem))
    (fun statement hmem => hshares.outlines.sound statement (hstatements hmem))
    (fun statement hmem => hshares.outlines.operands statement (hstatements hmem))
    (hshares.height_le_statements hblock)
  obtain ⟨_, -, hids, hnumbering⟩ := hshares.shares.exists_block (List.mem_map_of_mem hblock)
  rw [hids, hnumbering] at hrun
  split at hrun
  · cases hrun
  · next hlast =>
    rw [Except.ok.inj (Except.ok.inj hrun)]
    exact Nat.not_lt.mp hlast

/-- An edited block is numbered if the numbers last. -/
theorem exists_numbers (hblock : block ∈ blocks) {trees : List Tree}
    (htrees : trees ⊆ code'.statements)
    (hids : block.edit.trees.map Tree.id = trees.map Tree.id) : ∃ final,
      NumbersStatements program' config.eligible {} trees final ∧
      (program'.numberStatements (trees.map Tree.id) config).run =
        if IdAllocator.last < final.numbering.allocated then .error .idsExhausted
        else .ok (.ok final.numbering) := by
  have houtlines' := hshares.outlines'
  refine exists_numbersStatements_of_height_le
    (fun tree hmem => houtlines'.draws.statement tree (htrees hmem))
    (fun tree hmem => houtlines'.sound tree (htrees hmem))
    (fun tree hmem => houtlines'.operands tree (htrees hmem)) fun tree hmem => ?_
  have hbare := hshares.map_bare_eq hblock (List.Subset.refl _) htrees hids
  obtain ⟨made, hmade, hsame⟩ :=
    List.mem_map.mp (hbare ▸ List.mem_map_of_mem (f := Tree.bare) hmem)
  rw [← Tree.children_eq_of_bare_eq hsame]
  exact hshares.height_le hblock made hmade

end Program.SharesBlocks

end ShaderIR
