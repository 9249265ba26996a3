import ShaderIR.Proofs.Numbering.Symbols
import ShaderIR.Proofs.Pass.Conditions
import ShaderIR.Proofs.Pass.HoistingRuns
import ShaderIR.Proofs.Pass.SharedRuns

/-!
Programs without indices in what calls write to. On an outline, `Program.IndexFree` is a condition
on the statements (`Program.Outlines.indexFree_iff`). A place without indices stays as it is when
operands are taken out of a statement (`Lifted.places_eq`), so both passes keep such programs
(`Program.Outlines.indexFree_of_hoist`, `Program.SharesBlocks.unindexed`).

The passes need the condition. They compute the index of a written argument before the whole call,
where the call computes it after what it has written so far (`Program.not_run_writtenIndex`).
-/

set_option autoImplicit false

namespace ShaderIR

/-! ### Places -/

/-- A place without indices has none below it either. -/
theorem Tree.indexFree_of_indices {tree : Tree} (hplace : tree.isPlace = true)
    (hlinked : tree.Linked) (hnone : tree.indices = []) : tree.IndexFree := by
  induction tree using Tree.induction with
  | step id node children ih =>
    have hchildren := hlinked _ (mem_subtrees_self _)
    rw [isPlace, fold_mk, ← isPlace] at hplace
    cases node with
    | «variable» read =>
      obtain rfl : children = [] := eq_nil_of_ids hchildren
      exact Tree.forall_subtrees_mk.mpr ⟨by simp, by simp⟩
    | index base position =>
      obtain ⟨base, position, rfl, rfl, rfl⟩ := exists_pair_of_ids hchildren
      simp [indices] at hnone
    | field record number =>
      obtain ⟨record, rfl, rfl⟩ := exists_single_of_ids hchildren
      rw [indices] at hnone
      exact Tree.forall_subtrees_mk.mpr ⟨by simp, List.forall_mem_singleton.mpr
        (ih record List.mem_cons_self hplace (hlinked.child List.mem_cons_self) hnone)⟩
    | _ => cases hplace

/-- A place without indices stays as it is. -/
theorem Lifted.places_eq {verdict : Verdict} {memory memory' : Temporaries} {next next' : Nat}
    {forest : List (Role × Tree)} {forest' : List Tree} {rows : List Row}
    (hlifted : Lifted verdict memory next forest forest' rows memory' next') :
    List.Forall₂ (fun item tree' => item.1 = .place → item.2.indices = [] → tree' = item.2) forest
      forest' := by
  induction hlifted with
  | nil => exact .nil
  | kept hkeeps _ _ _ ih =>
    refine .cons (fun hplace => ?_) ih
    rcases hkeeps with hrole | ⟨hrole, -⟩ <;> cases hrole.symm.trans hplace
  | reused _ _ _ ih | stored _ _ _ _ _ _ _ ih => exact .cons (by simp) ih
  | whole _ ih => exact .cons (fun _ _ => rfl) ih
  | @field _ _ _ _ _ _ tree record record' number _ _ _ _ hnode htree _ _ ih ih' =>
    obtain ⟨id, rfl⟩ := Tree.exists_eq_mk hnode htree
    refine .cons (fun _ hnone => ?_) ih'
    rw [Tree.indices] at hnone
    rw [(List.forall₂_cons.mp ih).1 rfl hnone]
    rfl
  | @index _ _ _ _ _ _ tree base position base' position' _ _ _ _ hnode htree _ _ _ ih' =>
    obtain ⟨id, rfl⟩ := Tree.exists_eq_mk hnode htree
    exact .cons (fun _ hnone => by simp [Tree.indices] at hnone) ih'

/-! ### Statements -/

namespace Program

variable {program program' : Program}

theorem unindexed_of_ne {statement : Tree}
    (hcall : ∀ callee arguments result, statement.node ≠ .call callee arguments result) :
    program.Unindexed statement :=
  fun callee arguments result _ hnode => absurd hnode (hcall callee arguments result)

/-- The statement that fills a temporary is no call. -/
theorem unindexed_row (row : Row) : program.Unindexed row.statement :=
  unindexed_of_ne fun _ _ _ => Node.noConfusion

theorem Unindexed.of_bare_eq {statement statement' : Tree}
    (hsame : statement.bare = statement'.bare)
    (hunindexed : program.Unindexed statement) : program.Unindexed statement' := by
  rcases Tree.eq_or_of_bare_eq hsame
    with rfl | ⟨_, _, _, _, _, _, _, rfl, rfl⟩ | ⟨_, _, _, _, rfl, rfl⟩
  · exact hunindexed
  all_goals exact unindexed_of_ne fun _ _ _ => Node.noConfusion

/-- A statement of which operands have been edited writes to the same places, if these have no
indices. -/
theorem Unindexed.withChildren {statement : Tree} {verdict : Verdict}
    {memory memory' : Temporaries} {next next' : Nat} {valueRole : Role}
    {parts' : List Tree} {rows : List Row} (hunindexed : program.Unindexed statement)
    (hsound : program.Sound statement) (hlinked : statement.Linked)
    (hlifted : Lifted verdict memory next (program.parts valueRole statement) parts'
      rows memory' next') (hsignatures : program'.signatures = program.signatures) :
    program'.Unindexed (statement.withChildren parts') := by
  have hlength : parts'.length = statement.children.length := by
    rw [hlifted.length_eq, ← map_snd_parts hsound valueRole, List.length_map]
  intro callee ids result signature hnode hsignature hpure place hplace
  rw [signature_congr hsignatures] at hsignature
  have halike := Tree.alike_withChildren hlinked parts' hlength
  rw [hnode] at halike
  generalize hold : statement.node = node at halike
  cases halike with
  | call =>
    have hparts : program.parts valueRole statement = program.parts .value statement := by
        simp only [parts, hold]
    rw [hparts] at hlifted
    obtain ⟨item', hitem', rfl⟩ := List.mem_map.mp hplace
    obtain ⟨hmem, hrole⟩ := List.mem_filter.mp hitem'
    rw [parts_congr hsignatures] at hmem
    obtain ⟨item, hitem, hsame, hkept⟩ :=
      exists_of_forall₂ (hsound.forall₂_parts hlifted.places_eq).flip hmem
    have hrole : item.1 = .place := hsame.symm.trans (of_decide_eq_true hrole)
    have hnone : item.2.indices = [] := hunindexed _ _ _ signature hold hsignature hpure item.2
      (List.mem_map_of_mem (List.mem_filter.mpr ⟨hitem, decide_eq_true hrole⟩))
    rw [hkept hrole hnone, hnone]

/-- What a call writes to, as trees. -/
theorem exists_mem_writtenBy (id : NodeId) {callee : SignatureId}
    {arguments : List Tree} {result : Option Tree}
    {signature : Signature} (hsignature : program.signature callee = .ok signature)
    (hlength : signature.params.length = arguments.length) (hwritten : ∀ param argument,
      (param, argument) ∈ signature.params.zip arguments → param.mode.writes = true →
      argument.isPlace = true) (hresult : ∀ place ∈ result, place.isPlace = true) {place : NodeId}
    (hplace : (∃ param, (param, place) ∈ signature.params.zip (arguments.map Tree.id) ∧
        param.mode.writes = true) ∨
      place ∈ result.map Tree.id) :
    ∃ tree ∈ program.writtenBy ⟨id, .call callee (arguments.map Tree.id) (result.map Tree.id),
      arguments ++ result.toList⟩, tree.isPlace = true ∧ tree.id = place := by
  rw [writtenBy_effectful id result hsignature hlength]
  rcases hplace with ⟨param, hpassed, hwrites⟩ | hplace
  · rw [List.zip_map_right] at hpassed
    obtain ⟨⟨_, tree⟩, hmem, hsame⟩ := List.mem_map.mp hpassed
    obtain ⟨rfl, rfl⟩ := Prod.mk.inj hsame
    exact ⟨tree, List.mem_append_left _ (List.mem_map_of_mem (List.mem_filter.mpr ⟨hmem, hwrites⟩)),
      hwritten _ _ hmem hwrites, rfl⟩
  · obtain ⟨tree, htree, rfl⟩ := Option.mem_map.mp hplace
    exact ⟨tree, List.mem_append_right _ (by simpa using htree), hresult tree htree, rfl⟩

/-! ### Codes -/

/-- A program has no indices in what calls write to if none of its statements has some there. -/
theorem Outlines.indexFree_iff {code : Code} (houtlines : program.Outlines code) :
    program.IndexFree ↔ ∀ statement ∈ code.statements, program.Unindexed statement := by
  constructor
  · intro hfree statement hstatement callee ids result signature hnode hsignature hpure place hplace
    cases houtlines.sound statement hstatement with
    | call =>
      obtain ⟨rfl, -, -⟩ := Node.call.inj hnode
      exact houtlines.indices_eq_nil hfree hstatement hsignature hpure hplace
    | _ => cases hnode
  · intro hunindexed id callee ids target signature hreachable hnode hsignature hpure place hplace
      below base index hbelow hindex
    obtain ⟨statement, hcontains, rfl⟩ := houtlines.exists_of_reachable hreachable
    have hdraws := houtlines.draws_of_contains hcontains
    obtain hnode := Except.ok.inj (hdraws.node_eq.symm.trans hnode)
    have hstatement := houtlines.mem_statements_of_isStatement hcontains (by rw [hnode]; rfl)
    have hsound := houtlines.sound statement hstatement
    cases hsound with
    | call id _ arguments result found hfound hlength hwritten hresult =>
      obtain ⟨rfl, rfl, rfl⟩ := Node.call.inj hnode
      obtain rfl := Except.ok.inj (hfound.symm.trans hsignature)
      obtain ⟨tree, htree, hisPlace, rfl⟩ :=
        exists_mem_writtenBy id hsignature hlength hwritten hresult hplace
      have hnone := hunindexed _ hstatement _ _ _ found rfl hsignature hpure tree htree
      have hchild : program.Draws tree := by
        obtain ⟨item, hitem, rfl⟩ := List.mem_map.mp htree
        refine hdraws.child ?_
        rw [← map_snd_parts (houtlines.sound _ hstatement) .value]
        exact List.mem_map_of_mem (List.mem_of_mem_filter hitem)
      obtain ⟨inner, hinner, rfl⟩ := hchild.exists_subtree_of_below hbelow
      exact Tree.indexFree_of_indices hisPlace hchild.linked hnone inner hinner base index
        (Except.ok.inj ((hchild.subtree inner hinner).node_eq.symm.trans hindex))
    | _ => cases hnode

theorem Hoisted.unindexed {next next' : Nat} {code code' : Code}
    (hhoisted : program.Hoisted program' next code code' next')
    (hsignatures : program'.signatures = program.signatures)
    (hstatements : ∀ statement ∈ code.statements,
      program.Sound statement ∧ statement.Linked ∧ program.Unindexed statement) :
    ∀ statement ∈ code'.statements, program'.Unindexed statement := by
  have hrows (rows : List Row) :
      ∀ statement ∈ rows.map Row.statement, program'.Unindexed statement :=
    List.forall_mem_map.mpr fun row _ => unindexed_row row
  induction hhoisted with
  | nil => simp [Code.statements]
  | step _ hlifted _ _ ih =>
    obtain ⟨⟨hsound, hlinked, hunindexed⟩, hrest⟩ := List.forall_mem_cons.mp hstatements
    rw [Code.statements_prepend]
    exact List.forall_mem_append.mpr ⟨hrows _, List.forall_mem_cons.mpr
      ⟨hunindexed.withChildren hsound hlinked hlifted hsignatures, ih hrest⟩⟩
  | branch _ _ _ _ _ ihthen ihelse ih =>
    simp only [Code.statements, List.forall_mem_cons, List.forall_mem_append] at hstatements
    obtain ⟨-, ⟨hthen, helse⟩, hrest⟩ := hstatements
    rw [Code.statements_prepend]
    simp only [Code.statements, List.forall_mem_append, List.forall_mem_cons]
    exact ⟨hrows _, unindexed_of_ne fun _ _ _ => Node.noConfusion, ⟨ihthen hthen, ihelse helse⟩,
      ih hrest⟩
  | loop _ _ ihbody ih =>
    simp only [Code.statements, List.forall_mem_cons, List.forall_mem_append] at hstatements ⊢
    exact ⟨unindexed_of_ne fun _ _ _ => Node.noConfusion, ihbody hstatements.2.1,
      ih hstatements.2.2⟩

/-- Bringing a program into three-address form puts no index into what a call writes to. -/
theorem Outlines.indexFree_of_hoist {code : Code} (houtlines : program.Outlines code)
    (hfree : program.IndexFree) {limit : Nat} {changed : Bool}
    (hhoist : Walk.Answers (hoistSubexpressions limit) program changed program') :
    program'.IndexFree := by
  obtain ⟨code', houtlines', hhoisted, -, hsignatures⟩ := houtlines.exists_hoisted hhoist
  exact houtlines'.indexFree_iff.mpr (hhoisted.unindexed hsignatures fun statement hmem =>
    ⟨houtlines.sound statement hmem, (houtlines.draws.statement statement hmem).linked,
      houtlines.indexFree_iff.mp hfree statement hmem⟩)

end Program

/-! ### Shared blocks -/

namespace SharingPlan

variable {plan : SharingPlan} {program program' : Program} {memory memory' : Temporaries}
  {next next' : Nat} (hsignatures : program'.signatures = program.signatures)

include hsignatures

/-- What stands for a statement without indices in what it writes to has none there either. -/
theorem Edited.unindexed {statement : Tree} {rows : List Row} {trees : List Tree}
    (hedited : plan.Edited program program' memory next statement rows trees memory' next')
    (hsound : program.Sound statement) (hlinked : statement.Linked)
    (hpurely : plan.SharesPurely program statement) (hunindexed : program.Unindexed statement) :
    ∀ tree ∈ rows.map Row.statement ++ trees, program'.Unindexed tree := by
  have hcopy (copy leaf : NodeId) (temporary : VarId) (target : Tree) :
      program'.Unindexed (copyTree copy leaf temporary target) :=
    Program.unindexed_of_ne fun _ _ _ => Node.noConfusion
  refine List.forall_mem_append.mpr
    ⟨List.forall_mem_map.mpr fun row _ => Program.unindexed_row row, ?_⟩
  cases hedited with
  | operands _ hlifted =>
    exact List.forall_mem_singleton.mpr (hunindexed.withChildren hsound hlinked hlifted hsignatures)
  | dropped =>
    refine List.forall_mem_singleton.mpr fun callee ids result signature hnode hsignature hpure
      place hplace => ?_
    rw [Program.signature_congr hsignatures] at hsignature
    rw [Program.writtenBy_congr hsignatures] at hplace
    exact hunindexed callee ids result signature hnode hsignature hpure place hplace
  | first hnumber =>
    obtain ⟨found, hfound, hpure⟩ := hpurely _ _ _ rfl (hnumber ▸ rfl)
    refine List.forall_mem_cons.mpr ⟨fun callee ids result signature hnode hsignature himpure => ?_,
      List.forall_mem_singleton.mpr (hcopy _ _ _ _)⟩
    obtain ⟨rfl, -, -⟩ := Node.call.inj hnode
    rw [Program.signature_congr hsignatures] at hsignature
    obtain rfl := Except.ok.inj (hfound.symm.trans hsignature)
    exact absurd (hpure.symm.trans himpure) (by simp)
  | again => exact List.forall_mem_singleton.mpr (hcopy _ _ _ _)

theorem EditedAll.unindexed {statements : List Tree} {replaced : List Replacement}
    (hedited : plan.EditedAll program program' memory next statements replaced memory' next')
    (hstatements : ∀ statement ∈ statements, program.Sound statement ∧ statement.Linked ∧
      plan.SharesPurely program statement ∧ program.Unindexed statement) :
    ∀ tree ∈ replaced.flatMap Replacement.trees, program'.Unindexed tree := by
  induction hedited with
  | nil => simp
  | cons hfirst _ ih =>
    obtain ⟨⟨hsound, hlinked, hpurely, hunindexed⟩, hlater⟩ := List.forall_mem_cons.mp hstatements
    rw [List.flatMap_cons]
    exact List.forall_mem_append.mpr
      ⟨hfirst.unindexed hsignatures hsound hlinked hpurely hunindexed, ih hlater⟩

end SharingPlan

/-- Sharing puts no index into what a call writes to. -/
theorem Program.SharesBlocks.unindexed {program program' : Program} {config : Config}
    {code code' : Code} {graph : Graph} {row : NodeId → List NodeId} {blocks : List SharedBlock}
    (hshares : program.SharesBlocks config code graph blocks row program' code')
    (hfree : program.IndexFree) : ∀ statement ∈ code'.statements, program'.Unindexed statement := by
  refine hshares.forall_statements (fun _ _ hsame hunindexed => hunindexed.of_bare_eq hsame)
    fun block hblock => ?_
  obtain ⟨next, next', hedited, -⟩ := hshares.exists_editedAll hblock
  have hstatements := hshares.statements_subset hblock
  exact hedited.unindexed hshares.shares.signatures fun statement hmem =>
    ⟨hshares.outlines.sound statement (hstatements hmem),
      (hshares.outlines.draws.statement statement (hstatements hmem)).linked,
      (hshares.sharesPurely hblock).2 statement hmem,
      hshares.outlines.indexFree_iff.mp hfree statement (hstatements hmem)⟩

/-! ### An index in what a call writes to -/

namespace Program

/-- A call writes to a variable and to an array, and the index of the element is computed from the
variable. -/
def writtenIndex : Program where
  nodes := #[.variable ⟨0⟩, .variable ⟨1⟩, .variable ⟨0⟩, .variable ⟨0⟩,
    .apply .add [⟨2⟩, ⟨3⟩] .float, .index ⟨1⟩ ⟨4⟩, .call ⟨0⟩ [⟨0⟩, ⟨5⟩] none, .variable ⟨2⟩,
    .variable ⟨0⟩, .variable ⟨0⟩, .apply .add [⟨8⟩, ⟨9⟩] .float, .assign ⟨7⟩ ⟨10⟩ 0]
  vars := #[⟨"i", .float, .auto⟩, ⟨"a", .array .float 4, .auto⟩, ⟨"y", .float, .auto⟩]
  signatures := #[⟨"f", [⟨.float, .output⟩, ⟨.float, .output⟩], .void⟩]
  body := [⟨6⟩, ⟨11⟩]

theorem typeConsistent_writtenIndex : writtenIndex.TypeConsistent :=
  typeConsistent_of_typesFit (by decide)

/-- Without the condition on indices, both passes can change what is written: they compute an index
before the call that the call would compute between its writes. -/
theorem not_run_writtenIndex : writtenIndex.check = .ok () ∧ writtenIndex.TypeConsistent ∧ ∃ trace,
    writtenIndex.run [(⟨0⟩, [3])] = .ok (.ok trace) ∧
    ∀ pass ∈ [localCse { eligible := .all }, hoistSubexpressions 8], ∃ program' trace',
      pass.runFrom writtenIndex = .ok (.ok true, program') ∧
      program'.run [(⟨0⟩, [3])] = .ok (.ok trace') ∧
      trace'.assignments ≠ trace.assignments := by
  have hbefore : writtenIndex.assignmentsOf [(⟨0⟩, [3])] ⟨1⟩ = .ok (.ok [[⟨0x3fede15de15de15e⟩,
      ⟨0x3fceac1eac1eac1f⟩, ⟨0x3fdbd5dbd5dbd5dc⟩, ⟨0x3fd2c7d2c7d2c7d3⟩]]) := by decide +kernel
  have hafter : ∀ pass ∈ [localCse { eligible := .all }, hoistSubexpressions 8],
      writtenIndex.assignmentsAfter pass [(⟨0⟩, [3])] ⟨1⟩ = .ok (.ok true,
        .ok [[⟨0x3fea03ba03ba03ba⟩,
        ⟨0x3fceac1eac1eac1f⟩, ⟨0x3fdbd5dbd5dbd5dc⟩, ⟨0x3fede15de15de15e⟩]]) := by decide +kernel
  obtain ⟨trace, hrun, hvalues⟩ := assignmentsOf_eq_ok_iff.mp hbefore
  refine ⟨rfl, typeConsistent_writtenIndex, trace, hrun, fun pass hpass => ?_⟩
  obtain ⟨program', trace', hchanged, hrun', hvalues'⟩ :=
    assignmentsAfter_eq_ok_iff.mp (hafter pass hpass)
  refine ⟨program', trace', hchanged, hrun', fun hsame => ?_⟩
  rw [← hsame, hvalues'] at hvalues
  exact absurd hvalues (by decide +kernel)

end Program

end ShaderIR
