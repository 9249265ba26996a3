import ShaderIR.Proofs.Pass.Independence
import ShaderIR.Proofs.Pass.SharedCode

/-!
What elimination of repeated computations makes of a program.
-/

set_option autoImplicit false

namespace ShaderIR

/-! ### Codes of other trees -/

namespace Code

/-- A code with other trees for its statements. -/
def map (change : Tree → Tree) : Code → Code
  | nil => nil
  | step statement rest => step (change statement) (rest.map change)
  | branch statement thenBody elseBody rest =>
    branch (change statement) (thenBody.map change) (elseBody.map change) (rest.map change)
  | loop statement body rest => loop (change statement) (body.map change) (rest.map change)

variable {change : Tree → Tree} {code code' : Code} {row : NodeId → List NodeId}

theorem statements_map (change : Tree → Tree) (code : Code) :
    (code.map change).statements = code.statements.map change := by
  induction code with
  | nil => rfl
  | step statement rest ih => simp [map, statements, ih]
  | branch statement thenBody elseBody rest ihthen ihelse ih =>
    simp [map, statements, ihthen, ihelse, ih]
  | loop statement body rest ihbody ih => simp [map, statements, ihbody, ih]

theorem map_prepend (change : Tree → Tree) (steps : List Tree) (code : Code) :
    (prepend steps code).map change = prepend (steps.map change) (code.map change) := by
  induction steps with
  | nil => rfl
  | cons first steps ih => simp [map, ih]

variable (hid : ∀ statement, (change statement).id = statement.id)

include hid

theorem heads_map (code : Code) : (code.map change).heads = code.heads := by
  induction code with
  | nil => rfl
  | step _ _ ih | branch _ _ _ _ _ _ ih | loop _ _ _ _ ih => simp [map, heads, hid, ih]

theorem Expands.map_right (hexpands : code.Expands row code') :
    code.Expands row (code'.map change) := by
  have hids (steps : List Tree) : (steps.map change).map Tree.id = steps.map Tree.id := by
    simp [Function.comp_def, hid]
  induction hexpands with
  | nil => exact .nil
  | @step statement steps rest rest' hrow hsteps _ ih =>
    rw [map_prepend]
    exact .step (hrow.trans (hids steps).symm) (by simpa using hsteps) ih
  | @branch statement statement' steps thenBody thenBody' elseBody elseBody' rest rest' hrow hsame _
      _ _ ihthen ihelse ih =>
    rw [map_prepend]
    exact .branch (by rw [hrow, hids]) ((hid _).trans hsame) ihthen ihelse ih
  | @loop statement statement' steps body body' rest rest' hrow hsame _ _ ihbody ih =>
    rw [map_prepend]
    exact .loop (by rw [hrow, hids]) ((hid _).trans hsame) ihbody ih

end Code

namespace Program

variable {program : Program} {code : Code}

theorem FramesCode.map {change : Tree → Tree} (hframed : program.FramesCode code)
    (hid : ∀ statement, (change statement).id = statement.id)
    (hdraws : ∀ statement ∈ code.statements, program.Draws (change statement)) :
    program.DrawsCode (code.map change) := by
  have hnode {statement : Tree} (hstatement : program.node statement.id = .ok statement.node)
      (hdraws : program.Draws (change statement)) : (change statement).node = statement.node := by
    have hfound := hdraws.node_eq
    rw [hid, hstatement] at hfound
    exact (Except.ok.inj hfound).symm
  induction hframed with
  | nil => exact .nil
  | step hstatement hlists _ ih =>
    obtain ⟨hfirst, hrest⟩ := List.forall_mem_cons.mp hdraws
    exact .step hfirst (by rw [hid, hnode hstatement hfirst, hlists]) (ih hrest)
  | @branch statement condition thenBody elseBody rest hstatement hbranch _ _ _ ihthen ihelse ih =>
    simp only [Code.statements, List.forall_mem_cons, List.forall_mem_append] at hdraws
    obtain ⟨hfirst, ⟨hthen, helse⟩, hrest⟩ := hdraws
    rw [← Code.heads_map hid thenBody, ← Code.heads_map hid elseBody, ← hnode hstatement hfirst]
      at hbranch
    exact .branch hfirst hbranch (ihthen hthen) (ihelse helse) (ih hrest)
  | loop hstatement hloop _ _ ihbody ih =>
    simp only [Code.statements, List.forall_mem_cons, List.forall_mem_append] at hdraws
    obtain ⟨hfirst, hbody, hrest⟩ := hdraws
    rw [← Code.heads_map hid, ← hnode hstatement hfirst] at hloop
    exact .loop hfirst hloop (ihbody hbody) (ih hrest)

/-- Where good trees are drawn for all statements of a code, some code of the same shape is made of
such trees. -/
theorem FramesCode.exists_draws (hframed : program.FramesCode code) (good : Tree → Prop)
    (hdrawn : ∀ id ∈ code.order, ∃ tree, program.Draws tree ∧ tree.id = id ∧ good tree)
    {origin : Code} {row : NodeId → List NodeId} (hexpands : origin.Expands row code) :
    ∃ code', program.DrawsCode code' ∧ code'.heads = code.heads ∧ origin.Expands row code' ∧
      ∀ statement ∈ code'.statements, good statement := by
  have hchoice : ∀ statement : Tree, ∃ tree : Tree, tree.id = statement.id ∧
      (statement ∈ code.statements → program.Draws tree ∧ good tree) := fun statement => by
    by_cases hmem : statement ∈ code.statements
    · obtain ⟨tree, hdraws, hid, hgood⟩ := hdrawn statement.id (List.mem_map_of_mem hmem)
      exact ⟨tree, hid, fun _ => ⟨hdraws, hgood⟩⟩
    · exact ⟨statement, rfl, fun h => absurd h hmem⟩
  choose change hid hchange using hchoice
  refine ⟨code.map change, hframed.map hid fun statement hmem => (hchange statement hmem).1,
    Code.heads_map hid code, hexpands.map_right hid, ?_⟩
  rw [Code.statements_map]
  exact List.forall_mem_map.mpr fun statement hmem => (hchange statement hmem).2

end Program

/-! ### New graphs -/

namespace Graph

variable {program : Program} {graph graph' : Graph}

theorem changed_modifyBlock {id : BlockId} {change : BasicBlock → BasicBlock}
    (hmodify : graph.modifyBlock id change = .ok graph') : graph'.changed = graph.changed := by
  obtain ⟨block, -, hset⟩ := bind_eq_ok_iff.mp hmodify
  obtain rfl := Except.ok.inj hset
  rfl

theorem changed_foldlM {α : Type} {step : Graph → α → Except Crash Graph}
    (hstep : ∀ graph item graph', step graph item = .ok graph' → graph'.changed = graph.changed)
    {items : List α} (hfold : items.foldlM step graph = .ok graph') :
    graph'.changed = graph.changed := by
  induction items generalizing graph with
  | nil => exact congrArg changed (Except.ok.inj hfold).symm
  | cons item items ih =>
    rw [List.foldlM_cons] at hfold
    obtain ⟨between, hfirst, hrest⟩ := bind_eq_ok_iff.mp hfold
    exact (ih hrest).trans (hstep _ _ _ hfirst)

theorem Merges.changed_eq (hmerges : Merges graph graph') : graph'.changed = graph.changed := by
  obtain ⟨source, target, -, habsorb⟩ := hmerges
  obtain ⟨between, hfold, hmodify⟩ := bind_eq_ok_iff.mp habsorb
  exact (changed_modifyBlock hmodify).trans
    ((changed_foldlM (fun _ _ _ => changed_modifyBlock) hfold).trans rfl)

/-- A graph that has been built has not changed anything. -/
theorem Built.changed_eq {config : Config} {code : Code}
    (hbuilt : Built program config code graph) :
    graph.changed = false := by
  obtain ⟨unmerged, hlinked, -, hmerges⟩ := hbuilt.linked
  have hunmerged : unmerged.changed = false := by
    unfold Graph.linked at hlinked
    simp only [Query.answers_bind] at hlinked
    obtain ⟨ranges, -, edges, -, hfold⟩ := hlinked
    refine (changed_foldlM (fun graph edge graph' hconnect => ?_)
      (Query.answers_foldlM_liftCrash.mp hfold)).trans rfl
    obtain ⟨between, hfirst, hsecond⟩ := bind_eq_ok_iff.mp hconnect
    exact (changed_modifyBlock hsecond).trans (changed_modifyBlock hfirst)
  clear hlinked hbuilt
  induction hmerges with
  | refl => exact hunmerged
  | tail _ hmerge ih => exact hmerge.changed_eq.trans ih

end Graph

/-! ### Programs -/

/-- What elimination of repeated computations makes of a program with a code: the blocks of its
graph have been edited one after the other, and rows of statements stand for single ones in another
code. -/
structure Program.SharesAs (config : Config) (program : Program) (code : Code) (graph : Graph)
    (edits : List BlockEdit) (row : NodeId → List NodeId) (program' : Program) (code' : Code) :
    Prop where
  build : Query.Answers (Graph.build program config) graph
  built : Graph.Built program config code graph
  numbered :
    List.Forall₂ (fun block (edit : BlockEdit) => edit.statements.map Tree.id = block.row program ∧
    Query.Answers (program.numberStatements (block.row program) config) edit.numbering)
    graph.blocks edits
  statements : edits.flatMap BlockEdit.statements = code.statements
  edited : BlockEdit.EditsAll config program program' program.vars.size edits program'.vars.size
  rows : ∀ edit ∈ edits, (edit.statements.map fun statement => row statement.id) =
    edit.replaced.map fun replaced => replaced.trees.map Tree.id
  expanded : program.Expanded code row program'
  expands : code.Expands row code'
  draws : program'.DrawsCode code'
  body : program'.body = code'.heads
  drawn : code'.statements.map Tree.bare = (edits.flatMap BlockEdit.trees).map Tree.bare
  yields :
    program.bare.Yields program'.bare code.ids ((edits.flatMap BlockEdit.trees).map Tree.bare)

namespace Program

open Code

variable {program program' : Program} {config : Config} {code : Code} {changed : Bool}

theorem answers_localCse_iff : Walk.Answers (localCse config) program changed program' ↔
    Walk.Answers (eliminateRepeated config) program changed program' := by
  simp only [localCse, Walk.answers_bind, Walk.answers_attempt]
  constructor
  · rintro ⟨outcome, between, hattempt, hanswer⟩
    split at hanswer
    · obtain ⟨rfl, rfl⟩ := Walk.answers_pure.mp hanswer
      exact hattempt
    · obtain ⟨_, _, -, hthrow⟩ := Walk.answers_bind.mp hanswer
      exact absurd hthrow Walk.answers_throw
    · exact absurd hanswer Walk.answers_throw
  · exact fun hanswer => ⟨.ok changed, program', hanswer, Walk.answers_pure.mpr ⟨rfl, rfl⟩⟩

theorem exists_of_eliminateRepeated
    (hanswer : Walk.Answers (eliminateRepeated config) program changed program') :
    ∃ graph numberings workspace, Query.Answers (Graph.build program config) graph ∧
      Query.Answers (graph.numberBlocks program config) numberings ∧
      Walk.Answers (shareBlocks numberings config) ⟨program, graph⟩ () workspace ∧
      workspace.program = program' ∧ workspace.graph.changed = changed := by
  unfold eliminateRepeated at hanswer
  simp only [Walk.answers_bind, Walk.answers_get, Walk.answers_liftQuery, Walk.answers_liftCrash,
    Walk.answers_set, Walk.answers_liftExcept, Walk.answers_pure] at hanswer
  obtain ⟨_, _, ⟨rfl, rfl⟩, graph, _, ⟨hbuild, rfl⟩, numberings, _, ⟨hnumberings, rfl⟩,
    ⟨outcome, workspace⟩, _, ⟨hwalk, rfl⟩, ⟨⟩, _, rfl, ⟨⟩, _, ⟨rfl, rfl⟩, rfl, rfl⟩ := hanswer
  exact ⟨graph, numberings, workspace, hbuild, hnumberings, hwalk, rfl, rfl⟩

theorem answers_eliminateRepeated {graph : Graph} {numberings : List (BlockId × Numbering)}
    {workspace : Workspace} (hbuild : Query.Answers (Graph.build program config) graph)
    (hnumberings : Query.Answers (graph.numberBlocks program config) numberings)
    (hwalk : Walk.Answers (shareBlocks numberings config) ⟨program, graph⟩ () workspace) :
    Walk.Answers (eliminateRepeated config) program workspace.graph.changed workspace.program := by
  unfold eliminateRepeated
  simp only [Walk.answers_bind, Walk.answers_get, Walk.answers_liftQuery, Walk.answers_liftCrash,
    Walk.answers_set, Walk.answers_liftExcept, Walk.answers_pure]
  exact ⟨program, program, ⟨rfl, rfl⟩, graph, program, ⟨hbuild, rfl⟩, numberings, program,
    ⟨hnumberings, rfl⟩, ⟨.ok (), workspace⟩, program, ⟨hwalk, rfl⟩, (), workspace.program, rfl, (),
    workspace.program, ⟨rfl, rfl⟩, rfl, rfl⟩

theorem eq_of_map_eq {α β : Type} {f : α → β} {items others : List α} (hsubset : items ⊆ others)
    (hnodup : (others.map f).Nodup) (hmap : items.map f = others.map f) : items = others := by
  have hlength : items.length = others.length := by simpa using congrArg List.length hmap
  refine List.ext_getElem hlength fun place hleft hright => ?_
  refine List.inj_on_of_nodup_map hnodup (hsubset (List.getElem_mem hleft))
    (List.getElem_mem hright) ?_
  have hplace := congrArg (fun row => row[place]?) hmap
  simpa [hleft, hright] using hplace

/-- The blocks of a graph, one after the other, are the statements of the code that it depicts. -/
theorem Outlines.exists_trees {graph : Graph}
    (houtlines : program.Outlines code) (hdepicts : graph.Depicts program code) :
    ∃ trees : BasicBlock → List Tree, (∀ block ∈ graph.blocks, trees block ⊆ code.statements ∧
      (trees block).map Tree.id = block.row program) ∧
      graph.blocks.flatMap trees = code.statements := by
  have hchoice : ∀ block, ∃ trees : List Tree, block ∈ graph.blocks →
      trees ⊆ code.statements ∧ trees.map Tree.id = block.row program := fun block => by
    by_cases hblock : block ∈ graph.blocks
    · obtain ⟨trees, htrees⟩ := hdepicts.exists_trees hblock
      exact ⟨trees, fun _ => htrees⟩
    · exact ⟨[], fun h => absurd h hblock⟩
  choose trees htrees using hchoice
  refine ⟨trees, htrees, eq_of_map_eq ?_ houtlines.nodup_order ?_⟩
  · intro statement hmem
    obtain ⟨block, hblock, hmem⟩ := List.mem_flatMap.mp hmem
    exact (htrees block hblock).1 hmem
  · change _ = code.order
    rw [List.map_flatMap, ← hdepicts.order]
    exact List.flatMap_congr fun block hblock => (htrees block hblock).2

/-- The statements of an outline have nothing in common, without their lists. -/
theorem Outlines.separate_bare (houtlines : program.Outlines code) :
    program.bare.Separate (code.statements.map Tree.bare) := by
  refine ⟨List.forall_mem_map.mpr fun statement hmem =>
    (houtlines.draws.statement statement hmem).bare (houtlines.operands statement hmem), ?_⟩
  rw [Tree.flatMap_ids_bare]
  exact houtlines.nodup

/-- Elimination of repeated computations edits the blocks of the program's graph. -/
theorem Outlines.exists_sharesAs (houtlines : program.Outlines code)
    (hshare : Walk.Answers (localCse config) program changed program') :
    ∃ graph edits row code', program.SharesAs config code graph edits row program' code' ∧
      (changed = true ↔ ∃ edit ∈ edits, edit.memory ≠ []) := by
  obtain ⟨graph, numberings, workspace, hbuild, hnumberings, hwalk, rfl, rfl⟩ :=
    exists_of_eliminateRepeated (answers_localCse_iff.mp hshare)
  have hbuilt := Graph.built_of_frames houtlines.frames hbuild
  have hdepicts := hbuilt.depicts
  obtain ⟨row, edited, hshared, hsteps⟩ := (ensures_stepsAll_of_numberBlocks houtlines.frames
    (program.divides_all code) hdepicts hnumberings (.refl _)).of_answers hwalk
  have hentries := (answers_numberBlocks_iff houtlines.frames hdepicts).mp hnumberings
  obtain ⟨trees, htrees, hstatements⟩ := houtlines.exists_trees hdepicts
  have hsound : ∀ block ∈ graph.blocks, ∀ statement ∈ trees block,
      program.Draws statement ∧ program.SoundStatement statement :=
        fun block hblock statement hmem =>
    have hstatement := (htrees block hblock).1 hmem
    ⟨houtlines.draws.statement _ hstatement, houtlines.sound _ hstatement,
      houtlines.operands _ hstatement⟩
  obtain ⟨edits, hparts, hedits, hyields, hrows, hchanged⟩ :=
    hsteps.exists_edits hdepicts.located trees
    (List.Subset.refl _) hentries (fun block hblock => (htrees block hblock).2) hsound le_rfl rfl
      (hstatements ▸ houtlines.separate_bare)
  have hedited : edits.flatMap BlockEdit.statements = code.statements := by
    rw [← hstatements, List.flatMap_def, List.flatMap_def]
    refine congrArg List.flatten (List.forall₂_eq_eq_eq ▸ ?_)
    rw [List.forall₂_map_left_iff, List.forall₂_map_right_iff]
    exact hparts.flip.imp fun _ _ => And.left
  have hmade : ∀ tree ∈ edits.flatMap BlockEdit.trees, workspace.program.SoundStatement tree := by
    refine List.forall_mem_flatMap.mpr (hedits.sound (fun edit hedit => ?_)
      (fun edit hedit => ?_) hyields.signatures (size_le_of_getElem? hyields.vars) le_rfl)
    all_goals obtain ⟨block, hblock, hpart, hnumbering⟩ := exists_of_forall₂ hparts.flip hedit
    · exact ⟨_, hnumbering⟩
    · exact hpart ▸ hsound block hblock
  have hids : (edits.flatMap BlockEdit.trees).map Tree.id = code.order.flatMap row := by
    rw [Code.order, ← hedited, List.map_flatMap, List.map_flatMap, List.flatMap_assoc]
    refine List.flatMap_congr fun edit hedit => ?_
    have hrow := congrArg List.flatten (hrows edit hedit)
    rw [← List.flatMap_def, ← List.flatMap_def] at hrow
    rw [BlockEdit.trees, List.map_flatMap, List.flatMap_map, ← hrow]
  obtain ⟨framed, hframes, hexpands⟩ := hshared.shared.expanded.exists_frames houtlines.frames
  obtain ⟨code', hdraws, hheads, hexpands', hgood⟩ :=
    hframes.framed.exists_draws (fun tree : Tree => ∃ made ∈ edits.flatMap BlockEdit.trees,
      tree.bare = made.bare) (fun id hid => by
        rw [hexpands.order_eq, ← hids] at hid
        obtain ⟨made, hmem, rfl⟩ := List.mem_map.mp hid
        obtain ⟨drawn, hdrawn, hsame⟩ :=
          (hyields.draws made.bare (List.mem_map_of_mem hmem)).exists_of_bare
          (hmade made hmem).operands
        exact ⟨drawn, hdrawn, Tree.id_eq_of_bare_eq hsame, made, hmem, hsame⟩) hexpands
  have hdrawn : code'.statements.map Tree.bare = (edits.flatMap BlockEdit.trees).map Tree.bare := by
    have hbare (trees : List Tree) : (trees.map Tree.bare).map Tree.id = trees.map Tree.id := by
      simp [Function.comp_def]
    refine eq_of_map_eq (f := Tree.id) (fun tree hmem => ?_) ?_ ?_
    · obtain ⟨statement, hstatement, rfl⟩ := List.mem_map.mp hmem
      obtain ⟨made, hmem, hsame⟩ := hgood statement hstatement
      exact hsame ▸ List.mem_map_of_mem hmem
    · rw [hbare, hids]
      exact hshared.shared.expanded.nodup
    · rw [hbare, hbare, hids]
      exact hexpands'.order_eq
  refine ⟨graph, edits, row, code', ⟨hbuild, hbuilt, ?_, hedited, hedits, hrows,
      hshared.shared.expanded, hexpands', hdraws, ?_, hdrawn, ?_⟩, ?_⟩
  · have hall := (List.forall₂_and_left _ _).mpr ⟨fun _ h => h, hparts⟩
    refine hall.imp fun block edit hedit => ⟨?_, hedit.2.2⟩
    rw [hedit.2.1]
    exact (htrees block hedit.1).2
  · rw [hframes.body, hheads]
  · rw [hstatements] at hyields
    exact hyields
  · rw [hchanged, hbuilt.changed_eq]
    simp

namespace SharesAs

variable {graph : Graph} {edits : List BlockEdit} {row : NodeId → List NodeId} {code' : Code}
  (hshares : program.SharesAs config code graph edits row program' code')

include hshares

theorem signatures : program'.signatures = program.signatures :=
  hshares.yields.signatures

theorem vars (index : Nat) (declared : Variable)
    (hdeclared : program.vars[index]? = some declared) :
    program'.vars[index]? = some declared :=
  hshares.yields.vars index declared hdeclared

/-- What holds of all that has come up and does not depend on lists holds of the statements of the
new code. -/
theorem forall_statements {property : Tree → Prop}
    (hbare : ∀ tree tree', tree.bare = tree'.bare → property tree → property tree')
    (hall : ∀ edit ∈ edits, ∀ tree ∈ edit.trees, property tree) :
    ∀ statement ∈ code'.statements, property statement := by
  intro statement hstatement
  have hmem := hshares.drawn ▸ List.mem_map_of_mem (f := Tree.bare) hstatement
  obtain ⟨tree, htree, hsame⟩ := List.mem_map.mp hmem
  obtain ⟨edit, hedit, htree⟩ := List.mem_flatMap.mp htree
  exact hbare tree statement hsame (hall edit hedit tree htree)

theorem exists_block {edit : BlockEdit} (hedit : edit ∈ edits) : ∃ block ∈ graph.blocks,
    edit.statements.map Tree.id = block.row program ∧
      Query.Answers (program.numberStatements (block.row program) config) edit.numbering :=
  exists_of_forall₂ hshares.numbered.flip hedit

theorem statements_subset {edit : BlockEdit} (hedit : edit ∈ edits) :
    edit.statements ⊆ code.statements := by
  rw [← hshares.statements]
  exact fun statement hmem => List.mem_flatMap.mpr ⟨edit, hedit, hmem⟩

/-- What stands in the edited blocks is sound. -/
theorem sound (houtlines : program.Outlines code) : ∀ edit ∈ edits, ∀ tree ∈ edit.trees,
    program'.SoundStatement tree := by
  refine hshares.edited.sound (fun edit hedit => ?_) (fun edit hedit statement hmem => ?_)
    hshares.signatures (size_le_of_getElem? hshares.vars) le_rfl
  · obtain ⟨block, -, -, hnumbering⟩ := hshares.exists_block hedit
    exact ⟨_, hnumbering⟩
  · have hstatement := hshares.statements_subset hedit hmem
    exact ⟨houtlines.draws.statement _ hstatement, houtlines.sound _ hstatement,
      houtlines.operands _ hstatement⟩

/-- The new code is the whole new program, and no node occurs twice in it. -/
theorem outlines (houtlines : program.Outlines code) : program'.Outlines code' := by
  have hsound := hshares.forall_statements (fun _ _ hsame hsound => hsound.of_bare_eq hsame)
    (hshares.sound houtlines)
  refine ⟨⟨hshares.draws, fun statement hmem => (hsound statement hmem).sound,
    fun statement hmem => (hsound statement hmem).operands⟩, hshares.body, ?_⟩
  rw [Code.ids, ← Tree.flatMap_ids_bare, hshares.drawn]
  exact hshares.yields.nodup

end SharesAs

end Program

end ShaderIR
