import ShaderIR.Proofs.Graph.Rebuilding
import ShaderIR.Proofs.Pass.IndexFreedom
import ShaderIR.Proofs.Pass.SharedDepth
import ShaderIR.Proofs.Pass.SpelledBlocks

/-!
Sharing twice. The ledger of an edited block says nothing that the ledger of the old block did not
say (`Program.SharesBlocks.mirrors`), so two nodes that have one number now had one number before.
Of such nodes only the origin is left, and so nothing is repeated in an edited block
(`Program.SharesBlocks.repeated_eq_nil`). The graph of the new program has these blocks
(`Graph.Built.exists_rebuilt_rows`). Hence a second run changes nothing
(`Program.localCse_of_localCse`).
-/

set_option autoImplicit false

namespace ShaderIR

/-! ### Numbers of several nodes -/

/-- A number is repeated if two nodes have it and no partial write has to do with it. -/
theorem Numbering.one_lt_redundancy_iff {numbering : Numbering}
    (hnodup : (numbering.occurrences.map Prod.fst).Nodup) {number : ValueNumber} :
    1 < numbering.redundancy number ↔ numbering.isPartial number = false ∧ ∃ id id', id ≠ id' ∧
      (id, number) ∈ numbering.occurrences ∧ (id', number) ∈ numbering.occurrences := by
  unfold redundancy
  cases numbering.isPartial number with
  | true => simp
  | false =>
    have hfound := (List.Nodup.of_map _ hnodup).filter fun occurrence => occurrence.2 == number
    rw [if_neg Bool.false_ne_true, List.countP_eq_length_filter,
      ← List.toFinset_card_of_nodup hfound, Finset.one_lt_card_iff]
    simp only [List.mem_toFinset, List.mem_filter, beq_iff_eq, true_and]
    constructor
    · rintro ⟨⟨id, _⟩, ⟨id', _⟩, ⟨hmem, rfl⟩, ⟨hmem', rfl⟩, hne⟩
      exact ⟨id, id', fun hsame => hne (by rw [hsame]), hmem, hmem'⟩
    · rintro ⟨id, id', hne, hmem, hmem'⟩
      exact ⟨_, _, ⟨hmem, rfl⟩, ⟨hmem', rfl⟩, fun hsame => hne (congrArg Prod.fst hsame)⟩

/-! ### Statements without their lists -/

namespace Ledger

variable {ledger : Ledger} {program : Program} {eligible : NodeKinds}

theorem performed_of_bare_eq {statement statement' : Tree}
    (hsame : statement.bare = statement'.bare) :
    ledger.performed program eligible statement = ledger.performed program eligible statement' := by
  have hcall {statement : Tree} (hhead : statement.node.head? = none) :
      ¬ program.MakesPureCall statement := by
    rintro ⟨_, _, _, _, hnode, -⟩
    rw [hnode] at hhead
    cases hhead
  rcases Tree.eq_or_of_bare_eq hsame
    with rfl | ⟨_, _, _, _, _, _, _, rfl, rfl⟩ | ⟨_, _, _, _, rfl, rfl⟩
  · rfl
  all_goals
    rw [performed_eq (hcall rfl), performed_eq (hcall rfl)]
    rfl

theorem performedAll_of_bare_eq {statements statements' : List Tree}
    (hsame : statements.map Tree.bare = statements'.map Tree.bare) :
    ledger.performedAll program eligible statements =
      ledger.performedAll program eligible statements' := by
  rw [← List.forall₂_eq_eq_eq, List.forall₂_map_left_iff, List.forall₂_map_right_iff] at hsame
  induction hsame generalizing ledger with
  | nil => rfl
  | cons hfirst _ ih => rw [performedAll_cons, performedAll_cons, performed_of_bare_eq hfirst, ih]

end Ledger

/-! ### Blocks -/

namespace Program.NumbersBlock

variable {program : Program} {config : Config} {statements : List Tree} {final : Numberer}
  (hblock : program.NumbersBlock config statements final)

include hblock

theorem one_lt_redundancy_iff {number : ValueNumber} : 1 < final.numbering.redundancy number ↔
    final.numbering.isPartial number = false ∧ ∃ id id', id ≠ id' ∧
      (id, number) ∈ final.numbering.occurrences ∧ (id', number) ∈ final.numbering.occurrences :=
  Numbering.one_lt_redundancy_iff (hblock.numbers.nodup_occurrences
      (fun statement hmem => (hblock.sound statement hmem).sound) hblock.nodup)

theorem exists_records (hunindexed : ∀ statement ∈ statements, program.Unindexed statement) :
    ∃ naming,
      final.Records naming (({} : Ledger).performedAll program config.eligible statements) := by
  obtain ⟨naming, -, hrecords⟩ := hblock.numbers.records (fun statement hmem =>
    ⟨(hblock.sound statement hmem).sound, hblock.draws statement hmem,
      hunindexed statement hmem⟩) Numberer.records_nil
  exact ⟨naming, hrecords⟩

end Program.NumbersBlock

/-! ### Edited blocks -/

namespace Program.SharesBlocks

variable {program program' : Program} {config : Config} {code code' : Code} {graph : Graph}
  {row : NodeId → List NodeId} {blocks : List SharedBlock} {block : SharedBlock} {trees : List Tree}
  (hshares : program.SharesBlocks config code graph blocks row program' code')

include hshares

/-- No node occurs twice in an edited block. -/
theorem nodup_ids (hblock : block ∈ blocks) : (block.edit.trees.flatMap Tree.ids).Nodup := by
  have hnodup := hshares.shares.yields.nodup
  rw [Tree.flatMap_ids_bare, List.flatMap_assoc] at hnodup
  exact (List.nodup_flatMap.mp hnodup).1 block.edit (List.mem_map_of_mem hblock)

variable (hfree : program.IndexFree)

include hfree

/-- What is known of an edited block is what was known of the old one. -/
theorem mirrors (hblock : block ∈ blocks) :
    ∃ final naming memory next, program.NumbersBlock config block.edit.statements final ∧
    block.edit.numbering = final.numbering ∧
    final.Records naming
      (({} : Ledger).performedAll program config.eligible block.edit.statements) ∧
    Ledger.Mirrors program.vars.size naming memory next
      (({} : Ledger).performedAll program config.eligible block.edit.statements)
      (({} : Ledger).performedAll program' config.eligible block.edit.trees) := by
  obtain ⟨final, hnumbers, hnumbering⟩ := (hshares.settled block hblock).numbers
  obtain ⟨next, next', hedited, hnext⟩ := hshares.exists_editedAll hblock
  have hstatements := hshares.statements_subset hblock
  obtain ⟨naming, hrecords⟩ := hnumbers.exists_records fun statement hmem =>
    hshares.outlines.indexFree_iff.mp hfree statement (hstatements hmem)
  refine ⟨final, naming, _, next', hnumbers, hnumbering, hrecords,
    hedited.mirrors (fun index hindex => ?_) hshares.shares.signatures
      (fun before statement after hsplit => ?_) (Ledger.mirrors_nil naming next hnext)⟩
  · rw [Array.getElem?_eq_getElem hindex]
    exact hshares.shares.vars index _ (Array.getElem?_eq_getElem hindex)
  · have hpurely := (hshares.sharesPurely hblock).2 statement
      (hsplit ▸ List.mem_append_right _ List.mem_cons_self)
    rw [BlockEdit.plan, hnumbering] at hpurely ⊢
    exact hnumbers.spells hrecords hsplit hpurely

/-- An edited block takes no more numbers than the old one, so that it can be numbered, too. -/
theorem exists_numbersBlock (hblock : block ∈ blocks) (htrees : trees ⊆ code'.statements)
    (hids : block.edit.trees.map Tree.id = trees.map Tree.id) :
    ∃ final, program'.NumbersBlock config trees final ∧
      Query.Answers (program'.numberStatements (trees.map Tree.id) config) final.numbering := by
  have houtlines' := hshares.outlines'
  have hbare := hshares.map_bare_eq hblock (List.Subset.refl _) htrees hids
  obtain ⟨final', hnumbers', hrun⟩ := hshares.exists_numbers hblock htrees hids
  have hblock' : program'.NumbersBlock config trees final' := by
    refine ⟨hnumbers', fun tree hmem => houtlines'.draws.statement tree (htrees hmem),
      fun tree hmem => ⟨houtlines'.sound tree (htrees hmem),
        houtlines'.operands tree (htrees hmem)⟩, ?_⟩
    rw [← Tree.flatMap_ids_bare, ← hbare, Tree.flatMap_ids_bare]
    exact hshares.nodup_ids hblock
  refine ⟨final', hblock', ?_⟩
  obtain ⟨final, naming, memory, next, -, hsame, hrecords, hmirrors⟩ := hshares.mirrors hfree hblock
  obtain ⟨naming', hrecords'⟩ :=
    hblock'.exists_records fun tree hmem => hshares.unindexed hfree tree (htrees hmem)
  rw [← Ledger.performedAll_of_bare_eq hbare] at hrecords'
  have hle : final'.numbering.allocated ≤ final.numbering.allocated :=
    hrecords.allocated_le hrecords' fun _ => hmirrors.lists
  have hlast := hle.trans (hsame ▸ hshares.allocated_le_last hblock)
  rw [if_neg (Nat.not_lt.mpr hlast)] at hrun
  exact hrun

/-- Nothing is repeated in an edited block. -/
theorem repeated_eq_nil (hblock : block ∈ blocks) (htrees : trees ⊆ code'.statements)
    (hids : block.edit.trees.map Tree.id = trees.map Tree.id) {numbering : Numbering}
    (hnumbering : Query.Answers (program'.numberStatements (trees.map Tree.id) config) numbering) :
    numbering.repeated = [] := by
  have hbare := hshares.map_bare_eq hblock (List.Subset.refl _) htrees hids
  obtain ⟨final, naming, memory, next, hnumbers, hsame, hrecords, hmirrors⟩ :=
    hshares.mirrors hfree hblock
  obtain ⟨final', hnumbers', hanswers⟩ := hshares.exists_numbersBlock hfree hblock htrees hids
  obtain rfl := Query.Answers.unique hanswers hnumbering
  obtain ⟨naming', hrecords'⟩ :=
    hnumbers'.exists_records fun tree hmem => hshares.unindexed hfree tree (htrees hmem)
  rw [← Ledger.performedAll_of_bare_eq hbare] at hrecords'
  -- what a node is made of now, it was made of before
  have hold {id : NodeId} {number : ValueNumber}
      {symbol : Symbol} (hnamed : naming' number = some symbol)
      (hoccurrence : (id, number) ∈ final'.numbering.occurrences) : program'.Reachable id ∧
        ∃ old, (id, old) ∈ final.numbering.occurrences ∧ naming old = some symbol := by
    refine ⟨?_, (hrecords.noted _).mp
      (hmirrors.noted ((hrecords'.noted (id, symbol)).mpr ⟨number, hoccurrence, hnamed⟩))⟩
    obtain ⟨tree, hmem, node, hnode, rfl, -⟩ := hnumbers'.exists_of_occurrence hoccurrence
    exact hshares.outlines'.reachable_of_contains
      ⟨tree, htrees hmem, Program.noteworthy_subset (hnumbers'.sound tree hmem).sound hnode⟩
  refine List.filter_eq_nil_iff.mpr fun ⟨id, number⟩ hoccurrence hrepeated => ?_
  obtain ⟨hpartial, id₁, id₂, hne, hoccurrence₁, hoccurrence₂⟩ :=
    hnumbers'.one_lt_redundancy_iff.mp (of_decide_eq_true hrepeated)
  obtain ⟨symbol, hnamed⟩ := hrecords'.occurrences _ hoccurrence
  obtain ⟨hreachable₁, old, hold₁, hnamed₁⟩ := hold hnamed hoccurrence₁
  obtain ⟨hreachable₂, other, hold₂, hnamed₂⟩ := hold hnamed hoccurrence₂
  obtain rfl := hrecords.names.injective _ _ _ hnamed₁ hnamed₂
  have hwhole : final.numbering.isPartial old = false := by
    rw [Bool.eq_false_iff, ne_eq, hrecords.isPartial_iff hnamed₁, ← hmirrors.partials,
      ← hrecords'.isPartial_iff hnamed]
    simp [hpartial]
  have hshared : 1 < final.numbering.redundancy old :=
    hnumbers.one_lt_redundancy_iff.mpr ⟨hwhole, id₁, id₂, hne, hold₁, hold₂⟩
  rw [← hsame] at hold₁ hold₂ hshared
  obtain ⟨origin, horigin, rfl⟩ :=
    List.mem_map.mp (((hshares.settled block hblock).shares.mem_iff old).mpr hshared)
  exact hne ((hshares.eq_of_reachable hblock horigin hold₁ hreachable₁).trans
    (hshares.eq_of_reachable hblock horigin hold₂ hreachable₂).symm)

end Program.SharesBlocks

/-! ### The new graph -/

namespace Graph

/-- A graph with other ranges in its blocks. -/
def mapBlocks (graph : Graph) (change : BasicBlock → BasicBlock) : Graph :=
  { graph with slots := graph.slots.map (Option.map change) }

variable {graph : Graph} {change : BasicBlock → BasicBlock}

theorem blocks_mapBlocks : (graph.mapBlocks change).blocks = graph.blocks.map change := by
  rw [blocks, blocks, mapBlocks, Array.toList_map, List.filterMap_map, List.map_filterMap]
  rfl

theorem Located.mapBlocks (hlocated : graph.Located)
    (hids : ∀ block, (change block).id = block.id) :
    (graph.mapBlocks change).Located := by
  intro index block hslot
  rw [Graph.mapBlocks, Array.getElem?_map] at hslot
  obtain ⟨slot, hfound, hslot⟩ := Option.map_eq_some_iff.mp hslot
  obtain ⟨old, rfl, rfl⟩ := Option.map_eq_some_iff.mp hslot
  rw [hids]
  exact hlocated index old hfound

/-- The graph of an expanded program can be built, and has a block for each row of a block of the
old graph. -/
theorem Built.exists_rebuilt_rows {program program' : Program} {config : Config} {code : Code}
    {row : NodeId → List NodeId} (hbuilt : Built program config code graph)
    (hexpanded : program.Expanded code row program') :
    ∃ rebuilt, Query.Answers (build program' config) rebuilt ∧
      rebuilt.blocks.map (BasicBlock.row program') = graph.blocks.map fun block =>
        (block.row program).flatMap row := by
  have hblocks : (graph.mapBlocks (BasicBlock.expanded row)).blocks =
      graph.blocks.map (BasicBlock.expanded row) :=
    blocks_mapBlocks
  have hlocated : (graph.mapBlocks (BasicBlock.expanded row)).Located :=
    hbuilt.depicts.located.mapBlocks fun _ => rfl
  obtain ⟨_, -, -, rebuilt, hrebuild, hrenamed⟩ := hbuilt.exists_rebuilt hexpanded hlocated hblocks
  refine ⟨rebuilt, hrebuild, ?_⟩
  obtain ⟨code', hframes', hexpands⟩ := hexpanded.exists_frames hbuilt.frames
  have hsame : (graph.blocks.map (BasicBlock.expanded row)).map (BasicBlock.row program') =
      rebuilt.blocks.map (BasicBlock.row program') := by
    rw [← hblocks, ← List.forall₂_eq_eq_eq, List.forall₂_map_left_iff, List.forall₂_map_right_iff]
    exact hrenamed.imp fun block other hother => by
        rw [BasicBlock.row, BasicBlock.row, hother.statements]
  rw [← hsame, List.map_map]
  exact List.map_congr_left fun block hblock =>
    (hbuilt.depicts.holds_expanded hbuilt.frames hbuilt.loopless hexpanded hexpands
      hblock).row_eq hframes'

end Graph

/-! ### The second run -/

namespace Program

variable {program program' : Program} {config : Config} {changed : Bool}

/-- Where nothing is repeated in the blocks, sharing them changes nothing. -/
theorem answers_shareBlocks_of_repeated {numberings : List (BlockId × Numbering)}
    (hnone : ∀ entry ∈ numberings, entry.2.repeated = []) (workspace : Workspace) :
    Walk.Answers (shareBlocks numberings config) workspace () workspace := by
  induction numberings with
  | nil => rfl
  | cons entry numberings ih =>
    obtain ⟨hfirst, hlater⟩ := List.forall_mem_cons.mp hnone
    refine Graph.answers_shareBlocks_cons.mpr ⟨false, workspace, ?_, ih hlater⟩
    have hskipped :
        (entry.2.poisoned || (SharingPlan.ofNumbering entry.2 config).targets.isEmpty) = true := by
      rw [SharingPlan.ofNumbering, hfirst]
      simp
    unfold shareBlock
    rw [if_pos hskipped]
    rfl

/-- A row of statements for each statement of a block is what stands in the edited block. -/
theorem SharesAs.exists_edit {code code' : Code} {graph : Graph}
    {edits : List BlockEdit} {row : NodeId → List NodeId}
    (hshares : program.SharesAs config code graph edits row program' code') {block : BasicBlock}
    (hblock : block ∈ graph.blocks) :
    ∃ edit ∈ edits, (block.row program).flatMap row = edit.trees.map Tree.id := by
  obtain ⟨edit, hedit, hids, -⟩ := exists_of_forall₂ hshares.numbered hblock
  refine ⟨edit, hedit, ?_⟩
  rw [← hids, List.flatMap_map, List.flatMap_def, hshares.rows edit hedit, ← List.flatMap_def,
    BlockEdit.trees, List.map_flatMap]

/-- Each block of the graph that is built anew is numbered, and nothing is repeated in it. -/
theorem SharesBlocks.exists_numberings {code code' : Code} {graph rebuilt : Graph}
    {row : NodeId → List NodeId} {blocks : List SharedBlock}
    (hshares : program.SharesBlocks config code graph blocks row program' code')
    (hfree : program.IndexFree) (hrebuilt : Graph.Built program' config code' rebuilt)
    (hrows : rebuilt.blocks.map (BasicBlock.row program') = graph.blocks.map fun block =>
      (block.row program).flatMap row) :
    ∃ numberings, Query.Answers (rebuilt.numberBlocks program' config) numberings ∧
      ∀ entry ∈ numberings, entry.2.repeated = [] := by
  have hchoice : ∀ found, ∃ numbering, found ∈ rebuilt.blocks →
      Query.Answers (program'.numberStatements (found.row program') config) numbering ∧
      numbering.repeated = [] := by
    intro found
    by_cases hfound : found ∈ rebuilt.blocks
    · obtain ⟨old, hold, hrow⟩ :=
        List.mem_map.mp (hrows ▸ List.mem_map_of_mem (f := BasicBlock.row program') hfound)
      obtain ⟨_, hedit, hmade⟩ := hshares.shares.exists_edit hold
      obtain ⟨block, hblock, rfl⟩ := List.mem_map.mp hedit
      obtain ⟨trees, htrees, hids⟩ := hrebuilt.depicts.exists_trees hfound
      have hsame : block.edit.trees.map Tree.id = trees.map Tree.id := by rw [hids, ← hrow, hmade]
      obtain ⟨final, -, hnumbering⟩ := hshares.exists_numbersBlock hfree hblock htrees hsame
      exact ⟨final.numbering,
        fun _ => ⟨hids ▸ hnumbering, hshares.repeated_eq_nil hfree hblock htrees hsame hnumbering⟩⟩
    · exact ⟨{}, fun h => absurd h hfound⟩
  choose numbering hnumbering using hchoice
  refine ⟨rebuilt.blocks.map fun found => (found.id, numbering found),
    (answers_numberBlocks_iff hrebuilt.frames hrebuilt.depicts).mpr ?_,
    List.forall_mem_map.mpr fun found hfound => (hnumbering found hfound).2⟩
  rw [List.forall₂_map_right_iff, List.forall₂_same]
  exact fun found hfound => ⟨rfl, (hnumbering found hfound).1⟩

/-- Where a program with this code has been shared, sharing it again finds nothing. -/
theorem Outlines.answers_localCse_again {code : Code} (houtlines : program.Outlines code)
    (hfree : program.IndexFree) (hshare : Walk.Answers (localCse config) program changed program') :
    Walk.Answers (localCse config) program' false program' := by
  obtain ⟨graph, blocks, row, code', hshares⟩ := houtlines.exists_sharesBlocks hshare
  obtain ⟨rebuilt, hrebuild, hrows⟩ :=
    hshares.shares.built.exists_rebuilt_rows hshares.shares.expanded
  have hrebuilt := Graph.built_of_frames hshares.outlines'.frames hrebuild
  obtain ⟨numberings, hnumberings, hnone⟩ := hshares.exists_numberings hfree hrebuilt hrows
  have hanswer :=
    answers_eliminateRepeated hrebuild hnumberings (answers_shareBlocks_of_repeated hnone _)
  rw [hrebuilt.changed_eq] at hanswer
  exact answers_localCse_iff.mpr hanswer

/-- Sharing a program that has been shared finds nothing to share, and leaves the program as it
is. -/
theorem localCse_of_localCse (hcheck : program.check = .ok ()) (hfree : program.IndexFree)
    (hshare : (localCse config).runFrom program = .ok (.ok changed, program')) :
    (localCse config).runFrom program' = .ok (.ok false, program') := by
  obtain ⟨code, houtlines⟩ := exists_outlines_of_check hcheck
  exact houtlines.answers_localCse_again hfree hshare

theorem localCse_of_localCse_callTwice :
    callTwice.check = .ok () ∧ callTwice.IndexFree ∧ ∃ program',
    (localCse { eligible := .all }).runFrom callTwice = .ok (.ok true, program') ∧
    (localCse { eligible := .all }).runFrom program' = .ok (.ok false, program') := by
  have hcheck : callTwice.check = .ok () := rfl
  have hfree : callTwice.IndexFree := indexFree_of_forall (by simp [callTwice])
  obtain ⟨program', hshare, -⟩ := exists_localCse_callTwice
  exact ⟨hcheck, hfree, program', hshare, localCse_of_localCse hcheck hfree hshare⟩

end Program

end ShaderIR
