import ShaderIR.Proofs.Pass.SharedBlocks

/-!
One computation for each shared number. `Program.SharesOnce` says what sharing makes of a program:
there is one new variable for each pair of a block and a number that occurs more than once in it
(`Numbering.sharedPairs`), and an `Origin` represents the number. Of the nodes with this number only
the one of the origin can still be reached, and where the others stood, the variable is read
(`Origin.Represents`). The main statement is `Program.sharesOnce_of_localCse`.
-/

set_option autoImplicit false

namespace ShaderIR

theorem exists_getElem?_of_forall₂ {α β : Type} {relation : α → β → Prop}
    {items : List α} {others : List β} (hall : List.Forall₂ relation items others)
    {place : Nat} {item : α} (hitem : items[place]? = some item) :
    ∃ other, others[place]? = some other ∧ relation item other := by
  induction hall generalizing place with
  | nil => simp at hitem
  | cons hfirst _ ih =>
    cases place with
    | zero => exact ⟨_, rfl, Option.some.inj hitem ▸ hfirst⟩
    | succ place => exact ih hitem

theorem Tree.eq_of_bare_eq {tree tree' : Tree} (hsame : tree'.bare = tree.bare)
    (hkind : tree.node.kind = .assign ∨ tree.node.kind = .call) : tree' = tree := by
  rcases eq_or_of_bare_eq hsame with rfl | ⟨_, _, _, _, _, _, _, rfl, rfl⟩ | ⟨_, _, _, _, rfl, rfl⟩
  · rfl
  · rcases hkind with hkind | hkind <;> cases hkind
  · rcases hkind with hkind | hkind <;> cases hkind

/-! ### Single computations -/

/-- The statement copies a variable to a place. -/
def Program.Copies (program : Program) (copy target : NodeId) (temporary : VarId) : Prop :=
  ∃ leaf, program.node copy = .ok (.assign target leaf 0) ∧
    program.node leaf = .ok (.variable temporary)

/-- The computation of an origin goes into its temporary: it is the right side of an assignment, or
it is a call in front of one more statement. -/
def Program.Computes (program : Program) (row : NodeId → List NodeId) (origin : Origin) : Prop :=
  (∃ statement place, program.Reachable statement ∧
    program.node statement = .ok (.assign place origin.id 0) ∧
    program.node place = .ok (.variable origin.temporary)) ∨
  ∃ callee arguments result before copy,
    program.node origin.id = .ok (.call callee arguments (some result)) ∧
    program.node result = .ok (.variable origin.temporary) ∧
    row origin.id = before ++ [origin.id, copy]

/-- The computation of an origin is the only one that is left of its number. -/
structure Origin.Represents (origin : Origin) (program : Program) (numbering : Numbering)
    (row : NodeId → List NodeId) (program' : Program) : Prop where
  occurrence : (origin.id, origin.number) ∈ numbering.occurrences
  reachable_iff : ∀ id, (id, origin.number) ∈ numbering.occurrences →
    (program'.Reachable id ↔ id = origin.id)
  stored : program'.Computes row origin
  /-- Where a computation of the number was an operand, the temporary is read. -/
  read : ∀ id owner place, (id, origin.number) ∈ numbering.occurrences →
    program.Fills id (.operand owner place) →
    program'.Reachable owner →
      ∃ read, program'.Fills read (.operand owner place) ∧
        program'.node read = .ok (.variable origin.temporary)
  /-- Where a computation of the number was a statement, it was a call, and the temporary is copied
  to its result. -/
  copied : ∀ id ref place, (id, origin.number) ∈ numbering.occurrences →
    program.Fills id (.listed ref place) →
    ∃ callee arguments target before copy,
      program.node id = .ok (.call callee arguments (some target)) ∧
      row id = before ++ [copy] ∧ program'.Copies copy target origin.temporary

namespace SharedBlock.Settled

variable {block : SharedBlock} {config : Config} {program : Program} {id : NodeId}
  {number number' : ValueNumber} (hblock : block.Settled config program)

include hblock

theorem lookup_targets_iff : (block.edit.plan config).targets.lookup id = some number ↔
    (id, number) ∈ block.edit.numbering.occurrences ∧
    1 < block.edit.numbering.redundancy number := by
  obtain ⟨final, hnumbers, hnumbering⟩ := hblock.numbers
  rw [BlockEdit.plan, hnumbering]
  exact hnumbers.lookup_targets_iff

theorem eq_of_occurrences (hoccurrence : (id, number) ∈ block.edit.numbering.occurrences)
    (hoccurrence' : (id, number') ∈ block.edit.numbering.occurrences) : number = number' := by
  obtain ⟨final, hnumbers, hnumbering⟩ := hblock.numbers
  rw [hnumbering] at hoccurrence hoccurrence'
  exact hnumbers.eq_of_occurrences hoccurrence hoccurrence'

/-- What has been noted of a block is a node of it that is no read. -/
theorem exists_tree (hoccurrence : (id, number) ∈ block.edit.numbering.occurrences) :
    ∃ statement ∈ block.edit.statements, ∃ tree ∈ statement.subtrees,
      tree.id = id ∧ tree.node.kind ≠ .variable := by
  obtain ⟨final, hnumbers, hnumbering⟩ := hblock.numbers
  rw [hnumbering] at hoccurrence
  obtain ⟨statement, hstatement, tree, htree, hid, -, key, hhead, -⟩ :=
    hnumbers.exists_of_occurrence hoccurrence
  refine ⟨statement, hstatement, tree,
    Program.noteworthy_subset (hnumbers.sound _ hstatement).sound htree, hid, fun hkind => ?_⟩
  cases hnode : tree.node <;> simp_all [Node.kind, Node.head?]

theorem mem_ids (hoccurrence : (id, number) ∈ block.edit.numbering.occurrences) :
    id ∈ block.edit.statements.flatMap Tree.ids := by
  obtain ⟨statement, hstatement, tree, htree, rfl, -⟩ := hblock.exists_tree hoccurrence
  exact List.mem_flatMap.mpr ⟨statement, hstatement, List.mem_map_of_mem htree⟩

theorem redundancy {origin : Origin} (horigin : origin ∈ block.origins) :
    1 < block.edit.numbering.redundancy origin.number :=
  (hblock.shares.mem_iff _).mp (List.mem_map_of_mem horigin)

/-- A temporary in memory is that of an origin. -/
theorem temporary_eq {origin : Origin} (horigin : origin ∈ block.origins) {temporary : VarId}
    (hheld : (origin.number, temporary) ∈ block.edit.memory) : temporary = origin.temporary := by
  rw [hblock.shares.held, List.mem_reverse, List.mem_map] at hheld
  obtain ⟨found, hfound, hentry⟩ := hheld
  obtain ⟨hnumber, rfl⟩ := Prod.mk.inj hentry
  rw [List.inj_on_of_nodup_map hblock.shares.nodup hfound horigin hnumber]

end SharedBlock.Settled

namespace Program.SharesBlocks

open Code

variable {program program' : Program} {config : Config} {code code' : Code} {graph : Graph}
  {row : NodeId → List NodeId} {blocks : List SharedBlock} {block : SharedBlock} {origin : Origin}
  {id : NodeId} (hshares : program.SharesBlocks config code graph blocks row program' code')

include hshares

/-- A node of a block that is left descends from itself. -/
theorem descends_of_mem (hblock : block ∈ blocks) {tree tree' : Tree}
    (hcontains : code.Contains tree) (hcontains' : code'.Contains tree')
    (hid : tree'.id = tree.id) (hkind : tree.node.kind ≠ .variable) {below : Tree}
    (hbelow : below ∈ tree.subtrees) (hmem : below.id ∈ block.edit.statements.flatMap Tree.ids) :
    (block.edit.plan config).Descends block.edit.memory block.origins tree tree' := by
  obtain ⟨other, hother, statement, hstatement, htree, hdescends⟩ :=
    hshares.exists_descends hcontains hcontains' hid hkind
  obtain rfl := hshares.eq_of_mem_ids hother hblock (List.mem_flatMap.mpr ⟨statement, hstatement,
    List.mem_map_of_mem (Tree.subtrees_subset_of_mem htree hbelow)⟩) hmem
  exact hdescends

theorem contains_of_occurrence (hblock : block ∈ blocks) {number : ValueNumber}
    (hoccurrence : (id, number) ∈ block.edit.numbering.occurrences) :
    ∃ tree, code.Contains tree ∧ tree.id = id ∧ tree.node.kind ≠ .variable := by
  obtain ⟨statement, hstatement, tree, htree, hid, hkind⟩ :=
    (hshares.settled block hblock).exists_tree hoccurrence
  exact ⟨tree, hshares.contains_of_mem hblock hstatement htree, hid, hkind⟩

/-- What is left of a shared number is its origin. -/
theorem eq_of_reachable (hblock : block ∈ blocks) (horigin : origin ∈ block.origins)
    (hoccurrence : (id, origin.number) ∈ block.edit.numbering.occurrences)
    (hreachable : program'.Reachable id) :
    id = origin.id := by
  have hsettled := hshares.settled block hblock
  obtain ⟨tree, hcontains, rfl, hkind⟩ := hshares.contains_of_occurrence hblock hoccurrence
  obtain ⟨tree', hcontains', hid⟩ := hshares.outlines'.exists_of_reachable hreachable
  have hdescends := hshares.descends_of_mem hblock hcontains hcontains' hid hkind
    tree.mem_subtrees_self (hsettled.mem_ids hoccurrence)
  have hlookup := hsettled.lookup_targets_iff.mpr ⟨hoccurrence, hsettled.redundancy horigin⟩
  obtain ⟨found, hfound, hid⟩ := hdescends.origin (hlookup ▸ rfl)
  have hnumber :=
    hsettled.eq_of_occurrences (hid ▸ (hsettled.shares.kept found hfound).1) hoccurrence
  rw [← hid, List.inj_on_of_nodup_map hsettled.shares.nodup hfound horigin hnumber]

/-- A statement that stands in an edited block is one of the new program. -/
theorem contains_of_mem_trees (hblock : block ∈ blocks) {made : Tree}
    (hmade : made ∈ block.edit.trees) (hkind : made.node.kind = .assign ∨ made.node.kind = .call) :
    code'.Contains made := by
  obtain ⟨tree', hcontains', hsame⟩ := hshares.exists_contained hblock hmade made.mem_subtrees_self
  exact Tree.eq_of_bare_eq hsame hkind ▸ hcontains'

theorem node_eq_of_child {tree : Tree} (hcontains : code'.Contains tree)
    (child : Tree) (hchild : child ∈ tree.children) :
    program'.node child.id = .ok child.node :=
  (hshares.outlines'.draws_of_contains (hcontains.child hchild)).node_eq

/-- The computation of an origin can be reached, and goes into its temporary. -/
theorem computes (hblock : block ∈ blocks) (horigin : origin ∈ block.origins) :
    program'.Reachable origin.id ∧ program'.Computes row origin := by
  have hsettled := hshares.settled block hblock
  obtain ⟨hoccurrence, made, hmade, hkeeps⟩ := hsettled.shares.kept origin horigin
  have hmem {tree : Tree} (htree : tree ∈ made.trees) : tree ∈ block.edit.trees :=
    List.mem_flatMap.mpr ⟨made, hmade, htree⟩
  rcases hkeeps
    with ⟨stored, hstored, hdefines⟩ | ⟨callee, arguments, place, copy, leaf, target, hrest⟩
  · have hcontains : code'.Contains stored.statement := hshares.contains_of_mem_trees hblock
      (hmem (List.mem_append_left _ (List.mem_map_of_mem hstored))) (Or.inl rfl)
    have hvalue : stored.value ∈ stored.statement.children := List.mem_cons_self
    rw [← hdefines.id, Computes, ← hdefines.id, ← hdefines.temporary]
    exact ⟨hshares.outlines'.reachable_of_contains (hcontains.child hvalue),
      Or.inl ⟨stored.id, stored.place, hshares.outlines'.reachable_of_contains hcontains,
      (hshares.outlines'.draws_of_contains hcontains).node_eq,
      hshares.node_eq_of_child hcontains stored.target (by simp [Row.statement])⟩⟩
  · have hcontains : code'.Contains (SharingPlan.callTree origin.id callee arguments
        (SharingPlan.readTree place origin.temporary)) :=
      hshares.contains_of_mem_trees hblock (hmem (by simp [Replacement.trees, hrest])) (Or.inr rfl)
    refine ⟨hshares.outlines'.reachable_of_contains hcontains, Or.inr ⟨callee, _, place,
        made.rows.map Row.id, copy, (hshares.outlines'.draws_of_contains hcontains).node_eq,
      hshares.node_eq_of_child hcontains (SharingPlan.readTree place origin.temporary)
        (by simp), ?_⟩⟩
    obtain ⟨statement, hstatement, hrow, -⟩ :=
      exists_of_forall₂ (hshares.leftovers hblock).flip hmade
    have htrees : row statement.id = made.rows.map Row.id ++ [origin.id, copy] := by
      rw [hrow, Replacement.trees, hrest]
      simp [Row.statement]
    -- the call is no new node, so that it stands in its own row
    have hold : origin.id.index < program.nodes.size := by
      obtain ⟨tree, hcontains, hid, -⟩ := hshares.contains_of_occurrence hblock hoccurrence
      exact hid ▸ lt_size_of_node (hshares.outlines.draws_of_contains hcontains).node_eq
    have hrowFor := hshares.shares.expanded.rows statement.id
      (List.mem_map_of_mem (hshares.statements_subset hblock hstatement))
    rcases hrowFor.new origin.id (by simp [htrees]) with hid | ⟨hnew, -⟩
    · rw [hid, htrees, ← hid]
    · omega

/-- Where a node of a shared number was an operand, its temporary is read. -/
theorem exists_read (hblock : block ∈ blocks) (horigin : origin ∈ block.origins) {owner : NodeId}
    {place : Nat} (hoccurrence : (id, origin.number) ∈ block.edit.numbering.occurrences)
    (hfills : program.Fills id (.operand owner place)) (hreachable : program'.Reachable owner) :
    ∃ read, program'.Fills read (.operand owner place) ∧
      program'.node read = .ok (.variable origin.temporary) := by
  have hsettled := hshares.settled block hblock
  cases hfills with | operand howner hnode hid
  obtain ⟨tree, hcontains, rfl⟩ := hshares.outlines.exists_of_reachable howner
  obtain ⟨tree', hcontains', hid'⟩ := hshares.outlines'.exists_of_reachable hreachable
  have hdraws := hshares.outlines.draws_of_contains hcontains
  have hdraws' := hshares.outlines'.draws_of_contains hcontains'
  obtain rfl := Except.ok.inj (hdraws.node_eq.symm.trans hnode)
  have hkind : tree.node.kind ≠ .variable := fun hkind => by
    cases hvariable : tree.node <;> simp_all [Node.kind, Node.children]
  rw [hdraws.children_eq, List.getElem?_map] at hid
  obtain ⟨child, hchild, rfl⟩ := Option.map_eq_some_iff.mp hid
  have hbelow :=
    Tree.mem_subtrees_of_mem_children (List.mem_of_getElem? hchild) child.mem_subtrees_self
  have hdescends := hshares.descends_of_mem hblock hcontains hcontains' hid' hkind hbelow
    (hsettled.mem_ids hoccurrence)
  obtain ⟨child', hchild', hreads⟩ := exists_getElem?_of_forall₂ hdescends.children hchild
  obtain ⟨temporary, hheld, hvariable⟩ :=
    hreads _ (hsettled.lookup_targets_iff.mpr ⟨hoccurrence, hsettled.redundancy horigin⟩)
  refine ⟨child'.id, .operand hreachable (hid' ▸ hdraws'.node_eq) ?_, ?_⟩
  · rw [hdraws'.children_eq, List.getElem?_map, hchild']
    rfl
  · rw [hshares.node_eq_of_child hcontains' child' (List.mem_of_getElem? hchild'), hvariable,
      hsettled.temporary_eq horigin hheld]

/-- Where a call of a shared number was a statement, its temporary is copied to the result. -/
theorem exists_copy (hblock : block ∈ blocks) (horigin : origin ∈ block.origins) {ref : ListRef}
    {place : Nat} (hoccurrence : (id, origin.number) ∈ block.edit.numbering.occurrences)
    (hfills : program.Fills id (.listed ref place)) :
    ∃ callee arguments target before copy,
      program.node id = .ok (.call callee arguments (some target)) ∧
      row id = before ++ [copy] ∧ program'.Copies copy target origin.temporary := by
  have hsettled := hshares.settled block hblock
  cases hfills with | listed hlists hid
  obtain ⟨statement, hstatement, rfl⟩ := List.mem_map.mp
    (mem_order_of_mem_lists (hlists.mem_lists hshares.outlines) (List.mem_of_getElem? hid))
  obtain ⟨other, hother, hmem, replaced, hreplaced, hrow, hleft⟩ :=
    hshares.exists_leftovers hstatement
  obtain rfl := hshares.eq_of_mem_ids hother hblock
    (List.mem_flatMap.mpr ⟨statement, hmem, statement.id_mem_ids⟩) (hsettled.mem_ids hoccurrence)
  obtain ⟨temporary, before, copy, leaf, target, hheld, htrees, callee, arguments, hnode⟩ :=
    hleft.copied _ (hsettled.lookup_targets_iff.mpr ⟨hoccurrence, hsettled.redundancy horigin⟩)
  have hcontains : code'.Contains (SharingPlan.copyTree copy leaf temporary target) :=
    hshares.contains_of_mem_trees hother
    (List.mem_flatMap.mpr ⟨replaced, hreplaced, by simp [htrees]⟩) (Or.inl rfl)
  refine ⟨callee, arguments, target.id, before.map Tree.id, copy,
    hnode ▸ (hshares.outlines.draws.statement _ hstatement).node_eq, by simp [hrow, htrees], leaf,
    (hshares.outlines'.draws_of_contains hcontains).node_eq, ?_⟩
  rw [← hsettled.temporary_eq horigin hheld]
  exact hshares.node_eq_of_child hcontains (SharingPlan.readTree leaf temporary) List.mem_cons_self

/-- The origins of a block represent its shared numbers. -/
theorem represents (hblock : block ∈ blocks) (horigin : origin ∈ block.origins) :
    origin.Represents program block.edit.numbering row program' where
  occurrence := ((hshares.settled block hblock).shares.kept origin horigin).1
  reachable_iff _ hoccurrence := ⟨hshares.eq_of_reachable hblock horigin hoccurrence, fun hid =>
    hid ▸ (hshares.computes hblock horigin).1⟩
  stored := (hshares.computes hblock horigin).2
  read _ _ _ := hshares.exists_read hblock horigin
  copied _ _ _ := hshares.exists_copy hblock horigin

end Program.SharesBlocks

/-! ### Whole programs -/

namespace Program

variable {program program' : Program} {config : Config} {code code' : Code} {graph : Graph}
  {row : NodeId → List NodeId} {blocks : List SharedBlock} {changed : Bool}

/-- What sharing makes of a program whose blocks have these numberings: the origins belong to the
numbers that occur more than once in a block, and represent them. -/
structure SharesOnce (program : Program) (numberings : List (BlockId × Numbering))
    (row : NodeId → List NodeId) (origins : List (BlockId × Origin)) (program' : Program) :
    Prop where
  /-- In all lists, rows of statements stand for single ones. -/
  lists : ∀ ref statements, program.Lists ref statements →
    program'.Lists ref (statements.flatMap row) ∧
    ∀ statement ∈ statements, program.RowFor program' statement (row statement)
  nodup : (Numbering.sharedPairs numberings).Nodup
  perm :
    (origins.map fun origin => (origin.1, origin.2.number)).Perm (Numbering.sharedPairs numberings)
  /-- The temporaries are the new variables. -/
  temporaries : (origins.map fun origin => origin.2.temporary.index) =
    List.range' program.vars.size origins.length
  size : program'.vars.size = program.vars.size + (Numbering.sharedPairs numberings).length
  represents : ∀ origin ∈ origins, ∀ numbering, (origin.1, numbering) ∈ numberings →
    origin.2.Represents program numbering row program'

/-- The origins of the blocks. -/
def originsOf (blocks : List SharedBlock) : List (BlockId × Origin) :=
  blocks.flatMap fun block => block.origins.map (block.id, ·)

theorem perm_originsOf (hsettled : ∀ block ∈ blocks, block.Settled config program) :
    ((originsOf blocks).map fun origin => (origin.1, origin.2.number)).Perm
      (Numbering.sharedPairs (blocks.map fun block => (block.id, block.edit.numbering))) := by
  rw [originsOf, Numbering.sharedPairs, List.map_flatMap, List.flatMap_map]
  refine List.Perm.flatMap_left _ fun block hblock => ?_
  have hperm := (hsettled block hblock).perm_numbers.map (block.id, ·)
  rwa [List.map_map] at hperm ⊢

theorem SharesBlocks.sharesOnce
    (hshares : program.SharesBlocks config code graph blocks row program' code')
    (hids : (blocks.map SharedBlock.id).Nodup) (hnext : Origin.Successive program.vars.size
      (blocks.flatMap SharedBlock.origins) program'.vars.size) :
    program.SharesOnce (blocks.map fun block => (block.id, block.edit.numbering)) row
      (originsOf blocks) program' := by
  have hperm := perm_originsOf hshares.settled
  have hsnd : (originsOf blocks).map Prod.snd = blocks.flatMap SharedBlock.origins := by
    simp [originsOf, List.map_flatMap, Function.comp_def]
  have hlength : (originsOf blocks).length = (blocks.flatMap SharedBlock.origins).length := by
    rw [← hsnd, List.length_map]
  refine ⟨fun ref statements hlists => ?_, Numbering.nodup_sharedPairs ?_, hperm, ?_, ?_, ?_⟩
  · refine ⟨hshares.shares.expanded.lists_of_lists hshares.outlines.frames hlists,
      fun statement hmem => ?_⟩
    exact hshares.shares.expanded.rows statement
      (Code.mem_order_of_mem_lists (hlists.mem_lists hshares.outlines) hmem)
  · rw [List.map_map]
    exact hids
  · rw [hlength, ← hnext.temporaries, ← hsnd, List.map_map]
    rfl
  · rw [← hperm.length_eq, List.length_map, hlength]
    exact hnext.next_eq
  · intro origin horigin numbering hnumbering
    obtain ⟨block, hblock, horigin⟩ := List.mem_flatMap.mp horigin
    obtain ⟨found, hfound, rfl⟩ := List.mem_map.mp horigin
    obtain ⟨other, hother, hentry⟩ := List.mem_map.mp hnumbering
    obtain ⟨hid, rfl⟩ := Prod.mk.inj hentry
    obtain rfl := List.inj_on_of_nodup_map hids hother hblock hid
    exact hshares.represents hblock hfound

theorem exists_memory_iff (hsettled : ∀ block ∈ blocks, block.Settled config program) :
    (∃ edit ∈ blocks.map SharedBlock.edit, edit.memory ≠ []) ↔
      Numbering.sharedPairs (blocks.map fun block => (block.id, block.edit.numbering)) ≠ [] := by
  simp only [Numbering.sharedPairs, List.flatMap_map, ne_eq, List.flatMap_eq_nil_iff,
    List.map_eq_nil_iff, List.mem_map, exists_exists_and_eq_and, not_forall, exists_prop]
  refine exists_congr fun block => and_congr_right fun hblock => not_congr ?_
  have hperm := (hsettled block hblock).perm_numbers
  rw [(hsettled block hblock).shares.held, List.reverse_eq_nil_iff, List.map_eq_nil_iff]
  exact ⟨fun hnil => by simpa [hnil] using hperm, fun hnil => by simpa [hnil] using hperm⟩

/-- Sharing computes each number that occurs more than once in a block into a variable of its own,
once, and reads that variable wherever the number was computed. It says whether there is such a
number. -/
theorem sharesOnce_of_localCse (hcheck : program.check = .ok ())
    (hshare : (localCse config).runFrom program = .ok (.ok changed, program')) :
    ∃ graph numberings row origins, Query.Answers (Graph.build program config) graph ∧
      Query.Answers (graph.numberBlocks program config) numberings ∧
      program.SharesOnce numberings row origins program' ∧
      (changed = true ↔ Numbering.sharedPairs numberings ≠ []) := by
  obtain ⟨code, houtlines⟩ := exists_outlines_of_check hcheck
  obtain ⟨graph, edits, row, code', hshares, hchanged⟩ := houtlines.exists_sharesAs hshare
  obtain ⟨built, numberings, -, hbuild, hnumberings, -⟩ :=
    exists_of_eliminateRepeated (answers_localCse_iff.mp hshare)
  obtain rfl := Except.ok.inj (Except.ok.inj (hshares.build.symm.trans hbuild))
  obtain ⟨blocks, rfl, rfl, hsettled, hnext⟩ := hshares.exists_blocks houtlines hnumberings
  have hentries := (answers_numberBlocks_iff houtlines.frames hshares.built.depicts).mp hnumberings
  have hids : blocks.map SharedBlock.id = graph.ids := by
    rw [Graph.ids, ← List.forall₂_eq_eq_eq, List.forall₂_map_left_iff, List.forall₂_map_right_iff]
    exact (List.forall₂_map_right_iff.mp hentries).flip.imp fun _ _ hentry => hentry.1.symm
  refine ⟨graph, _, row, originsOf blocks, hshares.build, hnumberings, SharesBlocks.sharesOnce
      ⟨houtlines, hshares, hsettled⟩ (hids ▸ hshares.built.depicts.located.nodup_ids) hnext, ?_⟩
  rw [hchanged, exists_memory_iff hsettled]

/-- A call that is made twice, each time with the sum of the same variables. -/
def callTwice : Program where
  nodes := #[.variable ⟨0⟩, .variable ⟨0⟩, .apply .add [⟨0⟩, ⟨1⟩] .float, .variable ⟨1⟩,
    .call ⟨0⟩ [⟨2⟩] (some ⟨3⟩), .variable ⟨0⟩, .variable ⟨0⟩, .apply .add [⟨5⟩, ⟨6⟩] .float,
    .variable ⟨2⟩, .call ⟨0⟩ [⟨7⟩] (some ⟨8⟩)]
  vars := #[⟨"x", .float, .input⟩, ⟨"y", .float, .auto⟩, ⟨"z", .float, .auto⟩]
  signatures := #[⟨"f", [⟨.float, .input⟩], .float⟩]
  body := [⟨4⟩, ⟨9⟩]

theorem exists_localCse_callTwice :
    ∃ program', (localCse { eligible := .all }).runFrom callTwice = .ok (.ok true, program') ∧
    program'.vars.size = 5 := by
  have hfound : ((localCse { eligible := .all }).runFrom callTwice).map
      (fun reached => (reached.1, reached.2.vars.size)) = .ok (.ok true, 5) := by decide +kernel
  obtain ⟨⟨outcome, program'⟩, hshare, hreached⟩ := map_eq_ok_iff.mp hfound
  obtain ⟨rfl, hsize⟩ := Prod.mk.inj hreached
  exact ⟨program', hshare, hsize⟩

theorem sharesOnce_of_localCse_callTwice :
    callTwice.check = .ok () ∧ ∃ program' graph numberings row origins,
    (localCse { eligible := .all }).runFrom callTwice = .ok (.ok true, program') ∧
    Query.Answers (Graph.build callTwice { eligible := .all }) graph ∧
    Query.Answers (graph.numberBlocks callTwice { eligible := .all }) numberings ∧
    callTwice.SharesOnce numberings row origins program' ∧ program'.vars.size = 5 ∧
    (Numbering.sharedPairs numberings).length = 2 := by
  have hcheck : callTwice.check = .ok () := rfl
  obtain ⟨program', hshare, hsize⟩ := exists_localCse_callTwice
  obtain ⟨graph, numberings, row, origins, hbuild, hnumberings, honce, -⟩ :=
    sharesOnce_of_localCse hcheck hshare
  have hvars : callTwice.vars.size = 3 := rfl
  have hpairs := honce.size
  exact ⟨hcheck, program', graph, numberings, row, origins, hshare, hbuild, hnumberings, honce,
    hsize, by omega⟩

end Program

end ShaderIR
