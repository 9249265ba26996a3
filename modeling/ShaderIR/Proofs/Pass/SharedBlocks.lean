import ShaderIR.Proofs.Outline.Slots
import ShaderIR.Proofs.Pass.SharedProgram
import ShaderIR.Proofs.Pass.Survivors

/-!
Blocks of a program that have been shared. A `SharedBlock` is an edited block with its origins, and
`Program.SharesBlocks` says that a program has been shared block by block. What is left of a node
that is no read descends from it (`Program.SharesBlocks.exists_descends`): its children have been
kept, or they are reads of temporaries now.
-/

set_option autoImplicit false

namespace ShaderIR

theorem Node.Resembles.kind_eq {node node' : Node} (hresembles : node.Resembles node') :
    node.kind = node'.kind := by
  cases hresembles with
  | alike halike => exact halike.kind_eq
  | branch | loop => rfl

theorem Node.kind_bare (node : Node) : node.bare.kind = node.kind := by
  cases node <;> rfl

theorem Tree.kind_eq_of_bare_eq {tree tree' : Tree} (hsame : tree.bare = tree'.bare) :
    tree.node.kind = tree'.node.kind := by
  rw [← Node.kind_bare, ← Node.kind_bare tree'.node]
  exact congrArg (fun bare => bare.node.kind) hsame

theorem forall₂_of_common {α β γ : Type} {relation : α → β → Prop}
    {other : α → γ → Prop} {items : List α} {firsts : List β} {seconds : List γ}
    (hfirsts : List.Forall₂ relation items firsts) (hseconds : List.Forall₂ other items seconds) :
    List.Forall₂ (fun first second => ∃ item, relation item first ∧ other item second) firsts
      seconds := by
  induction hfirsts generalizing seconds with
  | nil => cases hseconds; exact .nil
  | cons hfirst _ ih =>
    cases hseconds with
    | cons hsecond hrest => exact .cons ⟨_, hfirst, hsecond⟩ (ih hrest)

theorem forall₂_and {α β : Type} {relation relation' : α → β → Prop}
    {items : List α} {others : List β}
    (hall : List.Forall₂ relation items others) (hall' : List.Forall₂ relation' items others) :
    List.Forall₂ (fun item other => relation item other ∧ relation' item other) items others :=
  List.forall₂_iff_zip.mpr ⟨hall.length_eq, fun hmem =>
    ⟨(List.forall₂_iff_zip.mp hall).2 hmem, (List.forall₂_iff_zip.mp hall').2 hmem⟩⟩

theorem Tree.children_eq_of_bare_eq {tree tree' : Tree} (hsame : tree.bare = tree'.bare) :
    tree.children = tree'.children := by
  rw [← tree.bare_children, hsame, tree'.bare_children]

theorem Node.isStatement_of_kind_assign {node : Node} (hkind : node.kind = .assign) :
    node.isStatement = true := by
  cases node <;> first | rfl | cases hkind

/-! ### Shared numbers -/

namespace Numbering

/-- The numbers that occur more than once. -/
def shared (numbering : Numbering) : List ValueNumber :=
  (numbering.repeated.map Prod.snd).dedup

@[simp] theorem mem_shared_iff {numbering : Numbering} {number : ValueNumber} :
    number ∈ numbering.shared ↔ 1 < numbering.redundancy number := by
  simp only [shared, List.mem_dedup, List.mem_map, repeated, List.mem_filter, decide_eq_true_eq,
    Prod.exists]
  constructor
  · rintro ⟨id, _, ⟨-, hrepeated⟩, rfl⟩
    exact hrepeated
  · intro hrepeated
    obtain ⟨id, hoccurrence⟩ := Program.NumbersBlock.exists_occurrence hrepeated
    exact ⟨id, number, ⟨hoccurrence, hrepeated⟩, rfl⟩

theorem nodup_shared (numbering : Numbering) : numbering.shared.Nodup :=
  List.nodup_dedup _

/-- The numbers that occur more than once, each with the block in which it does. -/
def sharedPairs (numberings : List (BlockId × Numbering)) : List (BlockId × ValueNumber) :=
  numberings.flatMap fun entry => entry.2.shared.map (entry.1, ·)

theorem nodup_sharedPairs {numberings : List (BlockId × Numbering)}
    (hids : (numberings.map Prod.fst).Nodup) :
    (sharedPairs numberings).Nodup := by
  refine List.nodup_flatMap.mpr
    ⟨fun entry _ => (nodup_shared _).map (Prod.mk_right_injective _), ?_⟩
  refine (List.pairwise_map.mp hids).imp fun hne pair hfirst hsecond => hne ?_
  obtain ⟨_, -, rfl⟩ := List.mem_map.mp hfirst
  obtain ⟨_, -, hpair⟩ := List.mem_map.mp hsecond
  exact (congrArg Prod.fst hpair).symm

end Numbering

/-- A block in which repeated computations have been shared. -/
structure SharedBlock where
  id : BlockId
  edit : BlockEdit
  origins : List Origin

namespace SharedBlock

/-- The block has been numbered as a part of this program, and each number that occurs more than
once has an origin. -/
structure Settled (block : SharedBlock) (config : Config) (program : Program) : Prop where
  shares : block.edit.Shares config block.origins
  numbers : ∃ final, program.NumbersBlock config block.edit.statements final ∧
    block.edit.numbering = final.numbering

variable {config : Config} {program program' : Program}

/-- Edited blocks have been settled, with temporaries one after the other. -/
theorem exists_of_editsAll {edits : List BlockEdit} {next next' : Nat}
    (hedits : BlockEdit.EditsAll config program program' next edits next')
    {numberings : List (BlockId × Numbering)}
    (hnumberings : List.Forall₂ (fun (entry : BlockId × Numbering) edit => entry.2 = edit.numbering)
      numberings edits) (hnumbered : ∀ edit ∈ edits, edit.numbering.poisoned = false ∧
      (∃ final, program.NumbersBlock config edit.statements final ∧
        edit.numbering = final.numbering) ∧
      ∀ statement ∈ edit.statements, (edit.plan config).SharesPurely program statement) :
    ∃ blocks : List SharedBlock, blocks.map SharedBlock.edit = edits ∧
      (blocks.map fun block => (block.id, block.edit.numbering)) = numberings ∧
      (∀ block ∈ blocks, block.Settled config program) ∧
      Origin.Successive next (blocks.flatMap SharedBlock.origins) next' := by
  induction hedits generalizing numberings with
  | nil next =>
    obtain rfl := List.forall₂_nil_right_iff.mp hnumberings
    exact ⟨[], rfl, rfl, by simp, rfl, rfl⟩
  | cons hfirst _ ih =>
    obtain ⟨entry, entries, hentry, hentries, rfl⟩ := List.forall₂_cons_right_iff.mp hnumberings
    rw [List.forall_mem_cons] at hnumbered
    obtain ⟨⟨hpoisoned, hnumbers, hpurely⟩, hlater⟩ := hnumbered
    obtain ⟨final, hblock, hnumbering⟩ := hnumbers
    obtain ⟨origins, hshares, hnext⟩ := hfirst.exists_origins hblock hnumbering hpoisoned hpurely
    obtain ⟨blocks, rfl, rfl, hblocks, hnext'⟩ := ih hentries hlater
    refine ⟨⟨entry.1, _, origins⟩ :: blocks, rfl, ?_,
      List.forall_mem_cons.mpr ⟨⟨hshares, final, hblock, hnumbering⟩, hblocks⟩, hnext.append hnext'⟩
    simp only [List.map_cons, ← hentry]

/-- The origins of a block are those of its shared numbers. -/
theorem Settled.perm_numbers {block : SharedBlock} (hblock : block.Settled config program) :
    (block.origins.map Origin.number).Perm block.edit.numbering.shared := by
  rw [List.perm_ext_iff_of_nodup hblock.shares.nodup (Numbering.nodup_shared _)]
  exact fun number => (hblock.shares.mem_iff number).trans Numbering.mem_shared_iff.symm

end SharedBlock

theorem SharingPlan.Descends.of_bare_eq {plan : SharingPlan}
    {memory : Temporaries} {origins : List Origin} {tree made tree' : Tree}
    (hdescends : plan.Descends memory origins tree made) (hsame : made.bare = tree'.bare) :
    plan.Descends memory origins tree tree' where
  id := (Tree.id_eq_of_bare_eq hsame).symm.trans hdescends.id
  children := Tree.children_eq_of_bare_eq hsame ▸ hdescends.children
  origin := hdescends.origin

/-! ### The statements of shared blocks -/

namespace Program

open Code

variable {program program' : Program} {config : Config} {code code' : Code} {graph : Graph}
  {row : NodeId → List NodeId}

theorem Expanded.lists_of_lists (hexpanded : program.Expanded code row program')
    (hframes : program.Frames code)
    {ref : ListRef} {statements : List NodeId} (hlists : program.Lists ref statements) :
    program'.Lists ref (statements.flatMap row) := by
  have hlist {ref : ListRef} {statements : List NodeId} (hlists : program.Lists ref statements) :
      program'.list ref = .ok (statements.flatMap row) :=
        hexpanded.lists _ (hframes.mem_lists hlists)
  induction hlists with
  | root =>
    rw [← Except.ok.inj (hlist (.root : program.Lists .root _))]
    exact .root
  | @nested outer inner statements body owner node houter howner hnode hinner hbody ih =>
    have horder := mem_order_of_mem_lists (hframes.mem_lists houter) howner
    obtain ⟨node', hnode', hresembles, -⟩ := hexpanded.trims.node owner node hnode
    obtain ⟨earlier, hrow, -⟩ :=
      (hexpanded.rows owner horder).exists_concat hnode fun _ _ _ hcall => by
        rw [hcall] at hinner
        cases hinner
    have hmem : owner ∈ statements.flatMap row :=
      List.mem_flatMap.mpr ⟨owner, howner, by simp [hrow]⟩
    exact .nested ih hmem hnode' (hresembles.lists_eq owner ▸ hinner)
      (hlist (.nested houter howner hnode hinner hbody))

/-- Numbered blocks of a program that have been shared are settled. -/
theorem SharesAs.exists_blocks {edits : List BlockEdit}
    (hshares : program.SharesAs config code graph edits row program' code')
    (houtlines : program.Outlines code) {numberings : List (BlockId × Numbering)}
    (hnumberings : Query.Answers (graph.numberBlocks program config) numberings) :
    ∃ blocks : List SharedBlock, blocks.map SharedBlock.edit = edits ∧
      (blocks.map fun block => (block.id, block.edit.numbering)) = numberings ∧
      (∀ block ∈ blocks, block.Settled config program) ∧
      Origin.Successive program.vars.size (blocks.flatMap SharedBlock.origins)
        program'.vars.size := by
  refine SharedBlock.exists_of_editsAll hshares.edited ?_ fun edit hedit => ?_
  · have hentries :=
      (answers_numberBlocks_iff houtlines.frames hshares.built.depicts).mp hnumberings
    exact (forall₂_of_common hentries hshares.numbered).imp fun _ _ ⟨_, hentry, hedit⟩ =>
      Except.ok.inj (Except.ok.inj (hentry.2.symm.trans hedit.2))
  · obtain ⟨block, -, hids, hnumbering⟩ := hshares.exists_block hedit
    have hsubset := hshares.statements_subset hedit
    rw [← hids] at hnumbering
    obtain ⟨final, hnumbers, hfinal, hpoisoned, -⟩ := exists_numbers_of_numberStatements
      (fun statement hmem => houtlines.draws.statement _ (hsubset hmem))
      (fun statement hmem => houtlines.sound _ (hsubset hmem))
      (fun statement hmem => houtlines.operands _ (hsubset hmem)) hnumbering
    refine ⟨hpoisoned, ⟨final, ⟨hnumbers,
          fun statement hmem => houtlines.draws.statement _ (hsubset hmem), fun statement hmem =>
        ⟨houtlines.sound _ (hsubset hmem), houtlines.operands _ (hsubset hmem)⟩, ?_⟩, hfinal⟩,
      fun statement hmem => BlockEdit.sharesPurely_of_numberStatements hnumbering hpoisoned
        (houtlines.draws.statement _ (hsubset hmem)) rfl⟩
    have hnodup := houtlines.nodup
    rw [Code.ids, ← hshares.statements, List.flatMap_assoc] at hnodup
    exact (List.nodup_flatMap.mp hnodup).1 edit hedit

/-- A program with this code has been shared block by block. -/
structure SharesBlocks (config : Config) (program : Program) (code : Code) (graph : Graph)
    (blocks : List SharedBlock) (row : NodeId → List NodeId) (program' : Program) (code' : Code) :
    Prop where
  outlines : program.Outlines code
  shares : program.SharesAs config code graph (blocks.map SharedBlock.edit) row program' code'
  settled : ∀ block ∈ blocks, block.Settled config program

/-- A program with this code that has been shared has been shared block by block. -/
theorem Outlines.exists_sharesBlocks {changed : Bool} (houtlines : program.Outlines code)
    (hshare : Walk.Answers (localCse config) program changed program') :
    ∃ graph blocks row code', program.SharesBlocks config code graph blocks row program' code' := by
  obtain ⟨graph, edits, row, code', hshares, -⟩ := houtlines.exists_sharesAs hshare
  obtain ⟨_, _, -, hbuild, hnumberings, -⟩ :=
    exists_of_eliminateRepeated (answers_localCse_iff.mp hshare)
  obtain rfl := Except.ok.inj (Except.ok.inj (hshares.build.symm.trans hbuild))
  obtain ⟨blocks, rfl, -, hsettled, -⟩ := hshares.exists_blocks houtlines hnumberings
  exact ⟨graph, blocks, row, code', houtlines, hshares, hsettled⟩

namespace SharesBlocks

variable {blocks : List SharedBlock} {block block' : SharedBlock} {tree tree' : Tree} {id : NodeId}
  (hshares : program.SharesBlocks config code graph blocks row program' code')

include hshares

theorem outlines' : program'.Outlines code' :=
  hshares.shares.outlines hshares.outlines

theorem statements_subset (hblock : block ∈ blocks) : block.edit.statements ⊆ code.statements :=
  hshares.shares.statements_subset (List.mem_map_of_mem hblock)

/-- The new statements are those of the edited blocks, apart from the lists that branches and loops
refer to. -/
theorem forall_statements {property : Tree → Prop}
    (hbare : ∀ tree tree', tree.bare = tree'.bare → property tree → property tree')
    (hall : ∀ block ∈ blocks, ∀ tree ∈ block.edit.trees, property tree) :
    ∀ statement ∈ code'.statements, property statement :=
  hshares.shares.forall_statements hbare (List.forall_mem_map.mpr hall)

theorem contains_of_mem (hblock : block ∈ blocks) {statement : Tree}
    (hstatement : statement ∈ block.edit.statements)
    (htree : tree ∈ statement.subtrees) : code.Contains tree :=
  ⟨statement, hshares.statements_subset hblock hstatement, htree⟩

/-- A node belongs to one block. -/
theorem eq_of_mem_ids (hblock : block ∈ blocks) (hblock' : block' ∈ blocks)
    (hid : id ∈ block.edit.statements.flatMap Tree.ids)
    (hid' : id ∈ block'.edit.statements.flatMap Tree.ids) :
    block = block' := by
  have hnodup := hshares.outlines.nodup
  rw [Code.ids, ← hshares.shares.statements, List.flatMap_map, List.flatMap_assoc] at hnodup
  exact eq_of_mem_flatMap hnodup hblock hblock' hid hid'

/-- What stands in an edited block is contained in the new code. -/
theorem exists_contained (hblock : block ∈ blocks) {statement made : Tree}
    (hstatement : statement ∈ block.edit.trees) (hmade : made ∈ statement.subtrees) :
    ∃ tree', code'.Contains tree' ∧ tree'.bare = made.bare := by
  have hmem : statement.bare ∈ code'.statements.map Tree.bare := by
    rw [hshares.shares.drawn]
    exact List.mem_map_of_mem
      (List.mem_flatMap.mpr ⟨block.edit, List.mem_map_of_mem hblock, hstatement⟩)
  obtain ⟨statement', hstatement', hsame⟩ := List.mem_map.mp hmem
  rcases Tree.eq_or_mem_of_mem_subtrees hmade with rfl | ⟨child, hchild, hmade⟩
  · exact ⟨statement', .of_statement hstatement', hsame⟩
  · rw [← Tree.children_eq_of_bare_eq hsame] at hchild
    exact ⟨made, ⟨statement', hstatement', Tree.mem_subtrees_of_mem_children hchild hmade⟩, rfl⟩

/-- What the new code contains stands in an edited block. -/
theorem exists_made (hcontains : code'.Contains tree') :
    ∃ block ∈ blocks, ∃ statement ∈ block.edit.trees,
    ∃ made ∈ statement.subtrees, made.bare = tree'.bare := by
  obtain ⟨statement', hstatement', htree'⟩ := hcontains
  have hmem := hshares.shares.drawn ▸ List.mem_map_of_mem (f := Tree.bare) hstatement'
  obtain ⟨statement, hstatement, hsame⟩ := List.mem_map.mp hmem
  obtain ⟨edit, hedit, hstatement⟩ := List.mem_flatMap.mp hstatement
  obtain ⟨block, hblock, rfl⟩ := List.mem_map.mp hedit
  rcases Tree.eq_or_mem_of_mem_subtrees htree' with rfl | ⟨child, hchild, htree'⟩
  · exact ⟨block, hblock, statement, hstatement, statement, statement.mem_subtrees_self, hsame⟩
  · rw [← Tree.children_eq_of_bare_eq hsame] at hchild
    exact ⟨block, hblock, statement, hstatement, tree',
      Tree.mem_subtrees_of_mem_children hchild htree', rfl⟩

/-- A node that is left is of the same kind. -/
theorem kind_eq (hcontains : code.Contains tree)
    (hcontains' : code'.Contains tree') (hid : tree'.id = tree.id) :
    tree'.node.kind = tree.node.kind := by
  obtain ⟨node', hnode', hresembles, -⟩ :=
    hshares.shares.expanded.trims.node _ _ (hshares.outlines.draws_of_contains hcontains).node_eq
  have hfound := (hshares.outlines'.draws_of_contains hcontains').node_eq
  rw [hid, hnode'] at hfound
  obtain rfl := Except.ok.inj hfound
  exact hresembles.kind_eq.symm

/-- What is left of the statements of a block, with the rows that stand for them. -/
theorem leftovers (hblock : block ∈ blocks) :
    List.Forall₂ (fun (statement : Tree) (replaced : Replacement) =>
    row statement.id = replaced.trees.map Tree.id ∧
      (block.edit.plan config).Leftovers block.edit.memory block.origins statement replaced)
    block.edit.statements block.edit.replaced := by
  have hrows := hshares.shares.rows block.edit (List.mem_map_of_mem hblock)
  rw [← List.forall₂_eq_eq_eq, List.forall₂_map_left_iff, List.forall₂_map_right_iff] at hrows
  exact forall₂_and hrows (hshares.settled block hblock).shares.left

/-- Each statement of the code stands in a block, and this is what is left of it. -/
theorem exists_leftovers {statement : Tree} (hstatement : statement ∈ code.statements) :
    ∃ block ∈ blocks, statement ∈ block.edit.statements ∧ ∃ replaced ∈ block.edit.replaced,
      row statement.id = replaced.trees.map Tree.id ∧
      (block.edit.plan config).Leftovers block.edit.memory block.origins statement replaced := by
  rw [← hshares.shares.statements] at hstatement
  obtain ⟨edit, hedit, hstatement⟩ := List.mem_flatMap.mp hstatement
  obtain ⟨block, hblock, rfl⟩ := List.mem_map.mp hedit
  exact ⟨block, hblock, hstatement, exists_of_forall₂ (hshares.leftovers hblock) hstatement⟩

/-- What is left of a node that is no read descends from it. -/
theorem exists_descends (hcontains : code.Contains tree) (hcontains' : code'.Contains tree')
    (hid : tree'.id = tree.id) (hkind : tree.node.kind ≠ .variable) :
    ∃ block ∈ blocks, ∃ statement ∈ block.edit.statements, tree ∈ statement.subtrees ∧
      (block.edit.plan config).Descends block.edit.memory block.origins tree tree' := by
  obtain ⟨block, hblock, made', hmade', made, hmade, hsame⟩ := hshares.exists_made hcontains'
  obtain ⟨replaced, hreplaced, hmade'⟩ := List.mem_flatMap.mp hmade'
  obtain ⟨statement, hstatement, -, hleft⟩ :=
    exists_of_forall₂ (hshares.leftovers hblock).flip hreplaced
  have hkinds := (Tree.kind_eq_of_bare_eq hsame).trans (hshares.kind_eq hcontains hcontains' hid)
  rcases hleft.leaves made (List.mem_flatMap.mpr ⟨made', hmade', hmade⟩)
    with hvariable | hassign | ⟨node, hnode, hdescends⟩
  · exact absurd (hkinds.symm.trans hvariable) hkind
  · -- an old assignment has stayed in its place
    have hstatement : tree ∈ code.statements :=
      hshares.outlines.mem_statements_of_isStatement hcontains
      (Node.isStatement_of_kind_assign (hkinds.symm.trans hassign))
    obtain ⟨block, hblock, hstatement, replaced, hreplaced, -, hleft⟩ :=
      hshares.exists_leftovers hstatement
    obtain ⟨edited, hrest, hdescends⟩ := hleft.stays (by rw [← hkinds, hassign]; decide)
    have hedited : edited ∈ block.edit.trees :=
      List.mem_flatMap.mpr ⟨replaced, hreplaced, by simp [Replacement.trees, hrest]⟩
    obtain ⟨other, hother, hbare⟩ :=
      hshares.exists_contained hblock hedited edited.mem_subtrees_self
    obtain rfl := hshares.outlines'.eq_of_id hother hcontains'
      ((Tree.id_eq_of_bare_eq hbare).trans (hdescends.id.trans hid.symm))
    exact ⟨block, hblock, tree, hstatement, tree.mem_subtrees_self, hdescends.of_bare_eq hbare.symm⟩
  · have hsameId := (Tree.id_eq_of_bare_eq hsame).symm.trans hdescends.id
    obtain rfl := hshares.outlines.eq_of_id (hshares.contains_of_mem hblock hstatement hnode)
      hcontains (hsameId.symm.trans hid)
    exact ⟨block, hblock, statement, hstatement, hnode, hdescends.of_bare_eq hsame⟩

end SharesBlocks

end Program

end ShaderIR
