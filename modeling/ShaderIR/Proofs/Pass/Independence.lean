import ShaderIR.Proofs.Outline.Slots
import ShaderIR.Proofs.Graph.Rebuilding
import ShaderIR.Proofs.Numbering.Locality

/-!
Blocks are independent. In a program that passes the check, the trees of different statements have
no node in common, so that sharing in a block reaches no other block: `Graph.Built.unedited` says of
a block that has not been edited that it has the statements that it had, and the same numbering.
Hence it does not matter whether blocks are numbered all at first or each one in its turn
(`Graph.independent_of_shareBlock`).
-/

set_option autoImplicit false

namespace ShaderIR

/-- Numbers all blocks before any of them is shared. -/
def shareAfterNumbering (config : Config) : Walk PassError Workspace Unit := do
  let workspace ← get
  let numberings ← workspace.graph.numberBlocks workspace.program config
  shareBlocks numberings config

/-- Numbers a block just before it is shared. -/
def numberAndShare (config : Config) (id : BlockId) : Walk PassError Workspace Unit := do
  let workspace ← get
  let block ← workspace.graph.block id
  let statements ← block.statements workspace.program
  let numbering ← workspace.program.numberStatements statements config
  let _ ← shareBlock id numbering config

open Program

variable {program program' : Program} {code : Code}

/-! ### Territories -/

/-- The territory of a statement is its tree. -/
def Code.Owns (code : Code) (statement id : NodeId) : Prop :=
  ∃ tree ∈ code.statements, tree.id = statement ∧ id ∈ tree.ids

/-- Whatever edits make of a program, its trees stay apart. -/
theorem Program.Outlines.divides (houtlines : program.Outlines code) :
    program.Divides code code.Owns where
  self statement hstatement := by
    obtain ⟨tree, htree, rfl⟩ := List.mem_map.mp hstatement
    exact ⟨tree, htree, rfl, tree.id_mem_ids⟩
  encloses statement _ := by
    rintro program' htrims id node ⟨tree, htree, rfl, hid⟩ hnode child hchild
    obtain ⟨below, hbelow, rfl⟩ := List.mem_map.mp hid
    have hdraws := (houtlines.draws.statement tree htree).subtree below hbelow
    obtain ⟨found, hfound, -, hkeeps⟩ := htrims.node _ _ hdraws.node_eq
    obtain rfl := Except.ok.inj (hnode.symm.trans hfound)
    obtain ⟨kept, hkept, hsame | hreads⟩ := exists_of_forall₂ hkeeps.flip hchild
    · subst hsame
      rw [hdraws.children_eq] at hkept
      obtain ⟨operand, hoperand, rfl⟩ := List.mem_map.mp hkept
      exact Or.inl ⟨tree, htree, rfl, Tree.ids_subset_of_mem hbelow
        (Tree.ids_subset_of_mem_children hoperand operand.id_mem_ids)⟩
    · exact Or.inr hreads

/-- A node belongs to one statement only. -/
theorem Program.Outlines.eq_of_owns (houtlines : program.Outlines code) {tree : Tree}
    (htree : tree ∈ code.statements) {statement id : NodeId} (hid : id ∈ tree.ids)
    (howns : code.Owns statement id) : statement = tree.id := by
  obtain ⟨other, hother, rfl, hid'⟩ := howns
  rw [eq_of_mem_flatMap houtlines.nodup hother htree hid' hid]

namespace Graph

variable {config limits : Config} {graph : Graph} {workspace workspace' : Workspace}
  {row : NodeId → List NodeId} {edited : List NodeId}

/-! ### Blocks that have not been edited -/

/-- A block that has not been edited is what it was, and has the statements and the numbering that
it had. -/
theorem Built.unedited (hbuilt : Built program limits code graph)
    (houtlines : program.Outlines code)
    (hshared : workspace.Shared program graph code code.Owns row edited) {block : BasicBlock}
    (hblock : block ∈ graph.blocks) (hapart : edited.Disjoint (block.row program)) :
    workspace.graph.block block.id = .ok block ∧
      block.statements workspace.program = .ok (block.row program) ∧
      ∀ config, workspace.program.numberStatements (block.row program) config =
        program.numberStatements (block.row program) config := by
  have hdepicts := hbuilt.depicts
  have hexpanded := hshared.shared.expanded
  have hself : ∀ statement ∈ block.row program, row statement = [statement] := fun statement hmem =>
    hshared.shared.others statement fun hedited => hapart hedited hmem
  have hblock' : block.expanded row = block :=
    (hdepicts.expanded_congr hblock hself).trans block.expanded_self
  obtain ⟨code', hframes', hexpands⟩ := hexpanded.exists_frames houtlines.frames
  refine ⟨hshared.located.block_eq_ok_iff.mpr ⟨?_, rfl⟩, ?_, fun config => ?_⟩
  · rw [hshared.blocks]
    exact hblock' ▸ List.mem_map_of_mem hblock
  · have hholds :=
      hdepicts.holds_expanded houtlines.frames hbuilt.loopless hexpanded hexpands hblock
    rw [hblock', List.flatMap_congr hself, List.flatMap_singleton'] at hholds
    exact hholds.statements hframes'
  · obtain ⟨trees, htrees, hrow⟩ := hdepicts.exists_trees hblock
    rw [← hrow]
    refine numberStatements_congr hexpanded.trims.signatures hexpanded.trims.declared
      (fun tree htree => houtlines.draws.statement tree (htrees htree)) (fun tree htree =>
        houtlines.operands tree (htrees htree)) (fun tree htree below hbelow => ?_) config
    have hdraws := (houtlines.draws.statement tree (htrees htree)).subtree below hbelow
    refine hshared.shared.spares below.id below.node hdraws.node_eq ?_
    rintro ⟨statement, hstatement, howns⟩
    obtain rfl := houtlines.eq_of_owns (htrees htree) (List.mem_map_of_mem hbelow) howns
    exact hapart hstatement (hrow ▸ List.mem_map_of_mem htree)

/-! ### Numbering in turn -/

theorem answers_shareBlocks_cons {id : BlockId}
    {numbering : Numbering} {rest : List (BlockId × Numbering)} :
    Walk.Answers (shareBlocks ((id, numbering) :: rest) config) workspace () workspace' ↔
      ∃ changed between, Walk.Answers (shareBlock id numbering config) workspace changed between ∧
        Walk.Answers (shareBlocks rest config) between () workspace' := by
  rw [shareBlocks, Walk.answers_forM_cons]
  simp only [Walk.answers_bind, Walk.answers_pure]
  constructor
  · rintro ⟨between, ⟨changed, _, hshare, -, rfl⟩, hrest⟩
    exact ⟨changed, _, hshare, hrest⟩
  · rintro ⟨changed, between, hshare, hrest⟩
    exact ⟨between, ⟨changed, between, hshare, trivial, rfl⟩, hrest⟩

section Turns

variable (hbuilt : Built program limits code graph) (houtlines : program.Outlines code)

include hbuilt houtlines

/-- In its turn, a block that has not been edited is shared with the numbering that it had at
first. -/
theorem Built.answers_numberAndShare_iff
    (hshared : workspace.Shared program graph code code.Owns row edited) {block : BasicBlock}
    (hblock : block ∈ graph.blocks) (hapart : edited.Disjoint (block.row program)) :
    Walk.Answers (numberAndShare config block.id) workspace () workspace' ↔
      ∃ numbering changed,
        Query.Answers (program.numberStatements (block.row program) config) numbering ∧
        Walk.Answers (shareBlock block.id numbering config) workspace changed workspace' := by
  obtain ⟨hfound, hstatements, hnumbering⟩ := hbuilt.unedited houtlines hshared hblock hapart
  simp only [numberAndShare, Walk.answers_bind, Walk.answers_get, Walk.answers_liftCrash,
    Walk.answers_liftQuery, Walk.answers_pure]
  constructor
  · rintro ⟨_, _, ⟨rfl, rfl⟩, found, _, ⟨hfound', rfl⟩, statements, _, ⟨hread, rfl⟩, numbering, _,
      ⟨hnumbered, rfl⟩, changed, _, hshare, -, rfl⟩
    obtain rfl := Except.ok.inj (hfound.symm.trans hfound')
    obtain rfl := Except.ok.inj (hstatements.symm.trans hread)
    exact ⟨numbering, changed, hnumbering config ▸ hnumbered, hshare⟩
  · rintro ⟨numbering, changed, hnumbered, hshare⟩
    exact ⟨_, _, ⟨rfl, rfl⟩, _, _, ⟨hfound, rfl⟩, _, _, ⟨hstatements, rfl⟩, _, _,
      ⟨(hnumbering config).symm ▸ hnumbered, rfl⟩, changed, _, hshare, trivial, rfl⟩

theorem Built.answers_forM_numberAndShare_iff {blocks : List BasicBlock}
    (hblocks : blocks ⊆ graph.blocks)
    (hnodup : blocks.Nodup) (hshared : workspace.Shared program graph code code.Owns row edited)
    (hapart : ∀ block ∈ blocks, edited.Disjoint (block.row program)) :
    Walk.Answers ((blocks.map BasicBlock.id).forM (numberAndShare config)) workspace () workspace' ↔
      ∃ numberings, List.Forall₂ (fun block entry => block.id = entry.1 ∧
        Query.Answers (program.numberStatements (block.row program) config) entry.2)
        blocks numberings ∧
        Walk.Answers (shareBlocks numberings config) workspace () workspace' := by
  induction blocks generalizing row edited workspace with
  | nil => simp [shareBlocks]
  | cons block blocks ih =>
    rw [List.cons_subset] at hblocks
    rw [List.nodup_cons] at hnodup
    rw [List.forall_mem_cons] at hapart
    rw [List.map_cons, Walk.answers_forM_cons]
    simp only [hbuilt.answers_numberAndShare_iff houtlines hshared hblocks.1 hapart.1]
    have hnext {numbering : Numbering} {changed : Bool} {between : Workspace}
        (hnumbered : Query.Answers (program.numberStatements (block.row program) config) numbering)
        (hshare : Walk.Answers (shareBlock block.id numbering config) workspace changed between) :
        Walk.Answers ((blocks.map BasicBlock.id).forM (numberAndShare config)) between
          () workspace' ↔
          ∃ numberings, List.Forall₂ (fun block entry => block.id = entry.1 ∧
            Query.Answers (program.numberStatements (block.row program) config) entry.2)
            blocks numberings ∧
            Walk.Answers (shareBlocks numberings config) between () workspace' := by
      obtain ⟨row', hshared'⟩ := (ensures_shareBlock houtlines.frames houtlines.divides
        hbuilt.depicts hblocks.1 hnumbered hshared hapart.1).of_answers hshare
      refine ih hblocks.2 hnodup.2 hshared' fun other hother => List.disjoint_append_left.mpr
        ⟨hapart.2 other hother, fun statement hmem hmem' => hnodup.1 ?_⟩
      rwa [hbuilt.depicts.eq_of_mem_row houtlines.nodup_order hblocks.1
        (hblocks.2 hother) hmem hmem']
    constructor
    · rintro ⟨between, ⟨numbering, changed, hnumbered, hshare⟩, hrest⟩
      obtain ⟨numberings, hall, hshares⟩ := (hnext hnumbered hshare).mp hrest
      exact ⟨(block.id, numbering) :: numberings, .cons ⟨rfl, hnumbered⟩ hall,
        answers_shareBlocks_cons.mpr ⟨changed, between, hshare, hshares⟩⟩
    · rintro ⟨_, hall, hshares⟩
      obtain ⟨⟨id, numbering⟩, numberings, ⟨rfl, hnumbered⟩, hlater, rfl⟩ :=
        List.forall₂_cons_left_iff.mp hall
      obtain ⟨changed, between, hshare, hshares⟩ := answers_shareBlocks_cons.mp hshares
      exact ⟨between, ⟨numbering, changed, hnumbered, hshare⟩,
        (hnext hnumbered hshare).mpr ⟨numberings, hlater, hshares⟩⟩

/-- It does not matter whether all blocks are numbered at first or each one in its turn. -/
theorem Built.answers_shareAfterNumbering_iff :
    Walk.Answers (shareAfterNumbering config) ⟨program, graph⟩ () workspace' ↔
      Walk.Answers (graph.ids.forM (numberAndShare config)) ⟨program, graph⟩ () workspace' := by
  have hdepicts := hbuilt.depicts
  rw [ids, hbuilt.answers_forM_numberAndShare_iff houtlines (List.Subset.refl _)
    (.of_map _ hdepicts.located.nodup_ids)
    (workspace_shared houtlines.frames hdepicts) fun _ _ => List.disjoint_nil_left _]
  simp only [← answers_numberBlocks_iff houtlines.frames hdepicts]
  simp only [shareAfterNumbering, Walk.answers_bind, Walk.answers_get, Walk.answers_liftQuery]
  constructor
  · rintro ⟨_, _, ⟨rfl, rfl⟩, numberings, _, ⟨hnumberings, rfl⟩, hshares⟩
    exact ⟨numberings, hnumberings, hshares⟩
  · rintro ⟨numberings, hnumberings, hshares⟩
    exact ⟨_, _, ⟨rfl, rfl⟩, numberings, _, ⟨hnumberings, rfl⟩, hshares⟩

end Turns

/-! ### Independence -/

/-- Where a block has no range, sharing in it leaves the lists of the program alone. -/
theorem Built.list_unedited (hbuilt : Built program limits code graph) {block : BasicBlock}
    (hblock : block ∈ graph.blocks)
    (hshared : program.Shared code code.Owns row (block.row program) program')
    {entry : ListRef × List NodeId} (hentry : entry ∈ code.lists .root)
    (hapart : ∀ range ∈ block.ranges, range.list ≠ entry.1) :
    program'.list entry.1 = .ok entry.2 := by
  rw [hshared.expanded.lists entry hentry, List.flatMap_congr fun statement hmem =>
    hshared.others statement fun hin => ?_, List.flatMap_singleton']
  obtain ⟨rows, hcovers, hrows⟩ := (hbuilt.depicts.holds block hblock).covers
  obtain ⟨statements, hstatements, hin⟩ := List.mem_flatten.mp (hrows ▸ hin)
  obtain ⟨range, hrange, hcover⟩ := exists_of_forall₂ hcovers.flip hstatements
  obtain ⟨before, after, hlist⟩ := hcover.list
  refine hapart range hrange
    (congrArg Prod.fst (Code.eq_of_mem_lists hbuilt.frames.nodup_order hlist hentry ?_ hmem))
  simp [hin]

/-- Another block is what it was before `block` was shared. Its statements are the same, and all
nodes in their trees, but for the bodies in which `block` has a range; and they have the same
numbering. -/
structure Untouched (program : Program) (block other : BasicBlock) (workspace : Workspace) :
    Prop where
  found : workspace.graph.block other.id = .ok other
  statements : ∃ row, other.statements program = .ok row ∧
    other.statements workspace.program = .ok row
  nodes : ∀ row, other.statements program = .ok row → ∀ statement ∈ row, ∀ id node,
    program.Below statement id → program.node id = .ok node → ∃ node',
      workspace.program.node id = .ok node' ∧
      node'.bare = node.bare ∧
      ∀ ref ∈ node.lists id, (∀ range ∈ block.ranges, range.list ≠ ref) →
        node'.bodyAt ref = node.bodyAt ref
  numbering : ∀ row config, other.statements program = .ok row →
    workspace.program.numberStatements row config = program.numberStatements row config

theorem Built.untouched (hbuilt : Built program limits code graph)
    (houtlines : program.Outlines code) {block other : BasicBlock}
    (hblock : block ∈ graph.blocks) (hother : other ∈ graph.blocks) (hne : block ≠ other)
    (hshared : workspace.Shared program graph code code.Owns row (block.row program)) :
    Untouched program block other workspace := by
  have hdepicts := hbuilt.depicts
  have hapart : (block.row program).Disjoint (other.row program) := fun statement hmem hmem' =>
    hne (hdepicts.eq_of_mem_row houtlines.nodup_order hblock hother hmem hmem')
  obtain ⟨hfound, hstatements, hnumbering⟩ := hbuilt.unedited houtlines hshared hother hapart
  have hrow := (hdepicts.holds other hother).statements houtlines.frames
  refine ⟨hfound, ⟨_, hrow, hstatements⟩, ?_, ?_⟩
  · rintro _ hread statement hstatement id node hbelow hnode
    obtain rfl := Except.ok.inj (hrow.symm.trans hread)
    have horder := hdepicts.mem_order hother hstatement
    obtain ⟨tree, htree, rfl⟩ := List.mem_map.mp horder
    have hdraws := houtlines.draws.statement tree htree
    obtain ⟨below, hmem, rfl⟩ := hdraws.exists_subtree_of_below hbelow
    obtain rfl := Except.ok.inj ((hdraws.subtree below hmem).node_eq.symm.trans hnode)
    obtain ⟨node', hnode', hbare⟩ := hshared.shared.spares _ _ hnode (by
      rintro ⟨statement, hedited, howns⟩
      obtain rfl := houtlines.eq_of_owns htree (List.mem_map_of_mem hmem) howns
      exact hapart hedited hstatement)
    refine ⟨node', hnode', hbare, fun ref href hranges => ?_⟩
    -- only the statement itself can own lists
    have howner : below.id ∈ code.order := by
      rcases Tree.eq_or_mem_of_mem_subtrees hmem with rfl | ⟨operand, hoperand, hin⟩
      · exact horder
      · rw [Node.lists_of_operand
          (houtlines.operands tree htree operand hoperand below hin).operand] at href
        cases href
    have hentry : (ref, below.node.bodyAt ref) ∈ code.lists .root :=
      List.mem_cons_of_mem _ (houtlines.frames.framed.mem_bodies howner hnode href)
    have hlist := hbuilt.list_unedited hblock hshared.shared hentry hranges
    rw [← Node.lists_eq_of_bare hbare] at href
    exact Except.ok.inj ((list_of_mem_lists hnode' href).symm.trans hlist)
  · rintro _ config hread
    obtain rfl := Except.ok.inj (hrow.symm.trans hread)
    exact hnumbering config

/-- Sharing in a block with its own numbering never fails, and leaves every other block, the
signatures and the variables alone; all nodes keep their places. Hence the program comes out the
same whether all blocks are numbered at first or each one in its turn. -/
theorem independent_of_shareBlock (hcheck : program.check = .ok ())
    (hbuild : Query.Answers (build program limits) graph)
    {block other : BasicBlock} (hblock : block ∈ graph.blocks)
    (hother : other ∈ graph.blocks) (hne : block ≠ other) {statements : List NodeId}
    (hstatements : block.statements program = .ok statements) {numbering : Numbering}
    (hnumbering : Query.Answers (program.numberStatements statements config) numbering)
    {outcome : Except PassError Bool} (hshare : (shareBlock block.id numbering config).runFrom
      ⟨program, graph⟩ = .ok (outcome, workspace)) :
    (∃ changed, outcome = .ok changed) ∧ Untouched program block other workspace ∧
      program.Trims workspace.program ∧ ∀ workspace',
        Walk.Answers (shareAfterNumbering config) ⟨program, graph⟩ () workspace' ↔
          Walk.Answers (graph.ids.forM (numberAndShare config)) ⟨program, graph⟩ () workspace' := by
  obtain ⟨code, houtlines, hbuilt⟩ := exists_built_of_build hcheck hbuild
  have hrow := (hbuilt.depicts.holds block hblock).statements houtlines.frames
  obtain rfl := Except.ok.inj (hrow.symm.trans hstatements)
  have hensures := ensures_shareBlock houtlines.frames houtlines.divides hbuilt.depicts hblock
    hnumbering (workspace_shared houtlines.frames hbuilt.depicts) (List.disjoint_nil_left _)
  cases outcome with
  | error failure => exact (hensures.of_fails hshare).elim
  | ok changed =>
    obtain ⟨row, hshared⟩ := hensures.of_answers hshare
    exact ⟨⟨changed, rfl⟩, hbuilt.untouched houtlines hblock hother hne hshared,
      hshared.shared.expanded.trims, fun _ => hbuilt.answers_shareAfterNumbering_iff houtlines⟩

/-- A call that is made twice in the body of a conditional, with an assignment behind it. -/
def callsInBody : Program where
  nodes := #[.variable ⟨2⟩, .branch ⟨0⟩ [⟨3⟩, ⟨5⟩] [], .variable ⟨0⟩, .call ⟨0⟩ [] (some ⟨2⟩),
    .variable ⟨1⟩, .call ⟨0⟩ [] (some ⟨4⟩), .variable ⟨0⟩, .variable ⟨1⟩, .assign ⟨6⟩ ⟨7⟩ 0]
  vars := #[⟨"x", .vector .float 1, .auto⟩, ⟨"y", .vector .float 1, .auto⟩, ⟨"c", .bool, .input⟩]
  signatures := #[⟨"f", [], .vector .float 1⟩]
  body := [⟨1⟩, ⟨8⟩]

/-- The block of the body of `callsInBody`. -/
def bodyBlock : BasicBlock where
  id := ⟨1⟩
  ranges := [⟨.thenBody ⟨1⟩, ⟨3⟩, ⟨5⟩⟩]
  predecessors := [⟨0⟩]
  successors := [⟨3⟩]

/-- The block of the conditional of `callsInBody`. -/
def conditionBlock : BasicBlock where
  id := ⟨0⟩
  ranges := [⟨.root, ⟨1⟩, ⟨1⟩⟩]
  successors := [⟨1⟩, ⟨3⟩]

theorem independent_of_shareBlock_callsInBody :
    ∃ (graph : Graph) (workspace : Workspace),
    Query.Answers (build callsInBody { eligible := .all }) graph ∧
    workspace.program.list (.thenBody ⟨1⟩) = .ok [⟨3⟩, ⟨11⟩, ⟨13⟩] ∧
    Untouched callsInBody bodyBlock conditionBlock workspace ∧ callsInBody.Trims workspace.program ∧
    ∀ workspace',
      Walk.Answers (shareAfterNumbering { eligible := .all }) ⟨callsInBody, graph⟩ () workspace' ↔
      Walk.Answers (graph.ids.forM (numberAndShare { eligible := .all })) ⟨callsInBody, graph⟩
        () workspace' := by
  let graph : Graph := ⟨#[some conditionBlock, some bodyBlock, none,
    some { id := ⟨3⟩, ranges := [⟨.root, ⟨8⟩, ⟨8⟩⟩], predecessors := [⟨0⟩, ⟨1⟩] }], false⟩
  let numbering : Numbering := {
    values := [(⟨5⟩, [⟨0⟩]), (⟨3⟩, [⟨0⟩])]
    occurrences := [(⟨3⟩, ⟨0⟩), (⟨5⟩, ⟨0⟩)]
    allocated := 1 }
  have hcheck : callsInBody.check = .ok () := rfl
  have hbuild : Query.Answers (build callsInBody { eligible := .all }) graph := rfl
  have hnumbering :
      (callsInBody.numberStatements [⟨3⟩, ⟨5⟩] { eligible := .all }).run = .ok (.ok numbering) := by
    decide +kernel
  have hreached : ((shareBlock ⟨1⟩ numbering { eligible := .all }).runFrom ⟨callsInBody, graph⟩).map
      (fun reached => reached.2.program.list (.thenBody ⟨1⟩)) = .ok (.ok [⟨3⟩, ⟨11⟩, ⟨13⟩]) := by
          decide +kernel
  obtain ⟨⟨outcome, workspace⟩, hshare, hlist⟩ := map_eq_ok_iff.mp hreached
  obtain ⟨-, huntouched, htrims, hturns⟩ := independent_of_shareBlock hcheck hbuild
    (by decide : bodyBlock ∈ graph.blocks) (by decide : conditionBlock ∈ graph.blocks) (by decide)
      rfl hnumbering hshare
  exact ⟨graph, workspace, hbuild, hlist, huntouched, htrims, hturns⟩

end Graph

end ShaderIR
