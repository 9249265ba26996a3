import ShaderIR.Proofs.Graph.Paths
import ShaderIR.Proofs.Graph.Rebuilding
import ShaderIR.Proofs.Outline.Passing
import ShaderIR.Proofs.Pass.Scoping
import ShaderIR.Proofs.Pass.SharedOnce

/-!
New variables are computed once, before they are needed. `Program.DefinedBy` says of a variable that
one statement stores into it, and that on every trail this statement is executed before the others
that have the variable in an operand. Within a block this is a matter of the order of its statements
(`Program.Scoped.exists_definition`), and a block is executed from the top, however many lists it
spans (`Code.mem_of_isChain_chained`). The main statement is `Program.defined_of_localCse`.
-/

set_option autoImplicit false

namespace ShaderIR

theorem Tree.reads_eq_of_bare_eq {tree tree' : Tree} (hsame : tree.bare = tree'.bare) :
    tree.reads = tree'.reads := by
  rcases eq_or_of_bare_eq hsame with rfl | ⟨_, _, _, _, _, _, _, rfl, rfl⟩ | ⟨_, _, _, _, rfl, rfl⟩
  · rfl
  · simp [reads, subtrees_mk]
  · simp [reads, subtrees_mk]

namespace Program

variable {program program' : Program} {code : Code} {statement id : NodeId} {written : VarId}

/-! ### What statements write to -/

/-- The operands that a statement writes to. -/
def targets (program : Program) : Node → List NodeId
  | .assign target _ _ => [target]
  | .call callee arguments result =>
    (match program.signature callee with
      | .ok signature =>
        ((signature.params.zip arguments).filter fun passed => passed.1.mode.writes).map Prod.snd
      | .error _ => []) ++ result.toList
  | _ => []

/-- The statement writes to the variable or to a part of it. -/
def Writes (program : Program) (statement : NodeId) (written : VarId) : Prop :=
  ∃ node, program.node statement = .ok node ∧ ∃ target ∈ program.targets node,
    program.rootVariable target = .ok (some written)

/-- The variable occurs in an operand of the statement. -/
def Mentions (program : Program) (statement : NodeId) (mentioned : VarId) : Prop :=
  ∃ mention, program.Below statement mention ∧ program.node mention = .ok (.variable mentioned)

/-- The statement stores what it computes into the whole of a place. -/
def StoresWhole (program : Program) (statement place : NodeId) : Prop :=
  (∃ value, program.node statement = .ok (.assign place value 0)) ∨
    ∃ callee arguments, program.node statement = .ok (.call callee arguments (some place))

theorem StoresWhole.exists_target {place : NodeId} (hstores : program.StoresWhole statement place) :
    ∃ node, program.node statement = .ok node ∧ place ∈ program.targets node := by
  rcases hstores with ⟨value, hnode⟩ | ⟨callee, arguments, hnode⟩
  · exact ⟨_, hnode, by simp [targets]⟩
  · exact ⟨_, hnode, by simp [targets]⟩

theorem statement_of_targets {node : Node} {target : NodeId}
    (htarget : target ∈ program.targets node) :
    node.isStatement = true ∧ (node.kind = .assign ∨ node.kind = .call) ∧
    target ∈ node.children := by
  cases node with
  | assign => simp_all [targets, Node.isStatement, Node.kind, Node.children]
  | call callee arguments result =>
    refine ⟨rfl, Or.inr rfl, ?_⟩
    rcases List.mem_append.mp htarget with hargument | hresult
    · refine List.mem_append_left _ ?_
      split at hargument
      · obtain ⟨passed, hpassed, rfl⟩ := List.mem_map.mp hargument
        exact (List.of_mem_zip (List.mem_filter.mp hpassed).1).2
      · cases hargument
    · exact List.mem_append_right _ hresult
  | _ => cases htarget

theorem Draws.rootWithin_eq {tree : Tree} {steps : Nat}
    (hdraws : program.Draws tree) (hplace : tree.isPlace = true)
    (hheight : tree.height ≤ steps) : program.rootWithin steps tree.id = .ok tree.root? := by
  induction steps generalizing tree with
  | zero => exact absurd tree.height_pos (by omega)
  | succ steps ih =>
    obtain ⟨id, node, children⟩ := tree
    have hids := hdraws.children_eq
    rw [Tree.isPlace, Tree.fold_mk, ← Tree.isPlace] at hplace
    rw [rootWithin]
    refine bind_eq_ok_iff.mpr ⟨node, hdraws.node_eq, ?_⟩
    cases node with
    | «variable» root =>
      rw [Tree.root?, Tree.fold_mk]
      rfl
    | index base place =>
      obtain ⟨base, place, rfl, rfl, rfl⟩ := Tree.exists_pair_of_ids hids
      rw [Tree.root?_index]
      exact ih (hdraws.child List.mem_cons_self) hplace
        (Tree.height_le_of_mem_children List.mem_cons_self hheight)
    | field record number =>
      obtain ⟨record, rfl, rfl⟩ := Tree.exists_single_of_ids hids
      rw [Tree.root?_field]
      exact ih (hdraws.child List.mem_cons_self) hplace
        (Tree.height_le_of_mem_children List.mem_cons_self hheight)
    | _ => cases hplace

theorem rootVariable_variable (hnode : program.node id = .ok (.variable written)) :
    program.rootVariable id = .ok (some written) := by
  rw [rootVariable, chainBound, rootWithin]
  exact bind_eq_ok_iff.mpr ⟨_, hnode, rfl⟩

theorem Sound.exists_writtenBy {tree : Tree} (hsound : program.Sound tree) {target : NodeId}
    (htarget : target ∈ program.targets tree.node) :
    ∃ place ∈ program.writtenBy tree, place.id = target ∧ place.isPlace = true := by
  cases hsound with
  | assign id target value mask hplace =>
    obtain rfl := List.mem_singleton.mp htarget
    exact ⟨target, by simp [writtenBy, parts], rfl, hplace⟩
  | call id callee arguments result signature hsignature hlength hwritten hresult =>
    simp only [targets, hsignature, List.mem_append, List.mem_map, List.mem_filter,
      Option.mem_toList] at htarget
    have hmem {operand : Tree} (hitem : (Role.place, operand) ∈
          signature.roles.zip arguments ++ result.toList.map (Role.place, ·)) :
        operand ∈ program.writtenBy ⟨id, .call callee (arguments.map Tree.id) (result.map Tree.id),
          arguments ++ result.toList⟩ := by
      rw [writtenBy, parts_call hsignature hlength]
      exact List.mem_map.mpr ⟨_, List.mem_filter.mpr ⟨hitem, by simp⟩, rfl⟩
    rcases htarget with ⟨passed, ⟨hpassed, hwrites⟩, rfl⟩ | hplace
    · rw [List.zip_map_right] at hpassed
      obtain ⟨⟨param, argument⟩, hitem, rfl⟩ := List.mem_map.mp hpassed
      refine ⟨argument, hmem (List.mem_append_left _ ?_), rfl, hwritten _ _ hitem hwrites⟩
      rw [Signature.roles, List.zip_map_left]
      exact List.mem_map.mpr
        ⟨(param, argument), hitem, by simpa using ParamMode.writes_iff.mp hwrites⟩
    · obtain ⟨place, hresulting, rfl⟩ := Option.mem_map.mp hplace
      exact ⟨place, hmem (List.mem_append_right _
          (List.mem_map_of_mem (Option.mem_toList.mpr hresulting))), rfl, hresult _ hresulting⟩
  | _ => cases htarget

/-- A statement that writes to a new variable introduces it. -/
theorem Outlines.mem_introduced (houtlines : program.Outlines code) {tree : Tree}
    (htree : tree ∈ code.statements) {bound : Nat} (hwrites : program.Writes tree.id written)
    (hbound : bound ≤ written.index) : written ∈ program.introduced bound tree := by
  obtain ⟨node, hnode, target, htarget, hroot⟩ := hwrites
  obtain rfl := Except.ok.inj ((houtlines.draws.statement _ htree).node_eq.symm.trans hnode)
  obtain ⟨place, hplace, rfl, hisPlace⟩ := (houtlines.sound _ htree).exists_writtenBy htarget
  have hcontains : code.Contains place := (Code.Contains.of_statement htree).child
      (mem_children_of_writtenBy (houtlines.sound _ htree) hplace)
  rw [rootVariable, chainBound, (houtlines.draws_of_contains hcontains).rootWithin_eq hisPlace
    (((houtlines.draws_of_contains hcontains).height_le
        (houtlines.nodup_of_contains hcontains)).trans (Nat.le_succ _))] at hroot
  refine List.mem_filter.mpr
    ⟨List.mem_filterMap.mpr ⟨place, hplace, Except.ok.inj hroot⟩, by simpa using hbound⟩

theorem Outlines.mem_reads (houtlines : program.Outlines code) {tree : Tree}
    (htree : tree ∈ code.statements) (hmentions : program.Mentions tree.id written) :
    written ∈ tree.reads := by
  obtain ⟨mention, hbelow, hnode⟩ := hmentions
  have hdraws := houtlines.draws.statement _ htree
  obtain ⟨below, hmem, rfl⟩ := hdraws.exists_subtree_of_below hbelow
  exact Tree.mem_reads_iff.mpr ⟨below, hmem,
    Except.ok.inj ((hdraws.subtree _ hmem).node_eq.symm.trans hnode)⟩

theorem Outlines.lt_of_mem_reads (houtlines : program.Outlines code)
    {tree : Tree} (htree : tree ∈ code.statements)
    {read : VarId} (hread : read ∈ tree.reads) : read.index < program.vars.size := by
  obtain ⟨below, hbelow, hnode⟩ := Tree.mem_reads_iff.mp hread
  rcases Tree.eq_or_mem_of_mem_subtrees hbelow with rfl | ⟨operand, hoperand, hbelow⟩
  · cases houtlines.sound _ htree <;> cases hnode
  · exact (houtlines.operands _ htree operand hoperand below hbelow).variable_lt read hnode

/-! ### Definitions in a row -/

namespace Scoped

variable {bound : Nat} {known known' : List VarId} {statements : List Tree} {temporary : VarId}

/-- What occurs in a row of statements is known in the end. -/
theorem within (hscoped : program.Scoped bound known statements known') :
    ∀ statement ∈ statements, statement.Within bound known' := by
  induction hscoped with
  | nil => simp
  | @define known known' statement operands rest place temporary hchildren hintroduced hoperands
      hrest ih =>
    refine List.forall_mem_cons.mpr ⟨fun read hread hbound => hrest.subset ?_, ih⟩
    obtain ⟨id, node, children⟩ := statement
    obtain rfl : children = operands ++ [⟨place, .variable temporary, []⟩] := hchildren
    rcases Tree.mem_reads_mk.mp hread with rfl | ⟨child, hchild, hread⟩
    · simp [introduced, writtenBy, parts, List.filter_map, Function.comp_def] at hintroduced
    · rcases List.mem_append.mp hchild with hoperand | hplace
      · exact List.mem_cons_of_mem _ (hoperands child hoperand read hread hbound)
      · obtain rfl := List.mem_singleton.mp hplace
        obtain rfl : temporary = read := by simpa [Tree.mem_reads_mk] using hread
        exact List.mem_cons_self
  | use hintroduced hwithin hrest ih =>
    exact List.forall_mem_cons.mpr ⟨hwithin.mono hrest.subset, ih⟩

/-- What becomes known in a row without doubles is written by one statement of it, and does not
occur before. -/
theorem exists_definition (hscoped : program.Scoped bound known statements known')
    (hnodup : (statements.flatMap (program.introduced bound)).Nodup)
    (hbound : bound ≤ temporary.index) (hknown : temporary ∈ known') (hnew : temporary ∉ known) :
    ∃ (before : List Tree) (statement : Tree) (later operands : List Tree) (place : NodeId),
      statements = before ++ statement :: later ∧ program.introduced bound statement = [temporary] ∧
      (∀ earlier ∈ before, temporary ∉ earlier.reads) ∧
      statement.children = operands ++ [⟨place, .variable temporary, []⟩] ∧
      ∀ operand ∈ operands, temporary ∉ operand.reads := by
  have hmem : temporary ∈ statements.flatMap (program.introduced bound) := by
    rw [hscoped.known_eq] at hknown
    simpa [hnew] using hknown
  obtain ⟨statement, hstatement, htemporary⟩ := List.mem_flatMap.mp hmem
  obtain ⟨before, later, rfl⟩ := List.append_of_mem hstatement
  obtain ⟨known₁, hbefore, hrest⟩ := hscoped.split
  have hfresh : temporary ∉ known₁ := by
    rw [List.flatMap_append, List.flatMap_cons] at hnodup
    rw [hbefore.known_eq, List.mem_append, List.mem_reverse, not_or]
    exact ⟨fun hearlier => List.disjoint_of_nodup_append hnodup hearlier
      (List.mem_append_left _ htemporary), hnew⟩
  cases hrest with
  | @define _ _ _ operands _ place other hchildren hintroduced hoperands hlater =>
    obtain rfl : temporary = other := by simpa [hintroduced] using htemporary
    exact ⟨before, statement, later, operands, place, rfl, hintroduced,
      fun earlier hearlier hread => hfresh (hbefore.within earlier hearlier _ hread hbound),
      hchildren, fun operand hoperand hread => hfresh (hoperands operand hoperand _ hread hbound)⟩
  | use hintroduced => simp [hintroduced] at htemporary

end Scoped

end Program

/-! ### Blocks are executed from the top -/

namespace Code

variable {code : Code} {first last : NodeId} {inner front back : List NodeId}

/-- Where control goes through a row of statements only from top to bottom, what has come to one of
them has come by those before it. -/
theorem mem_of_isChain_chained (hrow : (first :: inner ++ [last]).IsChain (code.Chained none))
    (hids : (front ++ last :: back).IsChain fun source target => code.Leads source target none)
    (hhead : (front ++ last :: back).head? = code.order.head?) (hnodup : code.order.Nodup) :
    first ∈ front := by
  have hprevious {last previous : NodeId} {front back : List NodeId}
      (hchained : code.Chained none previous last)
      (hids : (front ++ last :: back).IsChain fun source target => code.Leads source target none)
      (hhead : (front ++ last :: back).head? = code.order.head?) :
        ∃ earlier, front = earlier ++ [previous] := by
    rcases List.eq_nil_or_concat front with rfl | ⟨earlier, other, rfl⟩
    · -- control never goes back to the first statement
      have htail := hchained.leads.target_mem_tail
      rw [Option.toList_none, List.append_nil] at htail
      obtain ⟨rest, horder⟩ := List.head?_eq_some_iff.mp hhead.symm
      rw [horder] at htail hnodup
      exact absurd htail (List.nodup_cons.mp hnodup).1
    · rw [List.concat_eq_append, List.append_assoc, List.singleton_append,
        List.isChain_append_cons_cons] at hids
      exact ⟨earlier, by rw [List.concat_eq_append, hchained.sole other hids.2.1]⟩
  induction inner using List.reverseRecOn generalizing last front back with
  | nil =>
    obtain ⟨earlier, rfl⟩ := hprevious (List.isChain_pair.mp hrow) hids hhead
    simp
  | append_singleton inner previous ih =>
    rw [← List.cons_append, List.append_assoc, List.singleton_append,
      List.isChain_append_cons_cons] at hrow
    obtain ⟨earlier, rfl⟩ := hprevious hrow.2.1 hids hhead
    rw [List.append_assoc] at hids hhead
    exact List.mem_append_left _ (ih hrow.1 hids hhead)

end Code

/-! ### Shared blocks -/

section Blocks

variable {program program' : Program} {config : Config} {edit : BlockEdit} {statements : List Tree}
  {known : List VarId} {bound next next' : Nat}

theorem Program.scoped_of_old (hsound : ∀ statement ∈ statements, program.Sound statement)
    (hold : ∀ statement ∈ statements, ∀ read ∈ statement.reads, read.index < bound) :
    program.Scoped bound known statements known := by
  induction statements with
  | nil => exact .nil _
  | cons statement statements ih =>
    rw [List.forall_mem_cons] at hsound hold
    exact .use (hsound.1.introduced_eq_nil fun operand hoperand read hread =>
      hold.1 read (Tree.reads_subset_of_mem_children hoperand hread)) (Tree.within_of_lt hold.1 _)
        (ih hsound.2 hold.2)

/-- What has come up in a block writes the temporaries of the block before it reads them, and no
others. -/
theorem BlockEdit.Edits.scoped (hedits : edit.Edits config program program' next next')
    (hbound : bound ≤ next) (hsound : ∀ statement ∈ edit.statements, program.Sound statement)
    (hlinked : ∀ statement ∈ edit.statements, statement.Linked)
    (hpurely : edit.numbering.poisoned = false → ∀ statement ∈ edit.statements,
      (edit.plan config).SharesPurely program statement)
    (hold : ∀ statement ∈ edit.statements, ∀ read ∈ statement.reads, read.index < bound) :
    program.Scoped bound [] edit.trees (edit.memory.map Prod.snd) := by
  cases hedits with
  | skipped hplan hreplaced hmemory =>
    have htrees : edit.trees = edit.statements := by
      simp [trees, hreplaced, List.flatMap_map, Replacement.trees, Replacement.unchanged]
    rw [htrees, hmemory]
    exact Program.scoped_of_old hsound hold
  | shared hpoisoned hedited => exact hedited.scoped hbound hsound hlinked (hpurely hpoisoned) hold

end Blocks

namespace Program

variable {program program' : Program}

/-- The statement computes the variable in the place, and no other one writes to it. On every trail
it is executed before the other statements that have the variable in an operand. -/
structure DefinedBy (program : Program) (temporary : VarId) (writer place : NodeId) : Prop where
  reachable : program.Reachable writer
  stores : program.StoresWhole writer place
  stored : program.node place = .ok (.variable temporary)
  writes_iff : ∀ statement, program.Reachable statement →
    (program.Writes statement temporary ↔ statement = writer)
  /-- The statement does not need the variable itself. -/
  only : ∀ mention, program.Below writer mention →
    program.node mention = .ok (.variable temporary) → mention = place
  earlier : ∀ outcomes events front event back,
    program.trail outcomes = .ok events → events = front ++ event :: back →
    program.Mentions event.statement temporary → event.statement ≠ writer →
      writer ∈ front.map Event.statement

namespace SharesBlocks

open Code

variable {config : Config} {code code' : Code} {graph : Graph}
  {row : NodeId → List NodeId} {blocks : List SharedBlock} {block other : SharedBlock}
  {origin : Origin} {temporary : VarId} {id : NodeId} {tree tree' : Tree}
  (hshares : program.SharesBlocks config code graph blocks row program' code')

include hshares

theorem scoped_trees (hblock : block ∈ blocks) :
    program'.Scoped program.vars.size [] block.edit.trees
      (block.origins.map Origin.temporary).reverse := by
  have hmem : block.edit ∈ blocks.map SharedBlock.edit := List.mem_map_of_mem hblock
  have hsubset := hshares.statements_subset hblock
  have hsignatures := hshares.shares.signatures
  have houtlines := hshares.outlines
  obtain ⟨next, next', hedits, hbound, -⟩ := hshares.shares.edited.exists_edits _ hmem
  obtain ⟨place, -, -, hnumbering⟩ := hshares.shares.exists_block hmem
  have hscoped := (hedits.of_signatures hsignatures).scoped hbound
    (fun statement hstatement => (houtlines.sound _ (hsubset hstatement)).congr hsignatures)
    (fun statement hstatement => (houtlines.draws.statement _ (hsubset hstatement)).linked)
    (fun hpoisoned statement hstatement => BlockEdit.sharesPurely_of_numberStatements hnumbering
      hpoisoned (houtlines.draws.statement _ (hsubset hstatement)) hsignatures)
    (fun statement hstatement read hread => ?_)
  · rwa [(hshares.settled block hblock).shares.held, List.map_reverse, List.map_map] at hscoped
  · exact houtlines.lt_of_mem_reads (hsubset hstatement) hread

/-- The temporaries of the blocks are introduced in order. -/
theorem flatMap_introduced (hblock : block ∈ blocks) :
    block.edit.trees.flatMap (program'.introduced program.vars.size) =
      block.origins.map Origin.temporary := by
  have hknown := (hshares.scoped_trees hblock).known_eq
  rw [List.append_nil] at hknown
  exact (List.reverse_injective hknown).symm

section Successive

variable (hnext : Origin.Successive program.vars.size (blocks.flatMap SharedBlock.origins)
    program'.vars.size)

include hnext

omit hshares in
theorem le_temporary (hblock : block ∈ blocks) (horigin : origin ∈ block.origins) :
    program.vars.size ≤ origin.temporary.index := by
  have hmem : origin.temporary.index ∈ (blocks.flatMap SharedBlock.origins).map
      fun origin => origin.temporary.index :=
    List.mem_map_of_mem (List.mem_flatMap.mpr ⟨block, hblock, horigin⟩)
  exact (List.mem_range'_1.mp (hnext.temporaries ▸ hmem)).1

omit hshares in
theorem nodup_temporaries :
    (blocks.flatMap fun block => block.origins.map Origin.temporary).Nodup := by
  rw [← List.map_flatMap]
  refine List.Nodup.of_map VarId.index ?_
  rw [List.map_map]
  exact hnext.temporaries ▸ List.nodup_range'

/-- No variable is introduced by two statements. -/
theorem eq_of_introduced (hblock : block ∈ blocks) (hother : other ∈ blocks)
    (htree : tree ∈ block.edit.trees) (htree' : tree' ∈ other.edit.trees)
    (hmem : temporary ∈ program'.introduced program.vars.size tree)
    (hmem' : temporary ∈ program'.introduced program.vars.size tree') : tree = tree' := by
  have hnodup : ((blocks.flatMap fun block => block.edit.trees).flatMap
      (program'.introduced program.vars.size)).Nodup := by
    rw [List.flatMap_assoc, List.flatMap_congr fun block hblock =>
      hshares.flatMap_introduced hblock]
    exact nodup_temporaries hnext
  exact eq_of_mem_flatMap hnodup (List.mem_flatMap.mpr ⟨block, hblock, htree⟩)
    (List.mem_flatMap.mpr ⟨other, hother, htree'⟩) hmem hmem'

/-- No temporary occurs outside its block. -/
theorem eq_block_of_mem_reads (hblock : block ∈ blocks)
    (horigin : origin ∈ block.origins) (hother : other ∈ blocks)
    (htree : tree ∈ other.edit.trees) (hread : origin.temporary ∈ tree.reads) : other = block := by
  have hknown :=
    (hshares.scoped_trees hother).within tree htree _ hread (le_temporary hnext hblock horigin)
  exact eq_of_mem_flatMap (nodup_temporaries hnext) hother hblock (List.mem_reverse.mp hknown)
    (List.mem_map_of_mem horigin)

end Successive

theorem exists_tree (htree : tree ∈ code'.statements) :
    ∃ block ∈ blocks, ∃ made ∈ block.edit.trees, made.bare = tree.bare := by
  have hmem := hshares.shares.drawn ▸ List.mem_map_of_mem htree
  obtain ⟨made, hmade, hsame⟩ := List.mem_map.mp hmem
  rw [List.flatMap_map] at hmade
  obtain ⟨block, hblock, hmade⟩ := List.mem_flatMap.mp hmade
  exact ⟨block, hblock, made, hmade, hsame⟩

/-- A statement that writes to a new variable has come up in a block, and introduces the variable
there. -/
theorem exists_block_of_writes (hreachable : program'.Reachable id)
    (hwrites : program'.Writes id temporary) (hbound : program.vars.size ≤ temporary.index) :
    ∃ block ∈ blocks, ∃ tree ∈ block.edit.trees, tree.id = id ∧
      tree ∈ code'.statements ∧ temporary ∈ program'.introduced program.vars.size tree := by
  have houtlines := hshares.outlines'
  obtain ⟨tree, hcontains, rfl⟩ := houtlines.exists_of_reachable hreachable
  have hnode := (houtlines.draws_of_contains hcontains).node_eq
  obtain ⟨hstatement, hkind⟩ : tree.node.isStatement = true ∧
    (tree.node.kind = .assign ∨ tree.node.kind = .call) := by
    obtain ⟨node, hnode', target, htarget, -⟩ := hwrites
    obtain rfl := Except.ok.inj (hnode.symm.trans hnode')
    exact ⟨(statement_of_targets htarget).1, (statement_of_targets htarget).2.1⟩
  have htree := houtlines.mem_statements_of_isStatement hcontains hstatement
  obtain ⟨block, hblock, made, hmade, hsame⟩ := hshares.exists_tree htree
  obtain rfl := Tree.eq_of_bare_eq hsame hkind
  exact ⟨block, hblock, made, hmade, rfl, htree, houtlines.mem_introduced htree hwrites hbound⟩

/-- Control goes through what has come up in a block from top to bottom only. -/
theorem isChain_trees (hblock : block ∈ blocks) :
    (block.edit.trees.map Tree.id).IsChain (code'.Chained none) := by
  have hmem : block.edit ∈ blocks.map SharedBlock.edit := List.mem_map_of_mem hblock
  have houtlines := hshares.outlines
  have hbuilt := hshares.shares.built
  obtain ⟨place, hplace, hids, -⟩ := hshares.shares.exists_block hmem
  have hrow : block.edit.trees.map Tree.id = (place.row program).flatMap row := by
    rw [← hids, List.flatMap_map, List.flatMap_def, hshares.shares.rows _ hmem, BlockEdit.trees,
      List.map_flatMap, List.flatMap_def]
  rw [hrow]
  exact (hbuilt.depicts.holds_expanded houtlines.frames hbuilt.loopless hshares.shares.expanded
    hshares.shares.expands hplace).chained

theorem exists_writer (hblock : block ∈ blocks) (horigin : origin ∈ block.origins) :
    ∃ writer place, program'.Reachable writer ∧ program'.StoresWhole writer place ∧
      program'.node place = .ok (.variable origin.temporary) := by
  obtain ⟨hreachable, hcomputes⟩ := hshares.computes hblock horigin
  rcases hcomputes with ⟨statement, place, hstatement, hnode, hplace⟩ | ⟨callee, arguments, result,
    before, copy, hnode, hplace, -⟩
  · exact ⟨statement, place, hstatement, Or.inl ⟨_, hnode⟩, hplace⟩
  · exact ⟨origin.id, result, hreachable, Or.inr ⟨_, _, hnode⟩, hplace⟩

/-- What control has come to below a statement of a block has come by that statement. -/
theorem mem_of_trail (hblock : block ∈ blocks) {before later : List Tree}
    (htrees : block.edit.trees = before ++ tree :: later)
    (hlater : tree' ∈ later) {outcomes : NodeId → Bool} {front back : List Event} {event : Event}
    (htrail : program'.trail outcomes = .ok (front ++ event :: back))
    (hevent : event.statement = tree'.id) :
    tree.id ∈ front.map Event.statement := by
  have houtlines := hshares.outlines'
  have hloopless := hshares.shares.expands.loopless hshares.shares.built.loopless
  obtain ⟨-, hhead, hchain⟩ := houtlines.leads_of_trail hloopless htrail
  obtain ⟨inner, rest, rfl⟩ := List.append_of_mem hlater
  have hrow := hshares.isChain_trees hblock
  rw [htrees, show before ++ tree :: (inner ++ tree' :: rest) = before ++
    ((tree :: inner ++ [tree']) ++ rest) by simp, List.map_append, List.map_append] at hrow
  have hpart := hrow.right_of_append.left_of_append
  rw [List.map_append, List.map_cons, List.map_singleton, ← hevent] at hpart
  rw [List.map_append, List.map_cons] at hchain hhead
  exact Code.mem_of_isChain_chained hpart hchain hhead houtlines.nodup_order

/-- The temporary of an origin is defined by the statement that computes the origin. -/
theorem exists_definedBy (hnext : Origin.Successive program.vars.size
      (blocks.flatMap SharedBlock.origins) program'.vars.size)
    (hblock : block ∈ blocks) (horigin : origin ∈ block.origins) :
    ∃ writer place, program'.DefinedBy origin.temporary writer place := by
  have houtlines := hshares.outlines'
  have hbound := le_temporary hnext hblock horigin
  obtain ⟨writer, place, hreachable, hstores, hstored⟩ := hshares.exists_writer hblock horigin
  obtain ⟨node, hnode, htarget⟩ := hstores.exists_target
  have hwrites : program'.Writes writer origin.temporary :=
    ⟨node, hnode, place, htarget, rootVariable_variable hstored⟩
  obtain ⟨home, hhome, tree, htree, rfl, hstatement, hmem⟩ :=
    hshares.exists_block_of_writes hreachable hwrites hbound
  have hdraws := houtlines.draws.statement _ hstatement
  obtain rfl := Except.ok.inj (hdraws.node_eq.symm.trans hnode)
  have hnodup : (block.edit.trees.flatMap (program'.introduced program.vars.size)).Nodup := by
    rw [hshares.flatMap_introduced hblock]
    exact (List.nodup_flatMap.mp (nodup_temporaries hnext)).1 block hblock
  obtain ⟨before, found, later, operands, leaf, htrees, hintroduced, hbefore, hchildren,
      hoperands⟩ :=
    (hshares.scoped_trees hblock).exists_definition hnodup hbound
      (List.mem_reverse.mpr (List.mem_map_of_mem horigin)) List.not_mem_nil
  obtain rfl : tree = found := hshares.eq_of_introduced hnext hhome hblock htree (by simp [htrees])
    hmem (by simp [hintroduced])
  have honly : ∀ mention, program'.Below tree.id mention →
      program'.node mention = .ok (.variable origin.temporary) →
      mention = leaf := by
    intro mention hmentioned hmention
    obtain ⟨below, hmem, rfl⟩ := hdraws.exists_subtree_of_below hmentioned
    have hvariable := Except.ok.inj ((hdraws.subtree _ hmem).node_eq.symm.trans hmention)
    rcases Tree.eq_or_mem_of_mem_subtrees hmem with rfl | ⟨operand, hoperand, hbelow⟩
    · have hkind := (statement_of_targets htarget).1
      rw [hvariable] at hkind
      cases hkind
    · rcases List.mem_append.mp (hchildren ▸ hoperand) with hinner | hleaf
      · exact absurd (Tree.mem_reads_iff.mpr ⟨below, hbelow, hvariable⟩) (hoperands operand hinner)
      · obtain rfl := List.mem_singleton.mp hleaf
        obtain rfl : below = _ := by simpa [Tree.subtrees_mk] using hbelow
        rfl
  obtain rfl := honly place (.step (.refl _) hnode (statement_of_targets htarget).2.2) hstored
  refine ⟨tree.id, place, hreachable, hstores, hstored,
    fun statement hreach => ⟨fun hwritten => ?_, fun hsame => hsame ▸ hwrites⟩,
    honly, fun outcomes events front event back htrail hevents hmentions hne => ?_⟩
  · obtain ⟨other, hother, tree', htree', rfl, -, hmem'⟩ :=
      hshares.exists_block_of_writes hreach hwritten hbound
    rw [hshares.eq_of_introduced hnext hhome hother htree htree' hmem hmem']
  · subst hevents
    have hloopless := hshares.shares.expands.loopless hshares.shares.built.loopless
    obtain ⟨reader, hreader, hid⟩ := List.mem_map.mp ((houtlines.leads_of_trail hloopless htrail).1
        (List.mem_map_of_mem (List.mem_append_right _ List.mem_cons_self)))
    obtain ⟨other, hother, made, hmade, hsame⟩ := hshares.exists_tree hreader
    have hread : origin.temporary ∈ made.reads := by
      rw [Tree.reads_eq_of_bare_eq hsame]
      exact houtlines.mem_reads hreader (hid ▸ hmentions)
    obtain rfl := hshares.eq_block_of_mem_reads hnext hblock horigin hother hmade hread
    rw [htrees, List.mem_append, List.mem_cons] at hmade
    rcases hmade with hearlier | rfl | hlater
    · exact absurd hread (hbefore made hearlier)
    · exact absurd (hid.symm.trans (Tree.id_eq_of_bare_eq hsame).symm) hne
    · exact hshares.mem_of_trail hother htrees hlater htrail
        (hid.symm.trans (Tree.id_eq_of_bare_eq hsame).symm)

end SharesBlocks

/-- Sharing defines each of its variables by one statement, which is executed before the variable is
needed, whatever the tests of conditionals and discards come out as. -/
theorem defined_of_localCse {config : Config} {changed : Bool} (hcheck : program.check = .ok ())
    (hshare : (localCse config).runFrom program = .ok (.ok changed, program')) :
    (∀ outcomes, ∃ events, program'.trail outcomes = .ok events) ∧
      ∀ temporary : VarId, program.vars.size ≤ temporary.index →
        temporary.index < program'.vars.size →
        ∃ writer place, program'.DefinedBy temporary writer place := by
  obtain ⟨code, houtlines⟩ := exists_outlines_of_check hcheck
  obtain ⟨graph, edits, row, code', hshares, -⟩ := houtlines.exists_sharesAs hshare
  obtain ⟨built, numberings, -, hbuild, hnumberings, -⟩ :=
    exists_of_eliminateRepeated (answers_localCse_iff.mp hshare)
  obtain rfl := Except.ok.inj (Except.ok.inj (hshares.build.symm.trans hbuild))
  obtain ⟨blocks, rfl, -, hsettled, hnext⟩ := hshares.exists_blocks houtlines hnumberings
  have hblocks : program.SharesBlocks config code graph blocks row program' code' :=
    ⟨houtlines, hshares, hsettled⟩
  refine ⟨fun outcomes => ?_, fun temporary hlow hhigh => ?_⟩
  · obtain ⟨events, htrail, -⟩ :=
      hblocks.outlines'.exists_trail (hshares.expands.loopless hshares.built.loopless) outcomes
    exact ⟨events, htrail⟩
  · have hmem : temporary.index ∈
        List.range' program.vars.size (blocks.flatMap SharedBlock.origins).length :=
      List.mem_range'_1.mpr ⟨hlow, hnext.next_eq ▸ hhigh⟩
    rw [← hnext.temporaries] at hmem
    obtain ⟨origin, horigin, hindex⟩ := List.mem_map.mp hmem
    obtain rfl : origin.temporary = temporary := congrArg VarId.mk hindex
    obtain ⟨block, hblock, horigin⟩ := List.mem_flatMap.mp horigin
    exact hblocks.exists_definedBy hnext hblock horigin

/-- A sum that is computed once more in the body of the last statement, a conditional. -/
def sumBeforeConditional : Program where
  nodes :=
    #[.variable ⟨0⟩, .variable ⟨0⟩, .apply .add [⟨0⟩, ⟨1⟩] .float, .variable ⟨2⟩, .assign ⟨3⟩ ⟨2⟩ 0,
    .variable ⟨0⟩, .variable ⟨0⟩, .apply .add [⟨5⟩, ⟨6⟩] .float, .variable ⟨3⟩, .assign ⟨8⟩ ⟨7⟩ 0,
    .variable ⟨1⟩, .branch ⟨10⟩ [⟨9⟩] []]
  vars := #[⟨"x", .float, .input⟩, ⟨"c", .bool, .input⟩, ⟨"y", .float, .auto⟩, ⟨"z", .float, .auto⟩]
  body := [⟨4⟩, ⟨11⟩]

theorem defined_of_localCse_sumBeforeConditional :
    sumBeforeConditional.check = .ok () ∧ ∃ program' writer place,
    (localCse { eligible := .all }).runFrom sumBeforeConditional = .ok (.ok true, program') ∧
    program'.vars.size = 5 ∧
    program'.list (.thenBody ⟨11⟩) = .ok [⟨9⟩] ∧ program'.Mentions ⟨9⟩ ⟨4⟩ ∧
    program'.DefinedBy ⟨4⟩ writer place := by
  have hcheck : sumBeforeConditional.check = .ok () := rfl
  have hfound : ((localCse { eligible := .all }).runFrom sumBeforeConditional).map (fun reached =>
      (reached.1, reached.2.vars.size, reached.2.nodes[9]?, reached.2.nodes[11]?,
        reached.2.nodes[15]?)) = .ok (.ok true, 5, some (Node.assign ⟨8⟩ ⟨15⟩ 0),
          some (Node.branch ⟨10⟩ [⟨9⟩] []), some (Node.variable ⟨4⟩)) := by decide +kernel
  obtain ⟨⟨outcome, program'⟩, hshare, hreached⟩ := map_eq_ok_iff.mp hfound
  simp only [Prod.mk.injEq] at hreached
  obtain ⟨rfl, hsize, hreader, hbranch, hread⟩ := hreached
  obtain ⟨writer, place, hdefined⟩ :=
    (defined_of_localCse hcheck hshare).2 ⟨4⟩ (by decide) (by rw [hsize]; decide)
  exact ⟨hcheck, program', writer, place, hshare, hsize, list_thenBody (node_eq_ok_iff.mpr hbranch),
    ⟨⟨15⟩, .step (.refl _) (node_eq_ok_iff.mpr hreader) (by simp [Node.children]),
      node_eq_ok_iff.mpr hread⟩, hdefined⟩

end Program

end ShaderIR
