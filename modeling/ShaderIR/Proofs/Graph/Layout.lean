import ShaderIR.Proofs.Graph.Blocks
import ShaderIR.Proofs.Graph.Cuts
import ShaderIR.Proofs.Rows

/-!
Where blocks stand in a code. `BlockRange.Covers` says which statements a range names,
`BasicBlock.Holds` what the ranges of a block look like and which statements they hold together, and
`Graph.Depicts` that the blocks of a graph are the text of a code, cut where its rows end, with
edges wherever control can go from the end of one block to the beginning of another one.
-/

set_option autoImplicit false

namespace ShaderIR

variable {program : Program} {code : Code}

/-! ### Ranges -/

/-- A range names these statements of its list. -/
structure BlockRange.Covers (code : Code) (range : BlockRange) (row : List NodeId) : Prop where
  first : row.head? = some range.first
  last : row.getLast? = some range.last
  list : ∃ before after, (range.list, before ++ row ++ after) ∈ code.lists .root

/-- A range names these statements of a list in which nothing comes twice. -/
structure BlockRange.Names (program : Program) (range : BlockRange) (row : List NodeId) : Prop where
  first : row.head? = some range.first
  last : row.getLast? = some range.last
  list : ∃ before after, program.list range.list = .ok (before ++ row ++ after) ∧
    (before ++ row ++ after).Nodup

/-- A range begins at the first statement of a body of the conditional that ends another one. -/
structure BlockRange.Opens (program : Program) (previous range : BlockRange) : Prop where
  conditional : ∃ condition thenBody elseBody,
    program.node previous.last = .ok (.branch condition thenBody elseBody)
  body : range.list = .thenBody previous.last ∨ range.list = .elseBody previous.last
  first : ∃ statements, program.list range.list = .ok statements ∧
    statements.head? = some range.first

theorem idxOf?_append_cons {before : List NodeId} {id : NodeId} (hbefore : id ∉ before)
    (after : List NodeId) : (before ++ id :: after).idxOf? id = some before.length := by
  induction before with
  | nil => simp [List.idxOf?_cons]
  | cons first before ih =>
    rw [List.mem_cons, not_or] at hbefore
    rw [List.cons_append, List.idxOf?_cons, ih hbefore.2]
    simp [Ne.symm hbefore.1]

section Names

variable {before row after : List NodeId} {range : BlockRange}

theorem idxOf?_of_head? (hnodup : (before ++ row ++ after).Nodup)
    {first : NodeId} (hfirst : row.head? = some first) :
    (before ++ row ++ after).idxOf? first = some before.length := by
  obtain ⟨later, rfl⟩ := List.head?_eq_some_iff.mp hfirst
  rw [List.append_assoc, List.cons_append] at hnodup ⊢
  exact idxOf?_append_cons
    (fun hmem => (List.nodup_append'.mp hnodup).2.2 hmem List.mem_cons_self) _

theorem idxOf?_of_getLast? (hnodup : (before ++ row ++ after).Nodup)
    {last : NodeId} (hlast : row.getLast? = some last) :
    ∃ stop, (before ++ row ++ after).idxOf? last = some stop ∧
      stop + 1 = (before ++ row).length := by
  obtain ⟨earlier, rfl⟩ := List.getLast?_eq_some_iff.mp hlast
  rw [← List.append_assoc, List.append_assoc _ [last], List.singleton_append] at hnodup ⊢
  refine ⟨(before ++ earlier).length,
    idxOf?_append_cons (fun hmem => ?_) _, by simp [Nat.add_assoc]⟩
  exact (List.nodup_append'.mp hnodup).2.2 hmem List.mem_cons_self

theorem BlockRange.Names.statements (hnames : range.Names program row) :
    range.statements program = .ok row := by
  obtain ⟨before, after, hlist, hnodup⟩ := hnames.list
  obtain ⟨stop, hstop, hlength⟩ := idxOf?_of_getLast? hnodup hnames.last
  simp only [BlockRange.statements, hlist, idxOf?_of_head? hnodup hnames.first, hstop,
    Except.bind, bind]
  rw [sliceThrough, hlength, if_pos (by simp), List.take_left, List.drop_left]

theorem mapM_statements_of_names {ranges : List BlockRange} {rows : List (List NodeId)}
    (hnames : List.Forall₂ (BlockRange.Names program) ranges rows) :
    ranges.mapM (fun range => range.statements program) = .ok rows := by
  induction hnames with
  | nil => rfl
  | cons hfirst _ ih =>
    rw [List.mapM_cons, hfirst.statements, ih]
    rfl

end Names

section Covers

variable {range : BlockRange} {row : List NodeId} (hcovers : range.Covers code row)

include hcovers

theorem BlockRange.Covers.first_mem : range.first ∈ row :=
  List.mem_of_head? hcovers.first

theorem BlockRange.Covers.last_mem : range.last ∈ row :=
  List.mem_of_getLast? hcovers.last

theorem BlockRange.Covers.subset_order : row ⊆ code.order := by
  obtain ⟨before, after, hmem⟩ := hcovers.list
  exact fun statement hstatement => Code.mem_order_of_mem_lists hmem (by simp [hstatement])

theorem BlockRange.Covers.nodup (hnodup : code.order.Nodup) : row.Nodup := by
  obtain ⟨before, after, hmem⟩ := hcovers.list
  have hnodup := Code.nodup_of_mem_lists hnodup hmem
  exact (List.nodup_append'.mp (List.nodup_append'.mp hnodup).1).2.1

end Covers

theorem BlockRange.Covers.names {range : BlockRange}
    {row : List NodeId} (hcovers : range.Covers code row)
    (hframes : program.Frames code) : range.Names program row where
  first := hcovers.first
  last := hcovers.last
  list := by
    obtain ⟨before, after, hmem⟩ := hcovers.list
    exact ⟨before, after, hframes.list_of_mem_lists hmem,
      Code.nodup_of_mem_lists hframes.nodup_order hmem⟩

theorem BlockRange.Covers.statements {range : BlockRange} {row : List NodeId}
    (hcovers : range.Covers code row) (hframes : program.Frames code) :
    range.statements program = .ok row :=
  (hcovers.names hframes).statements

section Rows

variable {ranges : List BlockRange} {rows : List (List NodeId)}
  (hcovers : List.Forall₂ (BlockRange.Covers code) ranges rows)

include hcovers

theorem mapM_statements_of_covers (hframes : program.Frames code) :
    ranges.mapM (fun range => range.statements program) = .ok rows :=
  mapM_statements_of_names (hcovers.imp fun _ _ hcover => hcover.names hframes)

theorem head?_flatten_of_covers : rows.flatten.head? = ranges.head?.map BlockRange.first := by
  cases hcovers with
  | nil => rfl
  | cons hfirst _ => simp [List.head?_append, hfirst.first]

theorem getLast?_flatten_of_covers :
    rows.flatten.getLast? = ranges.getLast?.map BlockRange.last := by
  induction hcovers with
  | nil => rfl
  | @cons range row ranges rows hfirst _ ih =>
    rw [List.flatten_cons, List.getLast?_append, ih, List.getLast?_cons, hfirst.last]
    cases ranges.getLast? <;> rfl

end Rows

/-! ### Blocks -/

namespace BasicBlock

/-- The statement at which a block begins. -/
def first? (block : BasicBlock) : Option NodeId :=
  block.entry?.map BlockRange.first

/-- The statement at which a block ends. -/
def last? (block : BasicBlock) : Option NodeId :=
  block.exit?.map BlockRange.last

/-- The statements of a block that has some. -/
def row (program : Program) (block : BasicBlock) : List NodeId :=
  match block.statements program with
  | .ok row => row
  | .error _ => []

/-- Control can go from the end of a block to the beginning of another one. -/
def Joins (code : Code) (source target : BasicBlock) : Prop :=
  ∃ last ∈ source.last?, ∃ first ∈ target.first?, code.Leads last first none

/-- A block has these statements. Each of its ranges but the first opens a body of the conditional
that ends the range before it, and control passes all of them from top to bottom. -/
structure Holds (program : Program) (code : Code) (block : BasicBlock) (row : List NodeId) :
    Prop where
  ne_nil : block.ranges ≠ []
  covers : ∃ rows, List.Forall₂ (BlockRange.Covers code) block.ranges rows ∧ rows.flatten = row
  opens : block.ranges.IsChain (BlockRange.Opens program)
  chained : row.IsChain (code.Chained none)

variable {block : BasicBlock} {row : List NodeId}

theorem Holds.statements (hholds : block.Holds program code row) (hframes : program.Frames code) :
    block.statements program = .ok row := by
  obtain ⟨rows, hcovers, rfl⟩ := hholds.covers
  rw [BasicBlock.statements, mapM_statements_of_covers hcovers hframes]
  rfl

theorem Holds.row_eq (hholds : block.Holds program code row) (hframes : program.Frames code) :
    block.row program = row := by
  rw [BasicBlock.row, hholds.statements hframes]

theorem Holds.head? (hholds : block.Holds program code row) : row.head? = block.first? := by
  obtain ⟨rows, hcovers, rfl⟩ := hholds.covers
  exact head?_flatten_of_covers hcovers

theorem Holds.getLast? (hholds : block.Holds program code row) : row.getLast? = block.last? := by
  obtain ⟨rows, hcovers, rfl⟩ := hholds.covers
  exact getLast?_flatten_of_covers hcovers

theorem Holds.congr (hholds : block.Holds program code row) {other : BasicBlock}
    (hranges : other.ranges = block.ranges) : other.Holds program code row :=
  ⟨hranges ▸ hholds.ne_nil, hranges ▸ hholds.covers, hranges ▸ hholds.opens, hholds.chained⟩

theorem Holds.exists_covers (hholds : block.Holds program code row) {range : BlockRange}
    (hrange : range ∈ block.ranges) : ∃ row, range.Covers code row := by
  obtain ⟨rows, hcovers, -⟩ := hholds.covers
  obtain ⟨row, -, hrow⟩ := exists_of_forall₂ hcovers hrange
  exact ⟨row, hrow⟩

theorem Holds.exists_cons (hholds : block.Holds program code row) :
    ∃ first later, block.first? = some first ∧ row = first :: later := by
  obtain ⟨range, ranges, hranges⟩ := List.exists_cons_of_ne_nil hholds.ne_nil
  have hfirst : block.first? = some range.first := by rw [first?, entry?, hranges]; rfl
  obtain ⟨later, hrow⟩ := List.head?_eq_some_iff.mp (hholds.head?.trans hfirst)
  exact ⟨range.first, later, hfirst, hrow⟩

theorem Holds.exists_concat (hholds : block.Holds program code row) :
    ∃ earlier last, block.last? = some last ∧ row = earlier ++ [last] := by
  obtain ⟨first, later, -, hrow⟩ := hholds.exists_cons
  obtain ⟨earlier, last, hrow⟩ := (List.eq_nil_or_concat' row).resolve_left (by simp [hrow])
  exact ⟨earlier, last, by rw [← hholds.getLast?, hrow, List.getLast?_concat], hrow⟩

end BasicBlock

/-! ### Graphs -/

namespace Graph

variable {graph : Graph} {source target block other : BasicBlock} {id : NodeId}

/-- An edge is the only one out of its source and the only one into its target. -/
structure Straight (graph : Graph) (source target : BasicBlock) : Prop where
  source_mem : source ∈ graph.blocks
  target_mem : target ∈ graph.blocks
  successors : source.successors = [target.id]
  predecessors : target.predecessors = [source.id]

/-- A graph shows where control can go in a code. -/
structure Depicts (program : Program) (code : Code) (graph : Graph) : Prop where
  located : graph.Located
  starts : ∀ block ∈ graph.blocks.head?, block.id = ⟨0⟩
  holds : ∀ block ∈ graph.blocks, block.Holds program code (block.row program)
  order : graph.blocks.flatMap (BasicBlock.row program) = code.order
  ascending : ∀ block ∈ graph.blocks, block.predecessors.Ascending ∧ block.successors.Ascending
  live : ∀ block ∈ graph.blocks, block.predecessors ⊆ graph.ids ∧ block.successors ⊆ graph.ids
  successors : ∀ source ∈ graph.blocks, ∀ target ∈ graph.blocks,
    target.id ∈ source.successors ↔ source.Joins code target
  predecessors : ∀ source ∈ graph.blocks, ∀ target ∈ graph.blocks,
    source.id ∈ target.predecessors ↔ source.Joins code target

namespace Depicts

variable (hdepicts : graph.Depicts program code) (hnodup : code.order.Nodup)

include hdepicts

theorem exists_block (hid : id ∈ code.order) : ∃ block ∈ graph.blocks, id ∈ block.row program :=
  List.mem_flatMap.mp (hdepicts.order ▸ hid)

theorem mem_order (hblock : block ∈ graph.blocks) (hid : id ∈ block.row program) :
    id ∈ code.order :=
  hdepicts.order ▸ List.mem_flatMap.mpr ⟨block, hblock, hid⟩

/-- The statements of a block are those of some trees. -/
theorem exists_trees (hblock : block ∈ graph.blocks) :
    ∃ trees, trees ⊆ code.statements ∧ trees.map Tree.id = block.row program :=
  exists_map_eq_of_subset fun _ hmem => hdepicts.mem_order hblock hmem

/-- Control passes a block from top to bottom. -/
theorem chained_of_row (hblock : block ∈ graph.blocks) {before later : List NodeId}
    {first second : NodeId} (hrow : block.row program = before ++ first :: second :: later) :
    code.Chained none first second := by
  have hchained := (hdepicts.holds block hblock).chained
  rw [hrow, List.isChain_append_cons_cons] at hchained
  exact hchained.2.1

include hnodup

/-- A statement stands in one block only. -/
theorem eq_of_mem_row (hblock : block ∈ graph.blocks) (hother : other ∈ graph.blocks)
    (hid : id ∈ block.row program) (hid' : id ∈ other.row program) : block = other :=
  eq_of_mem_flatMap (hdepicts.order ▸ hnodup) hblock hother hid hid'

theorem nodup_row (hblock : block ∈ graph.blocks) : (block.row program).Nodup :=
  (List.nodup_flatMap.mp (hdepicts.order ▸ hnodup)).1 block hblock

/-- Control enters a block at its first statement, and from the end of a block. -/
theorem exists_last_of_leads {last first : NodeId} (hleads : code.Leads last first none)
    (htarget : target ∈ graph.blocks) (hfirst : target.first? = some first) :
    ∃ source ∈ graph.blocks, source.last? = some last := by
  obtain ⟨source, hsource, hmem⟩ := hdepicts.exists_block hleads.source_mem
  refine ⟨source, hsource, ?_⟩
  obtain ⟨before, later, hrow⟩ := List.append_of_mem hmem
  cases later with
  | nil => rw [← (hdepicts.holds source hsource).getLast?, hrow, List.getLast?_concat]
  | cons next later =>
    -- the next statement would begin a block and stand inside one
    obtain rfl := (hdepicts.chained_of_row hsource hrow).only first hleads
    obtain ⟨later', hrow'⟩ :=
      List.head?_eq_some_iff.mp ((hdepicts.holds target htarget).head?.trans hfirst)
    obtain rfl := hdepicts.eq_of_mem_row hnodup hsource htarget (by simp [hrow] : first ∈ _)
      (by simp [hrow'])
    have htail : first ∈ (source.row program).tail := by
      rw [hrow]
      cases before <;> simp
    have hrows := hdepicts.nodup_row hnodup hsource
    rw [hrow'] at htail hrows
    exact absurd htail (List.nodup_cons.mp hrows).1

/-- Control leaves a block at its last statement, and to the beginning of a block. -/
theorem exists_first_of_leads {last first : NodeId} (hleads : code.Leads last first none)
    (hsource : source ∈ graph.blocks) (hlast : source.last? = some last) :
    ∃ target ∈ graph.blocks, target.first? = some first := by
  have hmem := hleads.target_mem_tail
  rw [Option.toList_none, List.append_nil] at hmem
  obtain ⟨target, htarget, hmem⟩ := hdepicts.exists_block (List.mem_of_mem_tail hmem)
  refine ⟨target, htarget, ?_⟩
  obtain ⟨before, later, hrow⟩ := List.append_of_mem hmem
  rcases List.eq_nil_or_concat' before with rfl | ⟨before, previous, rfl⟩
  · rw [← (hdepicts.holds target htarget).head?, hrow]
    rfl
  · -- the statement in front of it would end a block and stand inside one
    rw [List.append_assoc, List.singleton_append] at hrow
    obtain rfl := (hdepicts.chained_of_row htarget hrow).sole last hleads
    obtain ⟨earlier, hrow'⟩ :=
      List.getLast?_eq_some_iff.mp ((hdepicts.holds source hsource).getLast?.trans hlast)
    obtain rfl := hdepicts.eq_of_mem_row hnodup htarget hsource (by simp [hrow] : last ∈ _)
      (by simp [hrow'])
    have hfront : last ∈ (target.row program).dropLast := by
      rw [hrow]
      simp
    have hrows := hdepicts.nodup_row hnodup htarget
    rw [hrow'] at hrows
    rw [hrow', List.dropLast_concat] at hfront
    exact absurd (List.mem_singleton_self last) ((List.nodup_append'.mp hrows).2.2 hfront)

/-- A straight edge of the graph is one of the code. -/
theorem straight_iff (hsource : source ∈ graph.blocks) (htarget : target ∈ graph.blocks) :
    graph.Straight source target ↔
      ∃ last ∈ source.last?, ∃ first ∈ target.first?, code.Chained none last first := by
  have hsingle : graph.Straight source target ↔
      source.successors = [target.id] ∧ target.predecessors = [source.id] :=
    ⟨fun hstraight => ⟨hstraight.successors, hstraight.predecessors⟩,
      fun ⟨hsuccessors, hpredecessors⟩ => ⟨hsource, htarget, hsuccessors, hpredecessors⟩⟩
  rw [hsingle, (hdepicts.ascending source hsource).2.eq_singleton_iff,
    (hdepicts.ascending target htarget).1.eq_singleton_iff]
  constructor
  · rintro ⟨⟨hsuccessor, honly⟩, -, hsole⟩
    obtain ⟨last, hlast, first, hfirst, hleads⟩ :=
      (hdepicts.successors source hsource target htarget).mp hsuccessor
    refine ⟨last, hlast, first, hfirst, hleads, fun other hother => ?_, fun other hother => ?_⟩
    · obtain ⟨next, hnext, hfirst'⟩ := hdepicts.exists_first_of_leads hnodup hother hsource hlast
      have hid := honly next.id ((hdepicts.successors source hsource next hnext).mpr
        ⟨last, hlast, other, hfirst', hother⟩)
      obtain rfl := hdepicts.located.eq_of_id hnext htarget hid
      exact Option.some.inj (hfirst'.symm.trans hfirst)
    · obtain ⟨previous, hprevious, hlast'⟩ :=
        hdepicts.exists_last_of_leads hnodup hother htarget hfirst
      have hid := hsole previous.id ((hdepicts.predecessors previous hprevious target htarget).mpr
        ⟨other, hlast', first, hfirst, hother⟩)
      obtain rfl := hdepicts.located.eq_of_id hprevious hsource hid
      exact Option.some.inj (hlast'.symm.trans hlast)
  · rintro ⟨last, hlast, first, hfirst, hchained⟩
    have hjoins : source.Joins code target := ⟨last, hlast, first, hfirst, hchained.leads⟩
    have hend {block : BasicBlock} (hblock : block ∈ graph.blocks) (hlast' : last ∈ block.last?) :
        last ∈ block.row program :=
      List.mem_of_getLast? ((hdepicts.holds block hblock).getLast?.trans hlast')
    have hbeginning {block : BasicBlock} (hblock : block ∈ graph.blocks)
        (hfirst' : first ∈ block.first?) : first ∈ block.row program :=
      List.mem_of_head? ((hdepicts.holds block hblock).head?.trans hfirst')
    refine ⟨⟨(hdepicts.successors source hsource target htarget).mpr hjoins,
        fun member hmember => ?_⟩,
      (hdepicts.predecessors source hsource target htarget).mpr hjoins, fun member hmember => ?_⟩
    · obtain ⟨other, hother, rfl⟩ := mem_ids_iff.mp ((hdepicts.live source hsource).2 hmember)
      obtain ⟨last', hlast', first', hfirst', hleads⟩ :=
        (hdepicts.successors source hsource other hother).mp hmember
      obtain rfl : last = last' := Option.some.inj (hlast.symm.trans hlast')
      obtain rfl := hchained.only first' hleads
      rw [hdepicts.eq_of_mem_row hnodup hother htarget (hbeginning hother hfirst')
        (hbeginning htarget hfirst)]
    · obtain ⟨other, hother, rfl⟩ := mem_ids_iff.mp ((hdepicts.live target htarget).1 hmember)
      obtain ⟨last', hlast', first', hfirst', hleads⟩ :=
        (hdepicts.predecessors other hother target htarget).mp hmember
      obtain rfl : first = first' := Option.some.inj (hfirst.symm.trans hfirst')
      obtain rfl := hchained.sole last' hleads
      rw [hdepicts.eq_of_mem_row hnodup hother hsource (hend hother hlast') (hend hsource hlast)]

/-- What stands behind a block in the text are the blocks behind it. -/
theorem exists_behind (hsource : source ∈ graph.blocks)
    {last : NodeId} (hlast : source.last? = some last) :
    ∃ earlier behind front, graph.blocks = earlier ++ source :: behind ∧
      code.order = front ++ last :: behind.flatMap (BasicBlock.row program) ∧
      last ∉ front ∧ last ∉ behind.flatMap (BasicBlock.row program) := by
  obtain ⟨earlier, behind, hblocks⟩ := List.append_of_mem hsource
  obtain ⟨front, hrow⟩ :=
    List.getLast?_eq_some_iff.mp ((hdepicts.holds source hsource).getLast?.trans hlast)
  have horder : code.order = earlier.flatMap (BasicBlock.row program) ++ front ++
      last :: behind.flatMap (BasicBlock.row program) := by
    simp [← hdepicts.order, hblocks, hrow]
  rw [horder, List.nodup_append', List.nodup_cons] at hnodup
  exact ⟨earlier, behind, _, hblocks, horder, fun hmem => hnodup.2.2 hmem List.mem_cons_self,
    hnodup.2.1.1⟩

/-- Blocks whose ends stand side by side in the text stand side by side in the graph. -/
theorem exists_neighbours {before later : List NodeId} {last first : NodeId}
    (horder : code.order = before ++ last :: first :: later) (hsource : source ∈ graph.blocks)
    (hlast : source.last? = some last) (htarget : target ∈ graph.blocks)
    (hfirst : target.first? = some first) :
    ∃ earlier later, graph.blocks = earlier ++ source :: target :: later := by
  obtain ⟨earlier, behind, front, hblocks, htext, hfront, hbehind⟩ :=
    hdepicts.exists_behind hnodup hsource hlast
  obtain ⟨-, -, hrest⟩ :=
    (List.append_cons_inj_of_notMem hfront hbehind).mp (htext.symm.trans horder)
  cases behind with
  | nil => cases hrest
  | cons next behind =>
    have hnext : next ∈ graph.blocks := by simp [hblocks]
    obtain ⟨head, rest, -, hrow⟩ := (hdepicts.holds next hnext).exists_cons
    rw [List.flatMap_cons, hrow, List.cons_append] at hrest
    obtain rfl : head = first := (List.cons.inj hrest).1
    obtain rfl := hdepicts.eq_of_mem_row hnodup hnext htarget (by simp [hrow] : head ∈ _)
      (List.mem_of_head? ((hdepicts.holds target htarget).head?.trans hfirst))
    exact ⟨earlier, behind, hblocks⟩

/-- Edges go forward. -/
theorem lt_of_joins (hsource : source ∈ graph.blocks) (htarget : target ∈ graph.blocks)
    (hjoins : source.Joins code target) : source.id.index < target.id.index := by
  obtain ⟨last, hlast, first, hfirst, hleads⟩ := hjoins
  obtain ⟨earlier, behind, front, hblocks, htext, hfront, -⟩ :=
    hdepicts.exists_behind hnodup hsource hlast
  have hmem : first ∈ behind.flatMap (BasicBlock.row program) := by
    have hsublist := hleads.sublist
    rw [Option.toList_none, List.append_nil, htext, List.sublist_append_iff] at hsublist
    obtain ⟨inFront, rest, hpair, hinFront, hrest⟩ := hsublist
    cases inFront with
    | nil =>
      rw [List.nil_append] at hpair
      rw [← hpair, List.cons_sublist_cons] at hrest
      exact List.singleton_sublist.mp hrest
    | cons head inFront =>
      obtain rfl : last = head := (List.cons.inj hpair).1
      exact absurd (hinFront.subset List.mem_cons_self) hfront
  obtain ⟨block, hblock, hmem⟩ := List.mem_flatMap.mp hmem
  obtain rfl := hdepicts.eq_of_mem_row hnodup (hblocks ▸ by simp [hblock]) htarget hmem
    (List.mem_of_head? ((hdepicts.holds target htarget).head?.trans hfirst))
  have hascending := hdepicts.located.ascending
  rw [hblocks, List.pairwise_append, List.pairwise_cons] at hascending
  exact hascending.2.1.1 block hblock

end Depicts

end Graph

end ShaderIR
