import Mathlib.Data.List.SplitBy
import ShaderIR.Proofs.Graph.Acceptance
import ShaderIR.Proofs.Pass.BlockSharing

/-!
Graphs of rewritten programs. When rows of statements have come into the places of single ones, the
old graph with the ends of its ranges moved along depicts the new program
(`Graph.Depicts.expanded`), and no straight edge comes up (`Graph.Depicts.settled_expanded`). Where
no straight edge is left, a code decides the rows of the blocks (`Graph.Depicts.rows_eq`), so that
the graph that is built anew has the same blocks and edges under other ids
(`Graph.rebuilt_of_shareBlocks`).
-/

set_option autoImplicit false

namespace ShaderIR

variable {program program' : Program} {code code' : Code} {row : NodeId → List NodeId}

/-! ### Ids under other names -/

namespace BlockSet

/-- The id in the place that another one has in its set. -/
def renamed (keys names : BlockSet) (id : BlockId) : BlockId :=
  ((keys.zip names).lookup id).getD id

variable {keys names set set' : BlockSet} (hkeys : keys.Ascending) (hnames : names.Ascending)

include hkeys hnames

theorem pairwise_zip : (keys.zip names).Pairwise fun first second =>
    first.1.index < second.1.index ∧ first.2.index < second.2.index := by
  induction keys generalizing names with
  | nil => simp
  | cons key keys ih =>
    cases names with
    | nil => simp
    | cons name names =>
      obtain ⟨hkey, hkeys⟩ := List.pairwise_cons.mp hkeys
      obtain ⟨hname, hnames⟩ := List.pairwise_cons.mp hnames
      refine List.pairwise_cons.mpr ⟨fun pair hpair => ?_, ih hkeys hnames⟩
      obtain ⟨hleft, hright⟩ := List.of_mem_zip hpair
      exact ⟨hkey _ hleft, hname _ hright⟩

theorem renamed_eq {key name : BlockId} (hpair : (key, name) ∈ keys.zip names) :
    renamed keys names key = name := by
  obtain ⟨before, after, hzip⟩ := List.append_of_mem hpair
  have hpairwise := pairwise_zip hkeys hnames
  rw [hzip, List.pairwise_append] at hpairwise
  have hlookup : (keys.zip names).lookup key = some name := by
    refine List.lookup_eq_some_iff.mpr ⟨before, after, hzip, fun pair hmem => bne_iff_ne.mpr ?_⟩
    rintro rfl
    exact Nat.lt_irrefl _ (hpairwise.2.2 pair hmem _ List.mem_cons_self).1
  rw [renamed, hlookup]
  rfl

theorem lt_iff_of_mem_zip {first second : BlockId × BlockId} (hfirst : first ∈ keys.zip names)
    (hsecond : second ∈ keys.zip names) :
    first.1.index < second.1.index ↔ first.2.index < second.2.index := by
  have hpairwise := pairwise_zip hkeys hnames
  obtain ⟨place, hplace, rfl⟩ := List.mem_iff_getElem.mp hfirst
  obtain ⟨place', hplace', rfl⟩ := List.mem_iff_getElem.mp hsecond
  rw [List.pairwise_iff_getElem] at hpairwise
  rcases Nat.lt_trichotomy place place' with hlt | rfl | hlt
  · exact iff_of_true (hpairwise _ _ hplace hplace' hlt).1 (hpairwise _ _ hplace hplace' hlt).2
  · simp
  · obtain ⟨hkey, hname⟩ := hpairwise _ _ hplace' hplace hlt
    exact iff_of_false (Nat.not_lt.mpr hkey.le) (Nat.not_lt.mpr hname.le)

/-- A set with the same members under other names. -/
theorem eq_map_renamed (hlength : keys.length = names.length) (hset : set.Ascending)
    (hset' : set'.Ascending) (hsubset : set ⊆ keys) (hsubset' : set' ⊆ names)
    (hmem : ∀ pair ∈ keys.zip names, pair.1 ∈ set ↔ pair.2 ∈ set') :
    set' = set.map (renamed keys names) := by
  have hname {key : BlockId} (hkey : key ∈ keys) : ∃ name, (key, name) ∈ keys.zip names := by
    obtain ⟨place, hplace, rfl⟩ := List.mem_iff_getElem.mp hkey
    exact ⟨names[place], List.mem_iff_getElem.mpr ⟨place, by simp; omega, by simp⟩⟩
  have hkey {name : BlockId} (hname : name ∈ names) : ∃ key, (key, name) ∈ keys.zip names := by
    obtain ⟨place, hplace, rfl⟩ := List.mem_iff_getElem.mp hname
    exact ⟨keys[place], List.mem_iff_getElem.mpr ⟨place, by simp; omega, by simp⟩⟩
  refine hset'.eq_of_subset ?_ (fun name hmem' => ?_) fun name hmem' => ?_
  · refine List.pairwise_map.mpr (hset.imp_of_mem fun hfirst hsecond hlt => ?_)
    obtain ⟨first, hfirst⟩ := hname (hsubset hfirst)
    obtain ⟨second, hsecond⟩ := hname (hsubset hsecond)
    rw [renamed_eq hkeys hnames hfirst, renamed_eq hkeys hnames hsecond]
    exact (lt_iff_of_mem_zip hkeys hnames hfirst hsecond).mp hlt
  · obtain ⟨key, hpair⟩ := hkey (hsubset' hmem')
    exact List.mem_map.mpr ⟨key, (hmem _ hpair).mpr hmem', renamed_eq hkeys hnames hpair⟩
  · obtain ⟨key, hkey, rfl⟩ := List.mem_map.mp hmem'
    obtain ⟨name, hpair⟩ := hname (hsubset hkey)
    rw [renamed_eq hkeys hnames hpair]
    exact (hmem _ hpair).mp hkey

end BlockSet

/-! ### Blocks of rows -/

namespace BasicBlock

/-- The blocks have the same statements, and the same edges when the ids of the one are renamed. -/
structure Renamed (program : Program) (rename : BlockId → BlockId) (block other : BasicBlock) :
    Prop where
  id : other.id = rename block.id
  statements : other.statements program = block.statements program
  predecessors : other.predecessors = block.predecessors.map rename
  successors : other.successors = block.successors.map rename

theorem first?_expanded (block : BasicBlock) (row : NodeId → List NodeId) :
    (block.expanded row).first? = block.first?.map (firstOf row) := by
  rw [first?, first?, entry?, entry?, expanded, List.head?_map, Option.map_map, Option.map_map]
  rfl

theorem last?_expanded (block : BasicBlock) (row : NodeId → List NodeId) :
    (block.expanded row).last? = block.last?.map (lastOf row) := by
  rw [last?, last?, exit?, exit?, expanded, List.getLast?_map, Option.map_map, Option.map_map]
  rfl

end BasicBlock

/-- What holds of assignments and of all nodes that resemble those of the statements holds after the
replacement. -/
theorem Program.Expanded.exists_node (hexpanded : program.Expanded code row program')
    (hframes : program.Frames code) {p : NodeId → Node → Prop}
    (hassign : ∀ id target value, p id (.assign target value 0))
    (hresembles : ∀ id node node', node.Resembles node' → p id node → p id node')
    (hall : ∀ id ∈ code.order, ∀ node, program.node id = .ok node → p id node) :
    ∀ id ∈ code.order.flatMap row, ∃ node, program'.node id = .ok node ∧ p id node := by
  intro id hid
  obtain ⟨statement, hstatement, hmem⟩ := List.mem_flatMap.mp hid
  rcases (hexpanded.rows statement hstatement).new id hmem with rfl | ⟨-, target, value, hnode⟩
  · obtain ⟨node, hnode⟩ := exists_node_of_lt (hframes.framed.lt_size hstatement)
    obtain ⟨node', hnode', hlike, -⟩ := hexpanded.trims.node id node hnode
    exact ⟨node', hnode', hresembles id node node' hlike (hall id hstatement node hnode)⟩
  · exact ⟨_, hnode, hassign id target value⟩

/-- No statement that is refused has come up. -/
theorem Program.Expanded.findSome?_refusal?_eq_none (hexpanded : program.Expanded code row program')
    (hframes : program.Frames code) (hnone : code.order.findSome? program.refusal? = none) :
    (code.order.flatMap row).findSome? program'.refusal? = none := by
  refine List.findSome?_eq_none_iff.mpr fun id hid => ?_
  obtain ⟨node, hnode, hrefusal⟩ :=
    hexpanded.exists_node hframes (p := fun id node => node.refusal? id = none) (fun _ _ _ => rfl)
      (fun id node node' hlike hnone => by
        cases hlike with
        | alike halike => cases halike <;> exact hnone
        | branch => rfl
        | loop => exact hnone)
      (fun id hid node hnode => refusal?_of_node hnode ▸
        List.findSome?_eq_none_iff.mp hnone id hid) id hid
  rw [refusal?_of_node hnode, hrefusal]

/-- No discard has come up. -/
theorem Program.Expanded.find?_discards_eq_none (hexpanded : program.Expanded code row program')
    (hframes : program.Frames code) (hdiscardless : code.Discardless) :
    (code.order.flatMap row).find? program'.discards = none := by
  refine List.find?_eq_none.mpr fun id hid => ?_
  obtain ⟨node, hnode, hother⟩ := hexpanded.exists_node hframes (p :=
      fun _ node => ∀ condition, node ≠ .discard condition) (by simp) (fun _ _ _ hlike hnone => by
        cases hlike with
        | alike halike => cases halike <;> simp_all
        | branch => simp
        | loop => simp)
      (fun id hid node hnode => by
        obtain ⟨statement, hstatement, rfl⟩ := List.mem_map.mp hid
        obtain rfl := Except.ok.inj ((hframes.framed.node_eq statement hstatement).symm.trans hnode)
        exact hdiscardless statement hstatement) id hid
  rw [discards, hnode]
  split
  · next heq => exact absurd (Except.ok.inj heq) (hother _)
  · simp

/-- A conditional that has been replaced by a row is at the end of it. -/
theorem Program.Expanded.exists_branch (hexpanded : program.Expanded code row program')
    {id condition : NodeId} {thenBody elseBody : List NodeId} (hid : id ∈ code.order)
    (hnode : program.node id = .ok (.branch condition thenBody elseBody)) :
    lastOf row id = id ∧ ∃ condition' thenBody' elseBody',
      program'.node id = .ok (.branch condition' thenBody' elseBody') := by
  obtain ⟨node', steps, hnode', hresembles, hrow, -⟩ := hexpanded.exists_control hid hnode (by simp)
  obtain ⟨condition', thenBody', elseBody', rfl⟩ := hresembles.exists_branch
  exact ⟨by simp [lastOf, hrow], _, _, _, hnode'⟩

/-- A range still opens a body of the conditional that ends another one. -/
theorem BlockRange.Opens.expanded (hexpanded : program.Expanded code row program')
    (hframes : program.Frames code) {previous range : BlockRange} {statements : List NodeId}
    (hopens : previous.Opens program range) (hlast : previous.last ∈ code.order)
    (hcovers : range.Covers code statements) :
    (previous.expanded row).Opens program' (range.expanded row) := by
  obtain ⟨condition, thenBody, elseBody, hnode⟩ := hopens.conditional
  obtain ⟨hsame, hnode'⟩ := hexpanded.exists_branch hlast hnode
  obtain ⟨before, after, hmem⟩ := hcovers.list
  obtain ⟨found, hfound, hfirst⟩ := hopens.first
  obtain rfl := Except.ok.inj (hfound.symm.trans (hframes.list_of_mem_lists hmem))
  have hrows : ∀ statement ∈ before ++ statements ++ after, row statement ≠ [] :=
    fun statement hstatement =>
    (hexpanded.rows statement (Code.mem_order_of_mem_lists hmem hstatement)).ne_nil
  refine ⟨?_, ?_, _, hexpanded.lists _ hmem, ?_⟩
  · change ∃ condition thenBody elseBody, program'.node (lastOf row previous.last) = _
    rwa [hsame]
  · change range.list = .thenBody (lastOf row previous.last) ∨
      range.list = .elseBody (lastOf row previous.last)
    rw [hsame]
    exact hopens.body
  · rw [head?_flatMap_row hrows, hfirst]
    rfl

namespace Graph

variable {graph graph' : Graph} {block source target : BasicBlock}

section Expanded

variable (hdepicts : graph.Depicts program code) (hframes : program.Frames code)
  (hloopless : code.Loopless) (hexpanded : program.Expanded code row program')
  (hframes' : program'.Frames code') (hexpands : code.Expands row code')

include hdepicts hframes hloopless hexpanded hexpands

/-- Control passes the rows of a block one after the other. -/
theorem Depicts.holds_expanded (hblock : block ∈ graph.blocks) :
    (block.expanded row).Holds program' code' ((block.row program).flatMap row) := by
  have hholds := hdepicts.holds block hblock
  obtain ⟨rows, hcovers, hrows⟩ := hholds.covers
  have hrow {statement : NodeId} (hmem : statement ∈ block.row program) : row statement ≠ [] :=
    hexpands.row_ne_nil statement (hdepicts.mem_order hblock hmem)
  refine ⟨by simpa [BasicBlock.expanded] using hholds.ne_nil,
    ⟨rows.map (List.flatMap row), ?_, ?_⟩, ?_, ?_⟩
  · exact List.forall₂_map_left_iff.mpr (List.forall₂_map_right_iff.mpr
      (hcovers.imp fun range statements hcover => hcover.expanded hexpands))
  · rw [← hrows, List.flatMap_def, List.map_flatten, List.flatten_flatten, List.map_map]
    rfl
  · refine (List.isChain_map _).mpr
      (hholds.opens.imp_of_mem_imp fun previous range hprevious hrange hopens => ?_)
    obtain ⟨statements, hcover⟩ := hholds.exists_covers hprevious
    obtain ⟨statements', hcover'⟩ := hholds.exists_covers hrange
    exact hopens.expanded hexpanded hframes (hcover.subset_order hcover.last_mem) hcover'
  · have hnil : [] ∉ (block.row program).map row := by
      rintro hmem
      obtain ⟨statement, hstatement, hempty⟩ := List.mem_map.mp hmem
      exact hrow hstatement hempty
    rw [List.flatMap_def, List.isChain_flatten hnil, List.isChain_map]
    constructor
    · rintro _ hmem
      obtain ⟨statement, hstatement, rfl⟩ := List.mem_map.mp hmem
      exact List.isChain_isInfix _ |>.imp fun _ _ =>
        hexpands.chained_of_adjacent hloopless hexpanded.nodup
          (hdepicts.mem_order hblock hstatement)
    · refine hholds.chained.imp_of_mem_imp fun last first hlast hfirst hchained x hx y hy => ?_
      rw [Option.mem_def, getLast?_eq_lastOf (hrow hlast), Option.some.injEq] at hx
      rw [Option.mem_def, head?_eq_firstOf (hrow hfirst), Option.some.injEq] at hy
      subst hx hy
      exact (hexpands.chained_ends_iff hloopless hexpanded.nodup (hdepicts.mem_order hblock hlast)
        (hdepicts.mem_order hblock hfirst)).mpr hchained

omit hframes in
theorem Depicts.joins_expanded_iff (hsource : source ∈ graph.blocks)
    (htarget : target ∈ graph.blocks) :
    (source.expanded row).Joins code' (target.expanded row) ↔ source.Joins code target := by
  obtain ⟨earlier, last, hlast, hrow⟩ := (hdepicts.holds source hsource).exists_concat
  obtain ⟨first, later, hfirst, hrow'⟩ := (hdepicts.holds target htarget).exists_cons
  have hleads := hexpands.leads_ends_iff hloopless hexpanded.nodup
    (hdepicts.mem_order hsource (by simp [hrow] : last ∈ _))
    (hdepicts.mem_order htarget (by simp [hrow'] : first ∈ _))
  unfold BasicBlock.Joins
  rw [BasicBlock.last?_expanded, BasicBlock.first?_expanded, hlast, hfirst]
  simpa using hleads

variable (hlocated : graph'.Located)
  (hblocks : graph'.blocks = graph.blocks.map (BasicBlock.expanded row))

include hlocated hblocks hframes'

/-- A graph that has gone along with a program depicts its code. -/
theorem Depicts.expanded : graph'.Depicts program' code' := by
  have hids : graph'.ids = graph.ids := by
    rw [ids, hblocks, List.map_map]
    rfl
  have hrow {block : BasicBlock} (hblock : block ∈ graph.blocks) :
      (block.expanded row).row program' = (block.row program).flatMap row :=
    (hdepicts.holds_expanded hframes hloopless hexpanded hexpands hblock).row_eq hframes'
  refine ⟨hlocated, ?_, ?_, ?_, ?_, ?_, ?_, ?_⟩
  · rw [hblocks, List.head?_map]
    intro block hblock
    obtain ⟨first, hfirst, rfl⟩ := Option.map_eq_some_iff.mp hblock
    exact hdepicts.starts first hfirst
  · rw [hblocks, List.forall_mem_map]
    exact fun block hblock =>
      hrow hblock ▸ hdepicts.holds_expanded hframes hloopless hexpanded hexpands hblock
  · rw [hblocks, List.flatMap_map, List.flatMap_congr fun block hblock => hrow hblock,
      ← List.flatMap_assoc, hdepicts.order, hexpands.order_eq]
  · rw [hblocks, List.forall_mem_map]
    exact hdepicts.ascending
  · rw [hblocks, List.forall_mem_map, hids]
    exact hdepicts.live
  all_goals
    simp only [hblocks, List.forall_mem_map]
    intro source hsource target htarget
    rw [hdepicts.joins_expanded_iff hloopless hexpanded hexpands hsource htarget]
  · exact hdepicts.successors source hsource target htarget
  · exact hdepicts.predecessors source hsource target htarget

/-- No straight edge comes up. -/
theorem Depicts.settled_expanded (hsettled : ∀ source target, ¬ graph.Straight source target) :
    ∀ source target, ¬ graph'.Straight source target := by
  intro source target hstraight
  have hdepicts' := hdepicts.expanded hframes hloopless hexpanded hframes' hexpands hlocated hblocks
  obtain ⟨last, hlast, first, hfirst, hchained⟩ :=
    (hdepicts'.straight_iff hframes'.nodup_order hstraight.source_mem hstraight.target_mem).mp
      hstraight
  obtain ⟨source, hsource, rfl⟩ := List.mem_map.mp (hblocks ▸ hstraight.source_mem)
  obtain ⟨target, htarget, rfl⟩ := List.mem_map.mp (hblocks ▸ hstraight.target_mem)
  rw [BasicBlock.last?_expanded] at hlast
  rw [BasicBlock.first?_expanded] at hfirst
  obtain ⟨end', hend, rfl⟩ := Option.map_eq_some_iff.mp hlast
  obtain ⟨top, htop, rfl⟩ := Option.map_eq_some_iff.mp hfirst
  have hmem := List.mem_of_getLast? ((hdepicts.holds source hsource).getLast?.trans hend)
  have hmem' := List.mem_of_head? ((hdepicts.holds target htarget).head?.trans htop)
  rw [hexpands.chained_ends_iff hloopless hexpanded.nodup (hdepicts.mem_order hsource hmem)
    (hdepicts.mem_order htarget hmem')] at hchained
  exact hsettled source target ((hdepicts.straight_iff hframes.nodup_order hsource htarget).mpr
    ⟨_, hend, _, htop, hchained⟩)

end Expanded

/-! ### Two graphs of one code -/

/-- Where no straight edge is left, the rows of the blocks are the longest ones that control passes
from top to bottom. -/
theorem Depicts.rows_eq (hdepicts : graph.Depicts program code)
    (hdepicts' : graph'.Depicts program code)
    (hnodup : code.order.Nodup) (hsettled : ∀ source target, ¬ graph.Straight source target)
    (hsettled' : ∀ source target, ¬ graph'.Straight source target) :
    graph.blocks.map (BasicBlock.row program) = graph'.blocks.map (BasicBlock.row program) := by
  classical
  have hsplit {graph : Graph} (hdepicts : graph.Depicts program code)
      (hsettled : ∀ source target, ¬ graph.Straight source target) :
      code.order.splitBy (fun last first => decide (code.Chained none last first)) =
        graph.blocks.map (BasicBlock.row program) := by
    rw [← hdepicts.order, List.flatMap_def]
    refine List.splitBy_flatten ?_ ?_ ?_
    · intro hmem
      obtain ⟨block, hblock, hnil⟩ := List.mem_map.mp hmem
      obtain ⟨first, later, -, hrow⟩ := (hdepicts.holds block hblock).exists_cons
      rw [hnil] at hrow
      cases hrow
    · simpa using fun block hblock => (hdepicts.holds block hblock).chained
    · refine (List.isChain_map _).mpr (List.isChain_iff_forall_rel_of_append_cons_cons.mpr ?_)
      intro source target earlier behind hblocks
      have hsource : source ∈ graph.blocks := by simp [hblocks]
      have htarget : target ∈ graph.blocks := by simp [hblocks]
      obtain ⟨before, last, hlast, hrow⟩ := (hdepicts.holds source hsource).exists_concat
      obtain ⟨first, later, hfirst, hrow'⟩ := (hdepicts.holds target htarget).exists_cons
      refine ⟨by simp [hrow], by simp [hrow'],
        decide_eq_false fun hchained => hsettled source target ?_⟩
      simp only [hrow, hrow', List.getLast_concat, List.head_cons] at hchained
      exact (hdepicts.straight_iff hnodup hsource htarget).mpr
        ⟨last, hlast, first, hfirst, hchained⟩
  exact (hsplit hdepicts hsettled).symm.trans (hsplit hdepicts' hsettled')

/-- Graphs whose blocks have the same statements have the same edges, under other ids. -/
theorem Depicts.forall₂_renamed (hdepicts : graph.Depicts program code)
    (hdepicts' : graph'.Depicts program code) (hframes : program.Frames code)
    (hrows : graph.blocks.map (BasicBlock.row program) =
      graph'.blocks.map (BasicBlock.row program)) :
    List.Forall₂ (BasicBlock.Renamed program (BlockSet.renamed graph.ids graph'.ids))
      graph.blocks graph'.blocks := by
  have hkeys : graph.ids.Pairwise fun first second => first.index < second.index :=
    List.pairwise_map.mpr hdepicts.located.ascending
  have hnames : graph'.ids.Pairwise fun first second => first.index < second.index :=
    List.pairwise_map.mpr hdepicts'.located.ascending
  obtain ⟨hlength, hpairs⟩ := List.forall₂_iff_zip.mp (List.forall₂_map_left_iff.mp
    (List.forall₂_map_right_iff.mp (List.forall₂_eq_eq_eq ▸ hrows)))
  have hzip : graph.ids.zip graph'.ids =
      (graph.blocks.zip graph'.blocks).map (Prod.map BasicBlock.id BasicBlock.id) := List.zip_map ..
  have hends {block other : BasicBlock} (hpair : (block, other) ∈ graph.blocks.zip graph'.blocks) :
      block.first? = other.first? ∧ block.last? = other.last? := by
    obtain ⟨hblock, hother⟩ := List.of_mem_zip hpair
    rw [← (hdepicts.holds block hblock).head?, ← (hdepicts'.holds other hother).head?,
      ← (hdepicts.holds block hblock).getLast?, ← (hdepicts'.holds other hother).getLast?,
      hpairs hpair]
    exact ⟨rfl, rfl⟩
  have hset {set set' : BlockSet} (hset : set.Ascending) (hset' : set'.Ascending)
      (hlive : set ⊆ graph.ids) (hlive' : set' ⊆ graph'.ids) (hmem : ∀ source source',
        (source, source') ∈ graph.blocks.zip graph'.blocks →
        (source.id ∈ set ↔ source'.id ∈ set')) :
        set' = set.map (BlockSet.renamed graph.ids graph'.ids) := by
    refine BlockSet.eq_map_renamed hkeys hnames (by simpa [ids] using hlength) hset hset' hlive
      hlive' ?_
    rw [hzip, List.forall_mem_map]
    exact fun pair hpair => hmem pair.1 pair.2 hpair
  refine List.forall₂_iff_zip.mpr ⟨hlength, fun {block other} hpair => ?_⟩
  obtain ⟨hblock, hother⟩ := List.of_mem_zip hpair
  refine ⟨(BlockSet.renamed_eq hkeys hnames (hzip ▸ List.mem_map_of_mem hpair)).symm, ?_, ?_, ?_⟩
  · rw [(hdepicts.holds block hblock).statements hframes,
      (hdepicts'.holds other hother).statements hframes, hpairs hpair]
  · refine hset (hdepicts.ascending block hblock).1 (hdepicts'.ascending other hother).1
      (hdepicts.live block hblock).1 (hdepicts'.live other hother).1
        fun source source' hsource => ?_
    obtain ⟨hmem, hmem'⟩ := List.of_mem_zip hsource
    rw [hdepicts.predecessors source hmem block hblock,
      hdepicts'.predecessors source' hmem' other hother,
      BasicBlock.Joins, BasicBlock.Joins, (hends hsource).2, (hends hpair).1]
  · refine hset (hdepicts.ascending block hblock).2 (hdepicts'.ascending other hother).2
      (hdepicts.live block hblock).2 (hdepicts'.live other hother).2
        fun target target' htarget => ?_
    obtain ⟨hmem, hmem'⟩ := List.of_mem_zip htarget
    rw [hdepicts.successors block hblock target hmem,
      hdepicts'.successors other hother target' hmem',
      BasicBlock.Joins, BasicBlock.Joins, (hends hpair).2, (hends htarget).1]

/-! ### The graph that is built anew -/

variable {config : Config}

theorem Built.depth_le (hbuilt : Built program config code graph) :
    code.depth ≤ config.maxDepth := by
  obtain ⟨unmerged, hlinked, -⟩ := hbuilt.linked
  obtain ⟨hdepth, -⟩ | ⟨-, hfails⟩ := hbuilt.frames.outcome_of_partition config.maxDepth
  · exact hdepth
  · exact absurd (Query.fails_bind.mpr (Or.inl hfails)) hlinked.not_fails

theorem Built.refusal?_eq_none (hbuilt : Built program config code graph) :
    code.order.findSome? program.refusal? = none := by
  obtain ⟨unmerged, hlinked, -⟩ := hbuilt.linked
  have hobeys := obeys_linked hbuilt.frames hbuilt.depth_le
  cases hrefusal : code.order.findSome? program.refusal? with
  | none => rfl
  | some reason =>
    rw [hrefusal] at hobeys
    exact absurd hobeys hlinked.not_fails

/-- The graph of an expanded program can be built anew, and has the same blocks and edges as the one
that has gone along. -/
theorem Built.exists_rebuilt (hbuilt : Built program config code graph)
    (hexpanded : program.Expanded code row program') (hlocated : graph'.Located)
    (hblocks : graph'.blocks = graph.blocks.map (BasicBlock.expanded row)) :
    ∃ code', program'.Frames code' ∧ graph'.Depicts program' code' ∧ ∃ rebuilt,
      Query.Answers (build program' config) rebuilt ∧ List.Forall₂
        (BasicBlock.Renamed program' (BlockSet.renamed graph'.ids rebuilt.ids)) graph'.blocks
          rebuilt.blocks := by
  have hframes := hbuilt.frames
  have hloopless := hbuilt.loopless
  obtain ⟨code', hframes', hexpands⟩ := hexpanded.exists_frames hframes
  have hdepicts' :=
    hbuilt.depicts.expanded hframes hloopless hexpanded hframes' hexpands hlocated hblocks
  have hsettled' := hbuilt.depicts.settled_expanded hframes hloopless hexpanded hframes' hexpands
    hlocated hblocks hbuilt.settled
  refine ⟨code', hframes', hdepicts', ?_⟩
  obtain ⟨unmerged, merges, rebuilt, hlinked, hmerge, houtcome⟩ := exists_merged_of_frames hframes'
    (hexpands.depth_eq ▸ hbuilt.depth_le)
    (hexpands.order_eq ▸ hexpanded.findSome?_refusal?_eq_none hframes hbuilt.refusal?_eq_none)
  obtain ⟨hunmerged, hloopless', -⟩ := depicts_of_linked hframes' hlinked
  obtain ⟨hmerges, hsettled⟩ := hunmerged.mergeWithin_spec hframes' hloopless' hmerge
  have hdepicts := hunmerged.merged hframes' hloopless' hmerges
  have hrows := hdepicts'.rows_eq hdepicts hframes'.nodup_order hsettled' (hsettled (Nat.le_refl _))
  refine ⟨rebuilt, ?_, hdepicts'.forall₂_renamed hdepicts hframes' hrows⟩
  obtain ⟨statement, hsize, hfound, -⟩ | ⟨-, hbuild⟩ := houtcome
  · have hsize' : rebuilt.size = graph.size := by
      have hlength := congrArg List.length hrows
      rw [hblocks] at hlength
      simpa [size] using hlength.symm
    rw [hexpands.order_eq,
      hexpanded.find?_discards_eq_none hframes (hbuilt.discardless (hsize' ▸ hsize))] at hfound
    cases hfound
  · exact hbuild

/-- The kept graph stays in step with the program. When all blocks have been numbered and then
shared, in whatever order, its blocks are still the text of the program by ascending id, with every
statement in exactly one of them; and the graph that is built anew has as many blocks, in the same
order, with the same statements and, under other ids, the same edges. -/
theorem rebuilt_of_shareBlocks {numberings shuffled : List (BlockId × Numbering)}
    {workspace : Workspace}
    (hcheck : program.check = .ok ()) (hbuild : Query.Answers (build program config) graph)
    (hnumberings : Query.Answers (graph.numberBlocks program config) numberings)
    (hperm : shuffled.Perm numberings)
    (hshare : Walk.Answers (shareBlocks shuffled config) ⟨program, graph⟩ () workspace) :
    workspace.graph.blocks.Pairwise (fun first second => first.id.index < second.id.index) ∧
    (∃ order rows, workspace.program.preOrder = .ok order ∧
      workspace.graph.blocks.mapM (fun block => block.statements workspace.program) = .ok rows ∧
      rows.flatten = order) ∧
    (∀ ref statements, workspace.program.Lists ref statements → ∀ statement ∈ statements,
      ∃! block, block ∈ workspace.graph.blocks ∧
        ∃ row, block.statements workspace.program = .ok row ∧ row.count statement = 1) ∧
    ∃ rebuilt rename, Query.Answers (build workspace.program config) rebuilt ∧
      List.Forall₂ (BasicBlock.Renamed workspace.program rename) workspace.graph.blocks
        rebuilt.blocks := by
  obtain ⟨code, houtlines, hbuilt⟩ := exists_built_of_build hcheck hbuild
  obtain ⟨row, edited, hshared⟩ := (ensures_shareBlocks_of_numberBlocks hbuilt.frames
    (program.divides_all code) hbuilt.depicts hnumberings hperm).of_answers hshare
  obtain ⟨code', hframes', hdepicts', rebuilt, hbuild', hrenamed⟩ :=
    hbuilt.exists_rebuilt hshared.shared.expanded hshared.located hshared.blocks
  exact ⟨hdepicts'.located.ascending, hdepicts'.exists_order hframes',
    fun ref statements hlists statement hmem => hdepicts'.existsUnique_block hframes' hlists hmem,
    rebuilt, _, hbuild', hrenamed⟩

/-- A call that is made twice in front of a conditional. -/
def repeatedCall : Program where
  nodes := #[.variable ⟨0⟩, .call ⟨0⟩ [] (some ⟨0⟩), .variable ⟨1⟩, .call ⟨0⟩ [] (some ⟨2⟩),
    .variable ⟨2⟩, .variable ⟨0⟩, .variable ⟨1⟩, .assign ⟨5⟩ ⟨6⟩ 0, .branch ⟨4⟩ [⟨7⟩] [⟨11⟩],
    .variable ⟨1⟩, .variable ⟨0⟩, .assign ⟨9⟩ ⟨10⟩ 0]
  vars := #[⟨"x", .vector .float 1, .auto⟩, ⟨"y", .vector .float 1, .auto⟩, ⟨"c", .bool, .input⟩]
  signatures := #[⟨"f", [], .vector .float 1⟩]
  body := [⟨1⟩, ⟨3⟩, ⟨8⟩]

/-- The blocks of `repeatedCall`; both bodies of the conditional end the program. -/
def repeatedCallGraph : Graph where
  slots := #[
    some { id := ⟨0⟩, ranges := [⟨.root, ⟨1⟩, ⟨8⟩⟩], successors := [⟨3⟩, ⟨4⟩] }, none, none,
    some { id := ⟨3⟩, ranges := [⟨.thenBody ⟨8⟩, ⟨7⟩, ⟨7⟩⟩], predecessors := [⟨0⟩] },
    some { id := ⟨4⟩, ranges := [⟨.elseBody ⟨8⟩, ⟨11⟩, ⟨11⟩⟩], predecessors := [⟨0⟩] }]

/-- What is known of the blocks; the two calls have one number. -/
def repeatedCallNumberings : List (BlockId × Numbering) := [
  (⟨0⟩, {
    values := [(⟨4⟩, [⟨1⟩]), (⟨3⟩, [⟨0⟩]), (⟨1⟩, [⟨0⟩])]
    occurrences := [(⟨1⟩, ⟨0⟩), (⟨3⟩, ⟨0⟩)]
    allocated := 2 }),
  (⟨3⟩, { values := [(⟨6⟩, [⟨0⟩])], allocated := 1 }),
  (⟨4⟩, { values := [(⟨10⟩, [⟨0⟩])], allocated := 1 })]

theorem rebuilt_of_shareBlocks_repeatedCall :
    ∃ (workspace : Workspace) (rebuilt : Graph) (rename : BlockId → BlockId),
    workspace.program.body = [⟨1⟩, ⟨14⟩, ⟨16⟩, ⟨8⟩] ∧
    workspace.graph = { repeatedCallGraph with changed := true } ∧
    Query.Answers (build workspace.program { eligible := .all }) rebuilt ∧
    List.Forall₂ (BasicBlock.Renamed workspace.program rename) workspace.graph.blocks
      rebuilt.blocks := by
  have hcheck : repeatedCall.check = .ok () := rfl
  have hbuild : Query.Answers (build repeatedCall { eligible := .all }) repeatedCallGraph := rfl
  have hnumberings : (repeatedCallGraph.numberBlocks repeatedCall { eligible := .all }).run =
      .ok (.ok repeatedCallNumberings) := by decide +kernel
  have hshared : ((shareBlocks repeatedCallNumberings.reverse { eligible := .all }).runFrom
      ⟨repeatedCall, repeatedCallGraph⟩).map
        (fun reached => (reached.1, reached.2.program.body, reached.2.graph)) =
      .ok (.ok (), [⟨1⟩, ⟨14⟩, ⟨16⟩, ⟨8⟩], { repeatedCallGraph with changed := true }) := by
          decide +kernel
  obtain ⟨⟨outcome, workspace⟩, hshare, hreached⟩ := map_eq_ok_iff.mp hshared
  obtain ⟨rfl, hbody, hgraph⟩ : outcome = .ok () ∧ workspace.program.body = [⟨1⟩, ⟨14⟩, ⟨16⟩, ⟨8⟩] ∧
    workspace.graph = { repeatedCallGraph with changed := true } := by simpa using hreached
  obtain ⟨-, -, -, rebuilt, rename, hrebuild, hrenamed⟩ :=
    rebuilt_of_shareBlocks hcheck hbuild hnumberings (List.reverse_perm _) hshare
  exact ⟨workspace, rebuilt, rename, hbody, hgraph, hrebuild, hrenamed⟩

end Graph

end ShaderIR
