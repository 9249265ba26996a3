import ShaderIR.Graph.Flow
import ShaderIR.Graph.Merge
import ShaderIR.Proofs.Answers
import Mathlib.Data.List.Sort

/-!
Graphs as rows of blocks. When every block stands in the place of its id (`Graph.Located`), the
blocks that are left come in ascending order, and what an operation does to the places of a graph is
a map or a filter of that row: `Graph.Located.connectAll` for the edges of a new graph and
`Graph.Located.absorb` for one merge.
-/

set_option autoImplicit false

namespace ShaderIR

/-! ### Sets of blocks -/

namespace BlockSet

/-- The order in which sets are kept. -/
def Ascending (set : BlockSet) : Prop :=
  set.Pairwise fun first second => first.index < second.index

variable {set : BlockSet}

theorem Ascending.insert (hset : set.Ascending) (added : BlockId) :
    (insert added set).Ascending := by
  induction set with
  | nil => exact List.pairwise_singleton _ _
  | cons first rest ih =>
    obtain ⟨hfirst, hrest⟩ := List.pairwise_cons.mp hset
    unfold BlockSet.insert
    split
    · next hbefore =>
      refine List.pairwise_cons.mpr ⟨fun member hmember => ?_, hset⟩
      rcases List.mem_cons.mp hmember with rfl | hmember
      · exact hbefore
      · exact Nat.lt_trans hbefore (hfirst member hmember)
    · split
      · exact hset
      · next hbefore hother =>
        have hbehind : first.index < added.index := by
          have hne : first.index ≠ added.index := fun hsame => hother (by
            cases added
            cases first
            exact congrArg BlockId.mk hsame.symm)
          omega
        refine List.pairwise_cons.mpr ⟨fun member hmember => ?_, ih hrest⟩
        rcases mem_insert.mp hmember with rfl | hmember
        · exact hbehind
        · exact hfirst member hmember

theorem Ascending.remove (hset : set.Ascending) (removed : BlockId) :
    (remove removed set).Ascending :=
  List.Pairwise.filter _ hset

theorem Ascending.nodup (hset : set.Ascending) : set.Nodup :=
  hset.imp fun hlt hsame => absurd (congrArg BlockId.index hsame) (Nat.ne_of_lt hlt)

theorem Ascending.eq_of_subset {set' : BlockSet} (hset : set.Ascending) (hset' : set'.Ascending)
    (hforward : set ⊆ set') (hback : set' ⊆ set) : set = set' := by
  have hperm := (List.perm_ext_iff_of_nodup hset.nodup hset'.nodup).mpr fun _ =>
    ⟨@hforward _, @hback _⟩
  exact hperm.eq_of_pairwise (fun _ _ _ _ hlt hgt => absurd hlt (Nat.lt_asymm hgt)) hset hset'

theorem Ascending.eq_singleton_iff (hset : set.Ascending) {only : BlockId} :
    set = [only] ↔ only ∈ set ∧ ∀ member ∈ set, member = only := by
  constructor
  · rintro rfl
    simp
  · rintro ⟨hmem, honly⟩
    refine List.perm_singleton.mp
      ((List.perm_ext_iff_of_nodup hset.nodup (List.nodup_singleton _)).mpr fun member => ?_)
    rw [List.mem_singleton]
    exact ⟨honly member, fun hsame => hsame ▸ hmem⟩

/-- A set with more blocks. -/
def insertAll (added : List BlockId) (set : BlockSet) : BlockSet :=
  added.foldl (fun set block => insert block set) set

@[simp] theorem mem_insertAll {added : List BlockId} {member : BlockId} :
    member ∈ set.insertAll added ↔ member ∈ set ∨ member ∈ added := by
  unfold insertAll
  induction added generalizing set with
  | nil => simp
  | cons first rest ih =>
    rw [List.foldl_cons, ih, mem_insert, List.mem_cons, or_left_comm, or_assoc]

theorem Ascending.insertAll (hset : set.Ascending) (added : List BlockId) :
    (set.insertAll added).Ascending := by
  unfold BlockSet.insertAll
  induction added generalizing set with
  | nil => exact hset
  | cons first rest ih => exact ih (hset.insert first)

end BlockSet

/-! ### Blocks in their places -/

namespace Graph

variable {graph graph' : Graph} {block other : BasicBlock} {place : BlockId}
  {change : BasicBlock → BasicBlock}

/-- Every block stands in the place of its id. -/
def Located (graph : Graph) : Prop :=
  ∀ (index : Nat) (block : BasicBlock), graph.slots[index]? = some (some block) → block.id = ⟨index⟩

theorem mem_blocks_iff_exists :
    block ∈ graph.blocks ↔ ∃ index : Nat, graph.slots[index]? = some (some block) := by
  rw [blocks, List.mem_filterMap]
  simp only [id, exists_eq_right, Array.mem_toList_iff, Array.mem_iff_getElem?]

theorem mem_ids_iff : place ∈ graph.ids ↔ ∃ block ∈ graph.blocks, block.id = place :=
  List.mem_map

namespace Located

theorem mem_blocks_iff (hlocated : graph.Located) :
    block ∈ graph.blocks ↔ graph.slots[block.id.index]? = some (some block) := by
  rw [mem_blocks_iff_exists]
  constructor
  · rintro ⟨index, hslot⟩
    rw [hlocated index block hslot]
    exact hslot
  · exact fun hslot => ⟨_, hslot⟩

theorem block_eq_ok_iff (hlocated : graph.Located) :
    graph.block place = .ok block ↔ block ∈ graph.blocks ∧ block.id = place := by
  have hfetch : graph.block place = .ok block ↔
      graph.slots[place.index]? = some (some block) := by
    unfold Graph.block
    rw [bind_eq_ok_iff]
    simp only [fetch_eq_ok_iff]
    constructor
    · rintro ⟨slot, hslot, hblock⟩
      cases slot with
      | none => cases hblock
      | some found =>
        obtain rfl : found = block := Except.ok.inj hblock
        exact hslot
    · exact fun hslot => ⟨some block, hslot, rfl⟩
  rw [hfetch, hlocated.mem_blocks_iff]
  constructor
  · intro hslot
    obtain rfl : block.id = place := hlocated _ _ hslot
    exact ⟨hslot, rfl⟩
  · rintro ⟨hslot, rfl⟩
    exact hslot

theorem ascending (hlocated : graph.Located) :
    graph.blocks.Pairwise fun first second => first.id.index < second.id.index := by
  rw [blocks, List.pairwise_filterMap, List.pairwise_iff_getElem]
  intro index index' hindex hindex' hlt block hblock block' hblock'
  have hid {index : Nat} (hindex : index < graph.slots.toList.length) {found : BasicBlock}
      (hfound : some found = graph.slots.toList[index]) : found.id = ⟨index⟩ := by
    refine hlocated index found ?_
    rw [← Array.getElem?_toList, List.getElem?_eq_getElem hindex, hfound]
  rw [hid hindex hblock.symm, hid hindex' hblock'.symm]
  exact hlt

theorem nodup_ids (hlocated : graph.Located) : graph.ids.Nodup :=
  List.pairwise_map.mpr (hlocated.ascending.imp fun hlt hsame =>
    Nat.ne_of_lt hlt (congrArg BlockId.index hsame))

theorem eq_of_id (hlocated : graph.Located) (hblock : block ∈ graph.blocks)
    (hother : other ∈ graph.blocks) (hsame : block.id = other.id) : block = other := by
  rw [hlocated.mem_blocks_iff] at hblock hother
  rw [hsame, hother] at hblock
  simpa using hblock.symm

/-- The members decide the row. -/
theorem blocks_eq (hlocated : graph.Located) {blocks : List BasicBlock}
    (hblocks : blocks.Pairwise fun first second => first.id.index < second.id.index)
    (hmem : ∀ block, block ∈ graph.blocks ↔ block ∈ blocks) : graph.blocks = blocks := by
  have : Std.Irrefl fun first second : BasicBlock => first.id.index < second.id.index :=
    ⟨fun _ => Nat.lt_irrefl _⟩
  have : Std.Antisymm fun first second : BasicBlock => first.id.index < second.id.index :=
    ⟨fun _ _ hlt hgt => absurd hlt (Nat.lt_asymm hgt)⟩
  exact hlocated.ascending.eq_of_mem_iff hblocks hmem

/-! ### Changes to places -/

private theorem setSlot_getElem? (graph : Graph) (place : BlockId) (slot : Option BasicBlock)
    (index : Nat) : (graph.setSlot place slot).slots[index]? =
      if place.index = index then (if index < graph.slots.size then some slot else none)
      else graph.slots[index]? := by
  rw [setSlot, Array.getElem?_setIfInBounds]
  split
  · next hsame => rw [hsame]
  · rfl

theorem setSlot (hlocated : graph.Located) {slot : Option BasicBlock}
    (hslot : ∀ block ∈ slot, block.id = place) : (graph.setSlot place slot).Located := by
  intro index block hblock
  rw [setSlot_getElem?] at hblock
  split at hblock
  · next hsame =>
    split at hblock
    · obtain rfl : slot = some block := Option.some.inj hblock
      rw [hslot block rfl, ← hsame]
    · cases hblock
  · exact hlocated index block hblock

theorem blocks_setSlot_none (hlocated : graph.Located) :
    (graph.setSlot place none).blocks = graph.blocks.filter fun block => block.id ≠ place := by
  have hlocated' : (graph.setSlot place none).Located := hlocated.setSlot (by simp)
  refine hlocated'.blocks_eq (hlocated.ascending.filter _) fun block => ?_
  rw [hlocated'.mem_blocks_iff, List.mem_filter, hlocated.mem_blocks_iff, setSlot_getElem?]
  split
  · next hsame =>
    have : block.id = place := congrArg BlockId.mk hsame.symm
    split <;> simp [this]
  · next hother =>
    have : block.id ≠ place := fun hsame => hother (hsame ▸ rfl)
    simp [this]

theorem blocks_setSlot_some (hlocated : graph.Located)
    (hchange : ∀ block, (change block).id = block.id) (hblock : block ∈ graph.blocks) :
    (graph.setSlot block.id (some (change block))).blocks =
      graph.blocks.map fun other => if other.id = block.id then change other else other := by
  have hlocated' : (graph.setSlot block.id (some (change block))).Located :=
    hlocated.setSlot (by simp [hchange])
  have hids (other : BasicBlock) :
      (if other.id = block.id then change other else other).id = other.id := by
    split
    · exact hchange other
    · rfl
  refine hlocated'.blocks_eq ?_ fun other => ?_
  · rw [List.pairwise_map]
    simpa only [hids] using hlocated.ascending
  rw [hlocated'.mem_blocks_iff, List.mem_map, setSlot_getElem?]
  constructor
  · intro hslot
    split at hslot
    · split at hslot
      · obtain rfl : change block = other := by simpa using hslot
        exact ⟨block, hblock, if_pos rfl⟩
      · cases hslot
    · next hplace =>
      refine ⟨other, hlocated.mem_blocks_iff.mpr hslot, if_neg fun hsame => hplace ?_⟩
      rw [hsame]
  · rintro ⟨earlier, hearlier, rfl⟩
    rw [hids]
    split
    · next hplace =>
      have hsame : earlier.id = block.id := congrArg BlockId.mk hplace.symm
      obtain rfl := hlocated.eq_of_id hearlier hblock hsame
      rw [if_pos rfl, if_pos]
      exact (Array.getElem?_eq_some_iff.mp (hlocated.mem_blocks_iff.mp hblock)).choose
    · next hplace =>
      rw [if_neg fun hsame => hplace (by rw [hsame])]
      exact hlocated.mem_blocks_iff.mp hearlier

theorem modifyBlock (hlocated : graph.Located)
    (hmodify : graph.modifyBlock place change = .ok graph')
    (hchange : ∀ block, (change block).id = block.id) :
    graph'.Located ∧ place ∈ graph.ids ∧ graph'.blocks =
      graph.blocks.map fun block => if block.id = place then change block else block := by
  unfold Graph.modifyBlock at hmodify
  obtain ⟨block, hfound, hgraph⟩ := bind_eq_ok_iff.mp hmodify
  obtain ⟨hblock, rfl⟩ := hlocated.block_eq_ok_iff.mp hfound
  obtain rfl := Except.ok.inj hgraph
  exact ⟨hlocated.setSlot (by simp [hchange]), mem_ids_iff.mpr ⟨block, hblock, rfl⟩,
    hlocated.blocks_setSlot_some hchange hblock⟩

/-- The same change to several blocks. -/
theorem modifyAll {places : List BlockId} (hplaces : places.Nodup) (hlocated : graph.Located)
    (hmodify : places.foldlM (fun graph place => graph.modifyBlock place change) graph = .ok graph')
    (hchange : ∀ block, (change block).id = block.id) :
    graph'.Located ∧ graph'.blocks =
      graph.blocks.map fun block => if block.id ∈ places then change block else block := by
  induction places generalizing graph with
  | nil =>
    obtain rfl := Except.ok.inj hmodify
    simpa using hlocated
  | cons place places ih =>
    rw [List.foldlM_cons, bind_eq_ok_iff] at hmodify
    obtain ⟨between, hfirst, hrest⟩ := hmodify
    obtain ⟨hplace, hplaces⟩ := List.nodup_cons.mp hplaces
    obtain ⟨hbetween, -, hblocks⟩ := hlocated.modifyBlock hfirst hchange
    obtain ⟨hlocated', hblocks'⟩ := ih hplaces hbetween hrest
    refine ⟨hlocated', ?_⟩
    rw [hblocks', hblocks, List.map_map]
    refine List.map_congr_left fun block _ => ?_
    simp only [Function.comp_apply, List.mem_cons]
    by_cases hsame : block.id = place
    · simp [hsame, hchange, hplace]
    · simp [hsame]

end Located

end Graph

/-! ### Edges -/

/-- A block with the edges that begin or end in it. -/
def BasicBlock.connected (edges : List Edge) (block : BasicBlock) : BasicBlock :=
  { block with
    predecessors := block.predecessors.insertAll
      ((edges.filter fun edge => edge.target = block.id).map Edge.source)
    successors := block.successors.insertAll
      ((edges.filter fun edge => edge.source = block.id).map Edge.target) }

/-- A block after a merge, in which `absorbed` has become part of the block `absorber`. -/
def BasicBlock.merged (block : BasicBlock) (absorber : BlockId) (absorbed : BasicBlock) :
    BasicBlock :=
  { block with
    ranges :=
      if block.id = absorber then Graph.joinRanges block.ranges absorbed.ranges else block.ranges
    predecessors := if block.id ∈ absorbed.successors then
      (block.predecessors.remove absorbed.id).insert absorber else block.predecessors
    successors := if block.id = absorber then absorbed.successors else block.successors }

@[simp] theorem BasicBlock.id_connected (edges : List Edge) (block : BasicBlock) :
    (block.connected edges).id = block.id :=
  rfl

@[simp] theorem BasicBlock.id_merged (block : BasicBlock)
    (absorber : BlockId) (absorbed : BasicBlock) :
    (block.merged absorber absorbed).id = block.id :=
  rfl

theorem BasicBlock.mem_predecessors_connected {edges : List Edge} {block : BasicBlock}
    {place : BlockId} : place ∈ (block.connected edges).predecessors ↔
      place ∈ block.predecessors ∨ ⟨place, block.id⟩ ∈ edges := by
  rw [connected, BlockSet.mem_insertAll]
  refine or_congr_right ⟨fun hplace => ?_, fun hedge => ?_⟩
  · obtain ⟨⟨source, target⟩, hedge, rfl⟩ := List.mem_map.mp hplace
    obtain ⟨hedge, htarget⟩ := List.mem_filter.mp hedge
    obtain rfl : target = block.id := by simpa using htarget
    exact hedge
  · exact List.mem_map.mpr ⟨_, List.mem_filter.mpr ⟨hedge, by simp⟩, rfl⟩

theorem BasicBlock.mem_successors_connected {edges : List Edge} {block : BasicBlock}
    {place : BlockId} : place ∈ (block.connected edges).successors ↔
      place ∈ block.successors ∨ ⟨block.id, place⟩ ∈ edges := by
  rw [connected, BlockSet.mem_insertAll]
  refine or_congr_right ⟨fun hplace => ?_, fun hedge => ?_⟩
  · obtain ⟨⟨source, target⟩, hedge, rfl⟩ := List.mem_map.mp hplace
    obtain ⟨hedge, hsource⟩ := List.mem_filter.mp hedge
    obtain rfl : source = block.id := by simpa using hsource
    exact hedge
  · exact List.mem_map.mpr ⟨_, List.mem_filter.mpr ⟨hedge, by simp⟩, rfl⟩

namespace Graph

variable {graph graph' : Graph}

private theorem mem_ids_map {change : BasicBlock → BasicBlock}
    (hblocks : graph'.blocks = graph.blocks.map change)
    (hchange : ∀ block, (change block).id = block.id) {place : BlockId} :
    place ∈ graph'.ids ↔ place ∈ graph.ids := by
  simp [ids, hblocks, hchange]

theorem Located.connect (hlocated : graph.Located) {edge : Edge}
    (hconnect : graph.connect edge = .ok graph') :
    graph'.Located ∧ (edge.source ∈ graph.ids ∧ edge.target ∈ graph.ids) ∧
      graph'.blocks = graph.blocks.map (BasicBlock.connected [edge]) := by
  obtain ⟨between, hsource, htarget⟩ := bind_eq_ok_iff.mp hconnect
  obtain ⟨hbetween, hsource, hblocks⟩ := hlocated.modifyBlock hsource fun _ => rfl
  obtain ⟨hlocated', htarget, hblocks'⟩ := hbetween.modifyBlock htarget fun _ => rfl
  refine ⟨hlocated', ⟨hsource, (mem_ids_map hblocks fun block => ?_).mp htarget⟩, ?_⟩
  · split <;> rfl
  · rw [hblocks', hblocks, List.map_map]
    refine List.map_congr_left fun block _ => ?_
    obtain ⟨source, target⟩ := edge
    simp only [Function.comp_apply, BasicBlock.connected, List.filter_singleton]
    split <;> split <;> simp_all [BlockSet.insertAll, eq_comm]

/-- What connecting blocks does to them. -/
theorem Located.connectAll {edges : List Edge} (hlocated : graph.Located)
    (hconnect : edges.foldlM (fun graph edge => graph.connect edge) graph = .ok graph') :
    graph'.Located ∧ (∀ edge ∈ edges, edge.source ∈ graph.ids ∧ edge.target ∈ graph.ids) ∧
      graph'.blocks = graph.blocks.map (BasicBlock.connected edges) := by
  induction edges generalizing graph with
  | nil =>
    obtain rfl := Except.ok.inj hconnect
    exact ⟨hlocated, by simp, (List.map_id _).symm⟩
  | cons edge edges ih =>
    rw [List.foldlM_cons, bind_eq_ok_iff] at hconnect
    obtain ⟨between, hfirst, hrest⟩ := hconnect
    obtain ⟨hbetween, hends, hblocks⟩ := hlocated.connect hfirst
    obtain ⟨hlocated', hrest, hblocks'⟩ := ih hbetween hrest
    refine ⟨hlocated', List.forall_mem_cons.mpr ⟨hends, fun other hother => ?_⟩, ?_⟩
    · simpa only [mem_ids_map hblocks fun _ => rfl] using hrest other hother
    · rw [hblocks', hblocks, List.map_map]
      refine List.map_congr_left fun block _ => ?_
      simp only [Function.comp_apply, BasicBlock.connected, List.filter_cons]
      split <;> split <;> simp [BlockSet.insertAll]

/-- What a merge does to the blocks. -/
theorem Located.absorb (hlocated : graph.Located) {absorber : BlockId} {block : BasicBlock}
    (hsuccessors : block.successors.Nodup) (habsorb : graph.absorb absorber block = .ok graph') :
    graph'.Located ∧ graph'.blocks =
      (graph.blocks.filter fun other => other.id ≠ block.id).map fun other =>
        other.merged absorber block := by
  obtain ⟨between, hrelinked, habsorb⟩ := bind_eq_ok_iff.mp habsorb
  have hcut : (graph.setSlot block.id none).Located := hlocated.setSlot (by simp)
  obtain ⟨hbetween, hblocks⟩ := hcut.modifyAll hsuccessors hrelinked fun _ => rfl
  obtain ⟨hlocated', -, hblocks'⟩ := hbetween.modifyBlock habsorb fun _ => rfl
  refine ⟨hlocated', ?_⟩
  rw [hblocks', hblocks, hlocated.blocks_setSlot_none, List.map_map]
  refine List.map_congr_left fun other _ => ?_
  simp only [Function.comp_apply, BasicBlock.merged]
  split <;> split <;> simp_all

/-! ### Operations that do not crash -/

namespace Located

variable {place : BlockId} {change : BasicBlock → BasicBlock}

theorem exists_modifyBlock (hlocated : graph.Located) (hplace : place ∈ graph.ids)
    (change : BasicBlock → BasicBlock) : ∃ graph', graph.modifyBlock place change = .ok graph' := by
  obtain ⟨block, hblock, rfl⟩ := mem_ids_iff.mp hplace
  exact ⟨_, bind_eq_ok_iff.mpr ⟨block, hlocated.block_eq_ok_iff.mpr ⟨hblock, rfl⟩, rfl⟩⟩

theorem ids_modifyBlock (hlocated : graph.Located)
    (hmodify : graph.modifyBlock place change = .ok graph')
    (hchange : ∀ block, (change block).id = block.id) : graph'.ids = graph.ids := by
  rw [ids, (hlocated.modifyBlock hmodify hchange).2.2, List.map_map, ids]
  refine List.map_congr_left fun block _ => ?_
  rw [Function.comp_apply]
  split
  · exact hchange block
  · rfl

theorem exists_modifyAll {places : List BlockId}
    (hlocated : graph.Located) (hplaces : places ⊆ graph.ids)
    (change : BasicBlock → BasicBlock) (hchange : ∀ block, (change block).id = block.id) : ∃ graph',
      places.foldlM (fun graph place => graph.modifyBlock place change) graph = .ok graph' ∧
        graph'.Located ∧ graph'.ids = graph.ids := by
  induction places generalizing graph with
  | nil => exact ⟨graph, rfl, hlocated, rfl⟩
  | cons place places ih =>
    obtain ⟨hplace, hplaces⟩ := List.cons_subset.mp hplaces
    obtain ⟨between, hfirst⟩ := hlocated.exists_modifyBlock hplace change
    have hids := hlocated.ids_modifyBlock hfirst hchange
    obtain ⟨graph', hrest, hlocated', hids'⟩ :=
      ih (hlocated.modifyBlock hfirst hchange).1 (hids ▸ hplaces)
    exact ⟨graph', bind_eq_ok_iff.mpr ⟨between, hfirst, hrest⟩, hlocated', hids'.trans hids⟩

/-- Edges between blocks that are left can be added. -/
theorem exists_connectAll {edges : List Edge} (hlocated : graph.Located)
    (hends : ∀ edge ∈ edges, edge.source ∈ graph.ids ∧ edge.target ∈ graph.ids) :
    ∃ graph', edges.foldlM (fun graph edge => graph.connect edge) graph = .ok graph' := by
  induction edges generalizing graph with
  | nil => exact ⟨graph, rfl⟩
  | cons edge edges ih =>
    obtain ⟨⟨hsource, htarget⟩, hends⟩ := List.forall_mem_cons.mp hends
    obtain ⟨between, hfirst⟩ := hlocated.exists_modifyBlock hsource
      fun block => { block with successors := block.successors.insert edge.target }
    have hids := hlocated.ids_modifyBlock hfirst fun _ => rfl
    have hbetween := (hlocated.modifyBlock hfirst fun _ => rfl).1
    obtain ⟨connected, hsecond⟩ := hbetween.exists_modifyBlock (hids ▸ htarget)
      fun block => { block with predecessors := block.predecessors.insert edge.source }
    have hids' := (hbetween.ids_modifyBlock hsecond fun _ => rfl).trans hids
    obtain ⟨graph', hrest⟩ := ih (hbetween.modifyBlock hsecond fun _ => rfl).1 (hids' ▸ hends)
    exact ⟨graph', bind_eq_ok_iff.mpr
      ⟨connected, bind_eq_ok_iff.mpr ⟨between, hfirst, hsecond⟩, hrest⟩⟩

/-- A block can become part of another one when that one and its successors are left. -/
theorem exists_absorb {block : BasicBlock} {absorber : BlockId} (hlocated : graph.Located)
    (habsorber : absorber ∈ graph.ids) (hother : absorber ≠ block.id)
    (hsuccessors : block.successors ⊆ graph.ids) (hself : block.id ∉ block.successors) :
    ∃ graph', graph.absorb absorber block = .ok graph' := by
  have hcut : (graph.setSlot block.id none).Located := hlocated.setSlot (by simp)
  have hids {id : BlockId} (hid : id ∈ graph.ids) (hne : id ≠ block.id) :
      id ∈ (graph.setSlot block.id none).ids := by
    obtain ⟨left, hleft, rfl⟩ := mem_ids_iff.mp hid
    rw [mem_ids_iff, hlocated.blocks_setSlot_none]
    exact ⟨left, List.mem_filter.mpr ⟨hleft, by simpa using hne⟩, rfl⟩
  have hsuccessors' : block.successors ⊆ (graph.setSlot block.id none).ids := fun id hid =>
    hids (hsuccessors hid) fun hsame => hself (hsame ▸ hid)
  obtain ⟨between, hrelinked, hbetween, hidsBetween⟩ := hcut.exists_modifyAll hsuccessors'
    (fun following => { following with
      predecessors := (following.predecessors.remove block.id).insert absorber }) fun _ => rfl
  obtain ⟨graph', habsorb⟩ := hbetween.exists_modifyBlock (hidsBetween ▸ hids habsorber hother) _
  exact ⟨graph', bind_eq_ok_iff.mpr ⟨between, hrelinked, habsorb⟩⟩

end Located

end Graph

end ShaderIR
