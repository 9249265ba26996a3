import ShaderIR.Proofs.Graph.Coverage

/-!
The blocks of a built graph as chains. A merge puts two neighbouring chains of the linked graph
together (`Graph.Gathered.absorb`), and when no straight edge is left the chains are the maximal
ones (`Graph.Gathered.mem_iff`). There is only one way to cut a graph into its maximal chains, so
that the order of the merges does not matter (`Graph.chains_of_build`).
-/

set_option autoImplicit false

namespace ShaderIR

namespace Graph

variable {program : Program} {config : Config} {code : Code} {linked graph graph' : Graph}

/-! ### Rows of ranges -/

@[simp] theorem joinRanges_nil_left (ranges : List BlockRange) : joinRanges [] ranges = ranges := by
  simp [joinRanges]

@[simp] theorem joinRanges_nil_right (ranges : List BlockRange) :
    joinRanges ranges [] = ranges := by
  simp [joinRanges]

theorem joinRanges_singleton_cons (exit entry : BlockRange) (behind : List BlockRange) :
    joinRanges [exit] (entry :: behind) =
      if entry.list = exit.list then { exit with last := entry.last } :: behind
      else exit :: entry :: behind :=
  joinRanges_concat_cons [] exit entry behind

theorem joinRanges_cons {ranges : List BlockRange} (hranges : ranges ≠ []) (first : BlockRange)
    (added : List BlockRange) :
    joinRanges (first :: ranges) added = first :: joinRanges ranges added := by
  obtain ⟨before, exit, rfl⟩ := (List.eq_nil_or_concat' ranges).resolve_left hranges
  cases added with
  | nil => simp
  | cons entry behind =>
    rw [← List.cons_append, joinRanges_concat_cons, joinRanges_concat_cons]
    split <;> rfl

theorem joinRanges_ne_nil {ranges : List BlockRange}
    (hranges : ranges ≠ []) (added : List BlockRange) :
    joinRanges ranges added ≠ [] := by
  obtain ⟨before, exit, rfl⟩ := (List.eq_nil_or_concat' ranges).resolve_left hranges
  cases added with
  | nil => simp
  | cons entry behind =>
    rw [joinRanges_concat_cons]
    split <;> simp

theorem joinRanges_assoc (first second third : List BlockRange) :
    joinRanges (joinRanges first second) third = joinRanges first (joinRanges second third) := by
  induction first with
  | nil => simp
  | cons exit first ih =>
    by_cases hfirst : first = []
    · subst hfirst
      match second, third with
      | [], _ | _, [] => simp
      | [entry], next :: behind =>
        by_cases hsame : entry.list = exit.list
        · rw [joinRanges_singleton_cons, if_pos hsame, joinRanges_singleton_cons,
            joinRanges_singleton_cons, ← hsame]
          split <;> simp [joinRanges_singleton_cons, hsame]
        · rw [joinRanges_singleton_cons, if_neg hsame, joinRanges_cons (by simp),
            joinRanges_singleton_cons]
          split <;> simp [joinRanges_singleton_cons, hsame]
      | entry :: next :: rest, third =>
        rw [joinRanges_singleton_cons, joinRanges_cons (by simp) entry, joinRanges_singleton_cons]
        split
        · rw [joinRanges_cons (by simp)]
        · rw [joinRanges_cons (by simp), joinRanges_cons (by simp)]
    · rw [joinRanges_cons hfirst, joinRanges_cons (joinRanges_ne_nil hfirst _),
        joinRanges_cons hfirst, ih]

/-- The ranges of blocks that become one. -/
def joinAll (chain : List BasicBlock) : List BlockRange :=
  chain.foldr (fun member ranges => joinRanges member.ranges ranges) []

theorem joinAll_append (first second : List BasicBlock) :
    joinAll (first ++ second) = joinRanges (joinAll first) (joinAll second) := by
  induction first with
  | nil => simp [joinAll]
  | cons member first ih =>
    change joinRanges member.ranges (joinAll (first ++ second)) =
      joinRanges (joinRanges _ (joinAll first)) _
    rw [ih, joinRanges_assoc]

/-! ### Chains -/

/-- A row of blocks, each joined to the next by a straight edge, that cannot be made longer. -/
structure MaximalChain (graph : Graph) (chain : List BasicBlock) : Prop where
  ne_nil : chain ≠ []
  subset : chain ⊆ graph.blocks
  straight : chain.IsChain graph.Straight
  opens : ∀ first ∈ chain.head?, ∀ source, ¬ graph.Straight source first
  ends : ∀ last ∈ chain.getLast?, ∀ target, ¬ graph.Straight last target

/-- A block is a chain of blocks that became one: it has the id of the first of them, and their
ranges and statements. -/
structure Gathers (program : Program) (chain : List BasicBlock) (block : BasicBlock) : Prop where
  id : chain.head?.map BasicBlock.id = some block.id
  ranges : block.ranges = joinAll chain
  statements : ∃ rows, chain.mapM (fun member => member.statements program) = .ok rows ∧
    block.statements program = .ok rows.flatten

theorem Gathers.congr {chain : List BasicBlock} {block other : BasicBlock}
    (hgathers : Gathers program chain block) (hid : other.id = block.id)
    (hranges : other.ranges = block.ranges) : Gathers program chain other where
  id := hid ▸ hgathers.id
  ranges := hranges.trans hgathers.ranges
  statements := by
    rw [BasicBlock.statements, hranges]
    exact hgathers.statements

namespace Located

variable (hlocated : graph.Located)

include hlocated

/-- There is at most one straight edge out of a block. -/
theorem eq_of_straight {source target other : BasicBlock} (hstraight : graph.Straight source target)
    (hstraight' : graph.Straight source other) : target = other := by
  refine hlocated.eq_of_id hstraight.target_mem hstraight'.target_mem ?_
  simpa using hstraight.successors.symm.trans hstraight'.successors

/-- Two chains that begin at one block and cannot be made longer at the end are the same. -/
theorem eq_of_isChain {first : BasicBlock} {chain chain' : List BasicBlock}
    (hchain : (first :: chain).IsChain graph.Straight)
    (hchain' : (first :: chain').IsChain graph.Straight)
    (hends : ∀ last ∈ (first :: chain).getLast?, ∀ target, ¬ graph.Straight last target)
    (hends' : ∀ last ∈ (first :: chain').getLast?, ∀ target, ¬ graph.Straight last target) :
    chain = chain' := by
  induction chain generalizing first chain' with
  | nil =>
    cases chain' with
    | nil => rfl
    | cons next chain' => exact absurd (List.isChain_cons_cons.mp hchain').1 (hends first rfl next)
  | cons next chain ih =>
    obtain ⟨hstraight, hchain⟩ := List.isChain_cons_cons.mp hchain
    cases chain' with
    | nil => exact absurd hstraight (hends' first rfl next)
    | cons next' chain' =>
      obtain ⟨hstraight', hchain'⟩ := List.isChain_cons_cons.mp hchain'
      obtain rfl := hlocated.eq_of_straight hstraight hstraight'
      rw [List.getLast?_cons_cons] at hends hends'
      rw [ih hchain hchain' hends hends']

theorem eq_of_maximalChain {first : BasicBlock} {chain chain' : List BasicBlock}
    (hmaximal : graph.MaximalChain (first :: chain))
    (hmaximal' : graph.MaximalChain (first :: chain')) :
    chain = chain' :=
  hlocated.eq_of_isChain hmaximal.straight hmaximal'.straight hmaximal.ends hmaximal'.ends

/-- There is only one way to cut a row of blocks into maximal chains. -/
theorem chains_unique {chains chains' : List (List BasicBlock)}
    (hflatten : chains.flatten = chains'.flatten)
    (hchains : ∀ chain ∈ chains, graph.MaximalChain chain)
    (hchains' : ∀ chain ∈ chains', graph.MaximalChain chain) : chains = chains' := by
  induction chains generalizing chains' with
  | nil =>
    cases chains' with
    | nil => rfl
    | cons chain' chains' =>
      have hnil : chain' = [] := List.append_eq_nil_iff.mp hflatten.symm |>.1
      exact absurd hnil (hchains' chain' List.mem_cons_self).ne_nil
  | cons chain chains ih =>
    obtain ⟨hfirst, hrest⟩ := List.forall_mem_cons.mp hchains
    obtain ⟨first, chain, rfl⟩ := List.exists_cons_of_ne_nil hfirst.ne_nil
    cases chains' with
    | nil => cases hflatten
    | cons chain' chains' =>
      obtain ⟨hfirst', hrest'⟩ := List.forall_mem_cons.mp hchains'
      obtain ⟨first', chain', rfl⟩ := List.exists_cons_of_ne_nil hfirst'.ne_nil
      obtain ⟨rfl, hbehind⟩ := List.cons.inj hflatten
      obtain rfl := hlocated.eq_of_maximalChain hfirst hfirst'
      rw [ih (List.append_cancel_left hbehind) hrest hrest']

end Located

/-! ### Merges put chains together -/

/-- The blocks of a linked graph, cut into the chains that are the blocks of another graph. -/
structure Gathered (program : Program) (linked graph : Graph) (chains : List (List BasicBlock)) :
    Prop where
  flatten : chains.flatten = linked.blocks
  straight : ∀ chain ∈ chains, chain.IsChain linked.Straight
  gathers : List.Forall₂ (Gathers program) chains graph.blocks

namespace Gathered

variable {chains : List (List BasicBlock)} {chain : List BasicBlock} {block : BasicBlock}

theorem refl (hlinked : linked.Depicts program code) (hframes : program.Frames code) :
    Gathered program linked linked (linked.blocks.map fun block => [block]) where
  flatten := by simp [← List.flatMap_def]
  straight := by simp
  gathers := by
    rw [List.forall₂_map_left_iff, List.forall₂_same]
    intro block hblock
    have hstatements := (hlinked.holds block hblock).statements hframes
    exact ⟨rfl, by simp [joinAll], [block.row program], by simp [hstatements],
      by simpa using hstatements⟩

section

variable (hgathered : Gathered program linked graph chains) (hlinked : linked.Depicts program code)
  (hdepicts : graph.Depicts program code) (hframes : program.Frames code)

include hgathered

theorem subset (hchain : chain ∈ chains) : chain ⊆ linked.blocks := fun _ hmember =>
  hgathered.flatten ▸ List.mem_flatten_of_mem hchain hmember

theorem exists_block (hchain : chain ∈ chains) :
    ∃ block ∈ graph.blocks, Gathers program chain block :=
  exists_of_forall₂ hgathered.gathers hchain

include hlinked hdepicts hframes

/-- The statements of a block are those of its chain. -/
theorem row_eq (hchain : chain ∈ chains) (hblock : block ∈ graph.blocks)
    (hgathers : Gathers program chain block) :
    block.row program = chain.flatMap (BasicBlock.row program) := by
  obtain ⟨rows, hrows, hstatements⟩ := hgathers.statements
  have hrows' := mapM_eq_ok_map fun member hmember =>
    (hlinked.holds member (hgathered.subset hchain hmember)).statements hframes
  obtain rfl := Except.ok.inj (hrows'.symm.trans hrows)
  exact (Except.ok.inj (((hdepicts.holds block hblock).statements hframes).symm.trans
      hstatements)).trans List.flatMap_def.symm

/-- A block begins where the first block of its chain does. -/
theorem first?_eq (hchain : chain ∈ chains) (hblock : block ∈ graph.blocks)
    (hgathers : Gathers program chain block) {first : BasicBlock} (hfirst : first ∈ chain.head?) :
    block.first? = first.first? := by
  have hrow := hgathered.row_eq hlinked hdepicts hframes hchain hblock hgathers
  obtain ⟨rest, rfl⟩ := List.head?_eq_some_iff.mp hfirst
  have hholds := hlinked.holds first (hgathered.subset hchain List.mem_cons_self)
  obtain ⟨id, later, hid, hrow'⟩ := hholds.exists_cons
  rw [← (hdepicts.holds block hblock).head?, hrow, List.flatMap_cons, hrow', hid]
  rfl

/-- A block ends where the last block of its chain does. -/
theorem last?_eq (hchain : chain ∈ chains) (hblock : block ∈ graph.blocks)
    (hgathers : Gathers program chain block) {last : BasicBlock} (hlast : last ∈ chain.getLast?) :
    block.last? = last.last? := by
  have hrow := hgathered.row_eq hlinked hdepicts hframes hchain hblock hgathers
  obtain ⟨front, rfl⟩ := List.getLast?_eq_some_iff.mp hlast
  have hholds := hlinked.holds last (hgathered.subset hchain (by simp))
  obtain ⟨earlier, id, hid, hrow'⟩ := hholds.exists_concat
  rw [← (hdepicts.holds block hblock).getLast?, hrow, List.flatMap_append, List.flatMap_singleton,
    hrow', hid, ← List.append_assoc, List.getLast?_concat]

/-- A merge puts the chains of two blocks together. -/
theorem absorb (hloopless : code.Loopless) {source target : BasicBlock}
    (hstraight : graph.Straight source target)
    (habsorb : graph.absorb source.id target = .ok graph') :
    ∃ chains', Gathered program linked graph' chains' := by
  obtain ⟨earlier, later, hblocks, hblocks'⟩ :=
    hdepicts.exists_blocks_absorb hframes hloopless hstraight habsorb
  have hgathers := hgathered.gathers
  rw [hblocks] at hgathers
  obtain ⟨before, rest, rfl, hbefore, hrest⟩ := exists_append_of_forall₂_right hgathers
  obtain ⟨first, others, hfirst, hothers, rfl⟩ := List.forall₂_cons_right_iff.mp hrest
  obtain ⟨second, behind, hsecond, hbehind, rfl⟩ := List.forall₂_cons_right_iff.mp hothers
  have hsource := hstraight.source_mem
  have htarget := hstraight.target_mem
  have hascending := hdepicts.located.ascending
  rw [hblocks, List.pairwise_append, List.pairwise_cons] at hascending
  obtain ⟨-, ⟨hlater, -⟩, hearlier⟩ := hascending
  -- the blocks on either side keep their ids and ranges
  have hkept {chains : List (List BasicBlock)} {blocks : List BasicBlock}
      (hne : ∀ block ∈ blocks, block.id.index ≠ source.id.index)
      (hgathers : List.Forall₂ (Gathers program) chains blocks) :
      List.Forall₂ (Gathers program) chains
        (blocks.map fun other => other.merged source.id target) := by
    obtain ⟨hlength, hgathers⟩ := List.forall₂_iff_zip.mp hgathers
    refine List.forall₂_map_right_iff.mpr (List.forall₂_iff_zip.mpr ⟨hlength, fun hpair => ?_⟩)
    refine (hgathers hpair).congr rfl (if_neg fun hsame => ?_)
    exact hne _ (List.of_mem_zip hpair).2 (congrArg BlockId.index hsame)
  refine ⟨before ++ (first ++ second) :: behind, ?_, ?_, ?_⟩
  · simpa using hgathered.flatten
  · have hchains := hgathered.straight
    simp only [List.mem_append, List.mem_cons] at hchains ⊢
    rintro chain (hchain | rfl | hchain)
    · exact hchains chain (Or.inl hchain)
    · refine (hchains first (by simp)).append (hchains second (by simp))
        fun last hlast next hnext => ?_
      have hmem : last ∈ linked.blocks :=
        hgathered.subset (by simp : first ∈ _) (List.mem_of_getLast? hlast)
      have hmem' : next ∈ linked.blocks :=
        hgathered.subset (by simp : second ∈ _) (List.mem_of_head? hnext)
      rw [hlinked.straight_iff hframes.nodup_order hmem hmem',
        ← hgathered.last?_eq hlinked hdepicts hframes (by simp) hsource hfirst hlast,
        ← hgathered.first?_eq hlinked hdepicts hframes (by simp) htarget hsecond hnext]
      exact (hdepicts.straight_iff hframes.nodup_order hsource htarget).mp hstraight
    · exact hchains chain (Or.inr (Or.inr (Or.inr hchain)))
  · rw [hblocks', List.map_append, List.map_cons]
    refine List.rel_append (hkept (fun block hblock => ?_) hbefore)
      (.cons ⟨?_, ?_, ?_⟩ (hkept (fun block hblock => ?_) hbehind))
    · exact Nat.ne_of_lt (hearlier block hblock source List.mem_cons_self)
    · rw [List.head?_append, Option.map_or, hfirst.id]
      rfl
    · rw [joinAll_append, ← hfirst.ranges, ← hsecond.ranges]
      exact if_pos rfl
    · obtain ⟨rows, hrows, hstatements⟩ := hfirst.statements
      obtain ⟨rows', hrows', hstatements'⟩ := hsecond.statements
      refine ⟨rows ++ rows', by rw [List.mapM_append, hrows, hrows']; rfl, ?_⟩
      have hmerged := (hdepicts.holds_merged hframes hloopless hstraight hsource).statements hframes
      rw [if_pos rfl] at hmerged
      have hrow :=
        Except.ok.inj (((hdepicts.holds source hsource).statements hframes).symm.trans hstatements)
      have hrow' :=
        Except.ok.inj (((hdepicts.holds target htarget).statements hframes).symm.trans hstatements')
      rw [hmerged, hrow, hrow', List.flatten_append]
    · exact Nat.ne_of_gt (hlater block (List.mem_cons_of_mem _ hblock))

variable (hsettled : ∀ source target, ¬ graph.Straight source target)

include hsettled

/-- When no straight edge is left, the chains cannot be made longer. -/
theorem maximalChain (hchain : chain ∈ chains) : linked.MaximalChain chain := by
  have hnodup := hframes.nodup_order
  obtain ⟨block, hblock, hgathers⟩ := hgathered.exists_block hchain
  refine ⟨?_, hgathered.subset hchain, hgathered.straight chain hchain,
    fun first hfirst source hstraight => ?_, fun last hlast target hstraight => ?_⟩
  · rintro rfl
    cases hgathers.id
  · obtain ⟨last, -, entry, hentry, hchained⟩ :=
      (hlinked.straight_iff hnodup hstraight.source_mem hstraight.target_mem).mp hstraight
    rw [← hgathered.first?_eq hlinked hdepicts hframes hchain hblock hgathers hfirst] at hentry
    obtain ⟨previous, hprevious, hlast⟩ :=
      hdepicts.exists_last_of_leads hnodup hchained.leads hblock hentry
    exact hsettled previous block
      ((hdepicts.straight_iff hnodup hprevious hblock).mpr ⟨last, hlast, entry, hentry, hchained⟩)
  · obtain ⟨exit, hexit, first, -, hchained⟩ :=
      (hlinked.straight_iff hnodup hstraight.source_mem hstraight.target_mem).mp hstraight
    rw [← hgathered.last?_eq hlinked hdepicts hframes hchain hblock hgathers hlast] at hexit
    obtain ⟨following, hfollowing, hfirst⟩ :=
      hdepicts.exists_first_of_leads hnodup hchained.leads hblock hexit
    exact hsettled block following
      ((hdepicts.straight_iff hnodup hblock hfollowing).mpr ⟨exit, hexit, first, hfirst, hchained⟩)

/-- When no straight edge is left, the chains are the maximal ones. -/
theorem mem_iff : chain ∈ chains ↔ linked.MaximalChain chain := by
  refine ⟨hgathered.maximalChain hlinked hdepicts hframes hsettled, fun hmaximal => ?_⟩
  obtain ⟨first, rest, rfl⟩ := List.exists_cons_of_ne_nil hmaximal.ne_nil
  have hfirst : first ∈ chains.flatten := hgathered.flatten ▸ hmaximal.subset List.mem_cons_self
  obtain ⟨chain, hchain, hmem⟩ := List.mem_flatten.mp hfirst
  have hmaximal' := hgathered.maximalChain hlinked hdepicts hframes hsettled hchain
  obtain ⟨before, behind, rfl⟩ := List.append_of_mem hmem
  rcases List.eq_nil_or_concat' before with rfl | ⟨before, previous, rfl⟩
  · obtain rfl := hlinked.located.eq_of_maximalChain hmaximal hmaximal'
    exact hchain
  · -- the block in front of it would lead straight into the first block of a maximal chain
    have hstraight := hmaximal'.straight
    rw [List.append_assoc, List.singleton_append, List.isChain_append_cons_cons] at hstraight
    exact absurd hstraight.2.1 (hmaximal.opens first rfl previous)

end

/-- Chains of merges end in the chains of blocks. -/
theorem of_merges (hlinked : linked.Depicts program code) (hframes : program.Frames code)
    (hloopless : code.Loopless) (hmerges : Relation.ReflTransGen Merges linked graph) :
    ∃ chains, Gathered program linked graph chains := by
  induction hmerges with
  | refl => exact ⟨_, .refl hlinked hframes⟩
  | tail hmerges hmerge ih =>
    obtain ⟨chains, hgathered⟩ := ih
    obtain ⟨source, target, hstraight, habsorb⟩ := hmerge
    exact hgathered.absorb hlinked (hlinked.merged hframes hloopless hmerges) hframes hloopless
      hstraight habsorb

end Gathered

/-! ### Graphs of the same blocks -/

/-- The blocks of two graphs have the same ids and ranges. -/
def Matches (graph graph' : Graph) : Prop :=
  List.Forall₂ (fun block other => block.id = other.id ∧ block.ranges = other.ranges) graph.blocks
    graph'.blocks

theorem Matches.symm (hmatches : graph.Matches graph') : graph'.Matches graph :=
  List.Forall₂.flip (hmatches.imp fun _ _ hsame => ⟨hsame.1.symm, hsame.2.symm⟩)

theorem matches_of_gathers {chains : List (List BasicBlock)}
    (hgathers : List.Forall₂ (Gathers program) chains graph.blocks)
    (hgathers' : List.Forall₂ (Gathers program) chains graph'.blocks) : graph.Matches graph' := by
  have hsame {chain : List BasicBlock} {block other : BasicBlock}
      (hblock : Gathers program chain block) (hother : Gathers program chain other) :
        block.id = other.id ∧ block.ranges = other.ranges :=
    ⟨Option.some.inj (hblock.id.symm.trans hother.id), hblock.ranges.trans hother.ranges.symm⟩
  rw [Matches]
  generalize graph.blocks = blocks at hgathers ⊢
  generalize graph'.blocks = blocks' at hgathers' ⊢
  induction hgathers generalizing blocks' with
  | nil =>
    obtain rfl := List.forall₂_nil_left_iff.mp hgathers'
    exact .nil
  | cons hfirst _ ih =>
    obtain ⟨other, rest, hother, hrest, rfl⟩ := List.forall₂_cons_left_iff.mp hgathers'
    exact .cons (hsame hfirst hother) (ih _ hrest)

theorem joins_congr {source source' target target' : BasicBlock}
    (hsource : source.ranges = source'.ranges) (htarget : target.ranges = target'.ranges) :
    source.Joins code target ↔ source'.Joins code target' := by
  simp only [BasicBlock.Joins, BasicBlock.last?, BasicBlock.first?, BasicBlock.exit?,
    BasicBlock.entry?, hsource, htarget]

/-- Where two graphs show the same code with the same blocks, they have the same edges. -/
theorem Depicts.edges_subset (hdepicts : graph.Depicts program code)
    (hdepicts' : graph'.Depicts program code)
    (hmatches : graph.Matches graph') {block other : BasicBlock} (hblock : block ∈ graph.blocks)
    (hother : other ∈ graph'.blocks) (hranges : block.ranges = other.ranges) :
    block.predecessors ⊆ other.predecessors ∧ block.successors ⊆ other.successors := by
  constructor
  · intro id hmem
    obtain ⟨source, hsource, rfl⟩ := mem_ids_iff.mp ((hdepicts.live block hblock).1 hmem)
    obtain ⟨source', hsource', hid', hranges'⟩ := exists_of_forall₂ hmatches hsource
    rw [hid', hdepicts'.predecessors source' hsource' other hother, ← joins_congr hranges' hranges]
    exact (hdepicts.predecessors source hsource block hblock).mp hmem
  · intro id hmem
    obtain ⟨target, htarget, rfl⟩ := mem_ids_iff.mp ((hdepicts.live block hblock).2 hmem)
    obtain ⟨target', htarget', hid', hranges'⟩ := exists_of_forall₂ hmatches htarget
    rw [hid', hdepicts'.successors other hother target' htarget', ← joins_congr hranges hranges']
    exact (hdepicts.successors block hblock target htarget).mp hmem

theorem Depicts.blocks_eq (hdepicts : graph.Depicts program code)
    (hdepicts' : graph'.Depicts program code)
    (hmatches : graph.Matches graph') : graph.blocks = graph'.blocks := by
  rw [← List.forall₂_eq_eq_eq, List.forall₂_iff_zip]
  obtain ⟨hlength, hsame⟩ := List.forall₂_iff_zip.mp hmatches
  refine ⟨hlength, @fun block other hpair => ?_⟩
  obtain ⟨hid, hranges⟩ := hsame hpair
  obtain ⟨hblock, hother⟩ := List.of_mem_zip hpair
  obtain ⟨hforward, hforward'⟩ := hdepicts.edges_subset hdepicts' hmatches hblock hother hranges
  obtain ⟨hback, hback'⟩ := hdepicts'.edges_subset hdepicts hmatches.symm hother hblock hranges.symm
  have hascending := hdepicts.ascending block hblock
  have hascending' := hdepicts'.ascending other hother
  have hpredecessors := hascending.1.eq_of_subset hascending'.1 hforward hback
  have hsuccessors := hascending.2.eq_of_subset hascending'.2 hforward' hback'
  cases block
  cases other
  congr

/-! ### Built graphs -/

/-- No straight edge is left in a built graph, and its blocks are the maximal chains of the linked
graph made one. Merging along straight edges in any other order, until none is left, ends with the
same blocks. -/
theorem chains_of_build (hcheck : program.check = .ok ())
    (hbuild : Query.Answers (build program config) graph) :
    (∀ source target, ¬ graph.Straight source target) ∧
    ∃ linked chains, Query.Answers (Graph.linked program config.maxDepth) linked ∧
      chains.flatten = linked.blocks ∧ (∀ chain, chain ∈ chains ↔ linked.MaximalChain chain) ∧
      List.Forall₂ (Gathers program) chains graph.blocks ∧
      ∀ merged, Relation.ReflTransGen Merges linked merged →
        (∀ source target, ¬ merged.Straight source target) → merged.blocks = graph.blocks := by
  obtain ⟨code, houtlines, hbuilt⟩ := exists_built_of_build hcheck hbuild
  have hloopless := hbuilt.loopless
  obtain ⟨linked, hlinked, hdepicts, hmerges⟩ := hbuilt.linked
  obtain ⟨chains, hgathered⟩ := Gathered.of_merges hdepicts houtlines hloopless hmerges
  have hmem {chain : List BasicBlock} : chain ∈ chains ↔ linked.MaximalChain chain :=
    hgathered.mem_iff hdepicts hbuilt.depicts houtlines hbuilt.settled
  refine ⟨hbuilt.settled, linked, chains, hlinked, hgathered.flatten, fun chain => hmem,
    hgathered.gathers, fun merged hmerges' hsettled' => ?_⟩
  obtain ⟨chains', hgathered'⟩ := Gathered.of_merges hdepicts houtlines hloopless hmerges'
  have hdepicts' := hdepicts.merged houtlines hloopless hmerges'
  have hmem' {chain : List BasicBlock} : chain ∈ chains' ↔ linked.MaximalChain chain :=
    hgathered'.mem_iff hdepicts hdepicts' houtlines hsettled'
  obtain rfl := hdepicts.located.chains_unique (hgathered.flatten.trans hgathered'.flatten.symm)
    (fun chain => hmem.mp) (fun chain => hmem'.mp)
  exact hdepicts'.blocks_eq hbuilt.depicts (matches_of_gathers hgathered'.gathers hgathered.gathers)

/-- The linked graph of `nestedBodies`. -/
def nestedBodiesLinked : Graph where
  slots := #[some ⟨⟨0⟩, [⟨.root, ⟨2⟩, ⟨15⟩⟩], [], [⟨1⟩, ⟨3⟩]⟩,
    some ⟨⟨1⟩, [⟨.thenBody ⟨15⟩, ⟨5⟩, ⟨10⟩⟩], [⟨0⟩], [⟨2⟩, ⟨4⟩]⟩,
    some ⟨⟨2⟩, [⟨.thenBody ⟨10⟩, ⟨8⟩, ⟨8⟩⟩], [⟨1⟩], [⟨4⟩]⟩,
    some ⟨⟨3⟩, [⟨.elseBody ⟨15⟩, ⟨13⟩, ⟨13⟩⟩], [⟨0⟩], [⟨4⟩]⟩,
    some ⟨⟨4⟩, [⟨.root, ⟨16⟩, ⟨16⟩⟩], [⟨1⟩, ⟨2⟩, ⟨3⟩], [⟨5⟩]⟩,
    some ⟨⟨5⟩, [⟨.root, ⟨21⟩, ⟨21⟩⟩], [⟨4⟩], [⟨6⟩]⟩,
    some ⟨⟨6⟩, [⟨.thenBody ⟨21⟩, ⟨19⟩, ⟨19⟩⟩], [⟨5⟩], []⟩]

/-- The last three blocks become one, also when the last two of them are merged first. -/
theorem chains_of_build_nestedBodies : ∃ graph between merged chains,
    nestedBodies.check = .ok () ∧ Query.Answers (build nestedBodies {}) graph ∧
    (∀ source target, ¬ graph.Straight source target) ∧
    Query.Answers (Graph.linked nestedBodies ({} : Config).maxDepth) nestedBodiesLinked ∧
    chains.flatten = nestedBodiesLinked.blocks ∧
    (∀ chain, chain ∈ chains ↔ nestedBodiesLinked.MaximalChain chain) ∧
    List.Forall₂ (Gathers nestedBodies) chains graph.blocks ∧ graph.size = 5 ∧
    nestedBodiesLinked.absorb ⟨5⟩ ⟨⟨6⟩, [⟨.thenBody ⟨21⟩, ⟨19⟩, ⟨19⟩⟩], [⟨5⟩], []⟩ = .ok between ∧
    Merges nestedBodiesLinked between ∧ Merges between merged ∧ merged.blocks = graph.blocks := by
  have hcheck : nestedBodies.check = .ok () := rfl
  obtain ⟨graph, hbuild, hsize⟩ :
    ∃ graph, Query.Answers (build nestedBodies {}) graph ∧ graph.size = 5 :=
    ⟨_, rfl, by decide +kernel⟩
  have hlinked :
      Query.Answers (Graph.linked nestedBodies ({} : Config).maxDepth) nestedBodiesLinked := by
    unfold Query.Answers
    decide +kernel
  obtain ⟨between, merged, habsorb, hfirst, hsecond, hnone⟩ : ∃ between merged,
      nestedBodiesLinked.absorb ⟨5⟩ ⟨⟨6⟩, [⟨.thenBody ⟨21⟩, ⟨19⟩, ⟨19⟩⟩], [⟨5⟩], []⟩ = .ok between ∧
      Merges nestedBodiesLinked between ∧ Merges between merged ∧
      ∀ source ∈ merged.blocks, ∀ target ∈ merged.blocks,
        ¬ (source.successors = [target.id] ∧ target.predecessors = [source.id]) :=
    ⟨(nestedBodiesLinked.setSlot ⟨5⟩
        (some ⟨⟨5⟩, [⟨.root, ⟨21⟩, ⟨21⟩⟩, ⟨.thenBody ⟨21⟩, ⟨19⟩, ⟨19⟩⟩], [⟨4⟩], []⟩)).setSlot
        ⟨6⟩ none, ((nestedBodiesLinked.setSlot ⟨4⟩
        (some ⟨⟨4⟩, [⟨.root, ⟨16⟩, ⟨21⟩⟩, ⟨.thenBody ⟨21⟩, ⟨19⟩, ⟨19⟩⟩],
            [⟨1⟩, ⟨2⟩, ⟨3⟩], []⟩)).setSlot ⟨5⟩ none).setSlot ⟨6⟩ none, by decide +kernel,
      ⟨⟨⟨5⟩, [⟨.root, ⟨21⟩, ⟨21⟩⟩], [⟨4⟩], [⟨6⟩]⟩, ⟨⟨6⟩, [⟨.thenBody ⟨21⟩, ⟨19⟩, ⟨19⟩⟩], [⟨5⟩], []⟩,
        ⟨by decide +kernel, by decide +kernel, rfl, rfl⟩, by decide +kernel⟩,
      ⟨⟨⟨4⟩, [⟨.root, ⟨16⟩, ⟨16⟩⟩], [⟨1⟩, ⟨2⟩, ⟨3⟩], [⟨5⟩]⟩,
        ⟨⟨5⟩, [⟨.root, ⟨21⟩, ⟨21⟩⟩, ⟨.thenBody ⟨21⟩, ⟨19⟩, ⟨19⟩⟩], [⟨4⟩], []⟩,
        ⟨by decide +kernel, by decide +kernel, rfl, rfl⟩, by decide +kernel⟩, by decide +kernel⟩
  obtain ⟨hsettled, linked, chains, hlinked', hflatten, hmaximal, hgathers, hsame⟩ :=
    chains_of_build hcheck hbuild
  obtain rfl := hlinked.unique hlinked'
  refine ⟨graph, between, merged, chains, hcheck, hbuild, hsettled, hlinked, hflatten, hmaximal,
    hgathers, hsize, habsorb, hfirst, hsecond, hsame merged (.tail (.single hfirst) hsecond) ?_⟩
  intro source target hstraight
  exact hnone source hstraight.source_mem target hstraight.target_mem
    ⟨hstraight.successors, hstraight.predecessors⟩

end Graph

end ShaderIR
