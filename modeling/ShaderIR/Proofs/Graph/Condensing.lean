import ShaderIR.Proofs.Graph.Chains

/-!
Merging in graphs that nobody has built. All that is asked of a graph is that its edges are noted at
both ends and that its ranges name statements (`Graph.Consistent`); it may have cycles, and need not
show what its program does. Merging never crashes then as long as the last statement of each range
is a node, and leaves such a graph again. Each of its blocks is a chain of straight edges of the
first graph made one, and the edges that are left are those that led into the first block of a chain
(`Graph.Condenses`).
-/

set_option autoImplicit false

namespace ShaderIR

variable {program : Program}

/-! ### Ranges that are made one -/

/-- A range goes on right where another one ends. -/
theorem BlockRange.Names.extended {exit entry : BlockRange} {row row' : List NodeId}
    (hexit : exit.Names program row) (hentry : entry.Names program row')
    (hsame : entry.list = exit.list) {statements : List NodeId} {stop : Nat}
    (hlist : program.list exit.list = .ok statements)
    (hstop : statements.idxOf? exit.last = some stop)
    (hnext : statements.idxOf? entry.first = some (stop + 1)) :
    ({ exit with last := entry.last } : BlockRange).Names program (row ++ row') := by
  obtain ⟨before, after, hlist', hnodup⟩ := hexit.list
  obtain ⟨before', after', hlist'', hnodup'⟩ := hentry.list
  obtain rfl := Except.ok.inj (hlist.symm.trans hlist')
  have htext := Except.ok.inj (hlist.symm.trans (hsame ▸ hlist''))
  obtain ⟨stop', hstop', hlength⟩ := idxOf?_of_getLast? hnodup hexit.last
  obtain rfl := Option.some.inj (hstop.symm.trans hstop')
  rw [htext, idxOf?_of_head? hnodup' hentry.first] at hnext
  -- both ranges cut the list at the same place
  have hcut : (before ++ row).length = before'.length :=
    hlength.symm.trans (Option.some.inj hnext).symm
  obtain ⟨rfl, -⟩ := List.append_inj (htext.trans (List.append_assoc ..)) hcut
  refine ⟨?_, ?_, before, after', ?_⟩
  · rw [List.head?_append, hexit.first]
    rfl
  · rw [List.getLast?_append, hentry.last]
    rfl
  · rw [hlist, htext, ← List.append_assoc before row row']
    exact ⟨rfl, hnodup'⟩

namespace Graph

variable {graph graph' : Graph} {source target block : BasicBlock}

theorem exists_last_of_mem_joinRanges {ranges added : List BlockRange} {range : BlockRange}
    (hrange : range ∈ joinRanges ranges added) :
    ∃ other ∈ ranges ++ added, range.last = other.last := by
  rcases List.eq_nil_or_concat' ranges with rfl | ⟨before, exit, rfl⟩
  · exact ⟨range, by simpa using hrange, rfl⟩
  cases added with
  | nil => exact ⟨range, by simpa using hrange, rfl⟩
  | cons entry behind =>
    rw [joinRanges_concat_cons] at hrange
    split at hrange
    · rcases List.mem_append.mp hrange with hrange | hrange
      · exact ⟨range, by simp [hrange], rfl⟩
      · rcases List.mem_cons.mp hrange with rfl | hrange
        · exact ⟨entry, by simp, rfl⟩
        · exact ⟨range, by simp [hrange], rfl⟩
    · exact ⟨range, by simpa using hrange, rfl⟩

/-- A block that follows another one begins in the same list, at the next place, or in another
list. -/
theorem exists_ends_of_follows (hfollows : follows program source target = .ok true) :
    ∃ exit entry, source.exit? = some exit ∧ target.entry? = some entry ∧ (entry.list = exit.list →
      ∃ statements stop, program.list exit.list = .ok statements ∧
        statements.idxOf? exit.last = some stop ∧
        statements.idxOf? entry.first = some (stop + 1)) := by
  unfold follows at hfollows
  split at hfollows
  · next exit entry hexit hentry =>
    refine ⟨exit, entry, hexit, hentry, fun hsame => ?_⟩
    rw [if_pos hsame.symm, hsame] at hfollows
    obtain ⟨last, hlast, hfollows⟩ := bind_eq_ok_iff.mp hfollows
    obtain ⟨first, hfirst, hfollows⟩ := bind_eq_ok_iff.mp hfollows
    obtain ⟨statements, hlist, hpure⟩ := bind_eq_ok_iff.mp hlast
    obtain rfl := Except.ok.inj hpure
    rw [position?_of_list hlist] at hfirst
    obtain rfl := Except.ok.inj hfirst
    split at hfollows
    · next stop start hstop hstart =>
      have hnext : (stop + 1 == start) = true := Except.ok.inj hfollows
      obtain rfl := beq_iff_eq.mp hnext
      exact ⟨statements, stop, hlist, hstop, hstart⟩
    · cases hfollows
  · cases hfollows

/-- The statements of a block that has taken up the ranges of one that follows it. -/
theorem exists_names_joinRanges (hfollows : follows program source target = .ok true)
    {rows rows' : List (List NodeId)}
    (hsource : List.Forall₂ (BlockRange.Names program) source.ranges rows)
    (htarget : List.Forall₂ (BlockRange.Names program) target.ranges rows') :
    ∃ joined,
      List.Forall₂ (BlockRange.Names program) (joinRanges source.ranges target.ranges) joined ∧
      joined.flatten = rows.flatten ++ rows'.flatten := by
  obtain ⟨exit, entry, hexit, hentry, hnext⟩ := exists_ends_of_follows hfollows
  obtain ⟨before, hbefore⟩ := List.getLast?_eq_some_iff.mp hexit
  obtain ⟨behind, hbehind⟩ := List.head?_eq_some_iff.mp hentry
  rw [hbefore] at hsource
  rw [hbehind] at htarget
  rw [hbefore, hbehind, joinRanges_concat_cons]
  split
  · next hsame =>
    obtain ⟨statements, stop, hlist, hstop, hstart⟩ := hnext hsame
    obtain ⟨rows, row, rfl, hrows, hrow⟩ := exists_concat_of_forall₂ hsource
    obtain ⟨row', rows', hrow', hbehindRows, rfl⟩ := List.forall₂_cons_left_iff.mp htarget
    exact ⟨rows ++ (row ++ row') :: rows', List.rel_append hrows
        (.cons (hrow.extended hrow' hsame hlist hstop hstart) hbehindRows), by simp⟩
  · exact ⟨rows ++ rows', List.rel_append hsource htarget, by simp⟩

/-! ### Consistent graphs -/

/-- The edges are noted at both ends, and every range names some statements of a list without
doubles. -/
structure Consistent (program : Program) (graph : Graph) : Prop extends graph.Coherent where
  named : ∀ block ∈ graph.blocks, ∀ range ∈ block.ranges, ∃ row, range.Names program row

/-- The statements in which ranges end are nodes of the program. -/
def EndsKnown (program : Program) (graph : Graph) : Prop :=
  ∀ block ∈ graph.blocks, ∀ range ∈ block.ranges, ∃ node, program.node range.last = .ok node

/-- An edge leads from one block to another one. -/
def HasEdge (graph : Graph) (start stop : BlockId) : Prop :=
  ∃ block ∈ graph.blocks, block.id = start ∧ stop ∈ block.successors

/-- The target can become part of the source. -/
structure Mergeable (program : Program) (graph : Graph) (source target : BasicBlock) : Prop where
  straight : graph.Straight source target
  other : source.id ≠ target.id
  follows : follows program source target = .ok true

namespace Consistent

variable (hconsistent : graph.Consistent program) (hknown : graph.EndsKnown program)

include hconsistent

theorem exists_names (hblock : block ∈ graph.blocks) :
    ∃ rows, List.Forall₂ (BlockRange.Names program) block.ranges rows := by
  have hnamed := hconsistent.named block hblock
  generalize block.ranges = ranges at hnamed ⊢
  induction ranges with
  | nil => exact ⟨[], .nil⟩
  | cons range ranges ih =>
    obtain ⟨hfirst, hnamed⟩ := List.forall_mem_cons.mp hnamed
    obtain ⟨row, hrow⟩ := hfirst
    obtain ⟨rows, hrows⟩ := ih hnamed
    exact ⟨row :: rows, .cons hrow hrows⟩

section

include hknown

/-- Comparing the end of a block with the beginning of another one does not crash. -/
theorem exists_follows (hsource : source ∈ graph.blocks) (htarget : target ∈ graph.blocks) :
    ∃ answer, follows program source target = .ok answer := by
  unfold follows
  split
  · next exit entry hexit hentry =>
    have hexit := List.mem_of_getLast? hexit
    obtain ⟨_, hrow⟩ := hconsistent.named source hsource exit hexit
    obtain ⟨_, hrow'⟩ := hconsistent.named target htarget entry (List.mem_of_head? hentry)
    obtain ⟨before, after, hlist, -⟩ := hrow.list
    obtain ⟨before', after', hlist', -⟩ := hrow'.list
    obtain ⟨node, hnode⟩ := hknown source hsource exit hexit
    split
    · rw [position?_of_list hlist, position?_of_list hlist']
      simp only [bind, Except.bind]
      split <;> exact ⟨_, rfl⟩
    · rw [hlist', Program.nestedLists_of_node hnode]
      simp only [bind, Except.bind]
      split <;> exact ⟨_, rfl⟩
  · exact ⟨false, rfl⟩

theorem exists_absorber? (hblock : block ∈ graph.blocks) :
    ∃ answer, graph.absorber? program block = .ok answer ∧
    ∀ absorber ∈ answer, ∃ source, graph.Mergeable program source block ∧ source.id = absorber := by
  unfold absorber?
  split
  · next only hpredecessors =>
    obtain ⟨previous, hprevious, rfl, -⟩ :=
      hconsistent.exists_source hblock (hpredecessors ▸ List.mem_singleton_self _)
    rw [hconsistent.located.block_eq_ok_iff.mpr ⟨hprevious, rfl⟩]
    simp only [bind, Except.bind]
    split
    · next hother =>
      obtain ⟨answer, hanswer⟩ := hconsistent.exists_follows hknown hprevious hblock
      rw [hanswer]
      cases answer with
      | false => exact ⟨none, rfl, nofun⟩
      | true =>
        refine ⟨some previous.id, rfl,
          fun absorber habsorber => ⟨previous, ?_, Option.some.inj habsorber⟩⟩
        exact ⟨⟨hprevious, hblock, hother.2, hpredecessors⟩, hother.1, hanswer⟩
    · exact ⟨none, rfl, nofun⟩
  · exact ⟨none, rfl, nofun⟩

theorem exists_mergeCandidate? {blocks : List BasicBlock} (hblocks : blocks ⊆ graph.blocks) :
    ∃ answer, graph.mergeCandidate? program blocks = .ok answer ∧
      ∀ found ∈ answer, ∃ source, graph.Mergeable program source found.2 ∧ source.id = found.1 := by
  induction blocks with
  | nil => exact ⟨none, rfl, nofun⟩
  | cons block blocks ih =>
    obtain ⟨hblock, hblocks⟩ := List.cons_subset.mp hblocks
    obtain ⟨absorber, habsorber, hmergeable⟩ := hconsistent.exists_absorber? hknown hblock
    rw [mergeCandidate?, habsorber]
    cases absorber with
    | none => exact ih hblocks
    | some absorber =>
      refine ⟨some (absorber, block), rfl, fun found hfound => ?_⟩
      obtain rfl := Option.some.inj hfound
      exact hmergeable absorber rfl

end

end Consistent

/-! ### One merge -/

namespace Mergeable

variable (hmergeable : graph.Mergeable program source target)

include hmergeable

/-- A merge does not crash. -/
theorem exists_absorb (hcoherent : graph.Coherent) :
    ∃ graph', graph.absorb source.id target = .ok graph' := by
  have htarget := hmergeable.straight.target_mem
  refine hcoherent.located.exists_absorb
    (mem_ids_iff.mpr ⟨source, hmergeable.straight.source_mem, rfl⟩)
    hmergeable.other (hcoherent.live target htarget).2 fun hself => hmergeable.other ?_
  rw [(hcoherent.target_mem_successors_iff hmergeable.straight htarget).mp hself]

section

variable (hconsistent : graph.Consistent program)
  (habsorb : graph.absorb source.id target = .ok graph')

include hconsistent

/-- The ranges of a block after a merge, and their statements. -/
theorem exists_names_merged (hblock : block ∈ graph.blocks) {rows : List (List NodeId)}
    (hrows : List.Forall₂ (BlockRange.Names program) block.ranges rows) {rows' : List (List NodeId)}
    (hrows' : List.Forall₂ (BlockRange.Names program) target.ranges rows') :
    ∃ joined,
      List.Forall₂ (BlockRange.Names program) (block.merged source.id target).ranges joined ∧
      joined.flatten = if block = source then rows.flatten ++ rows'.flatten else rows.flatten := by
  have hsource := hmergeable.straight.source_mem
  have hend : block.id = source.id ↔ block = source :=
    ⟨hconsistent.located.eq_of_id hblock hsource, fun hsame => hsame ▸ rfl⟩
  simp only [BasicBlock.merged, hend]
  split
  · next hsame =>
    subst hsame
    exact exists_names_joinRanges hmergeable.follows hrows hrows'
  · exact ⟨rows, hrows, rfl⟩

include habsorb

theorem consistent_absorb : graph'.Consistent program where
  toCoherent := hconsistent.absorb hmergeable.straight hmergeable.other habsorb
  named block' hblock' range hrange := by
    obtain ⟨block, ⟨hblock, -⟩, rfl⟩ :=
      (hconsistent.mem_blocks_absorb hmergeable.straight habsorb).mp hblock'
    obtain ⟨rows, hrows⟩ := hconsistent.exists_names hblock
    obtain ⟨rows', hrows'⟩ := hconsistent.exists_names hmergeable.straight.target_mem
    obtain ⟨joined, hjoined, -⟩ := hmergeable.exists_names_merged hconsistent hblock hrows hrows'
    obtain ⟨row, -, hrow⟩ := exists_of_forall₂ hjoined hrange
    exact ⟨row, hrow⟩

theorem endsKnown_absorb (hknown : graph.EndsKnown program) : graph'.EndsKnown program := by
  intro block' hblock' range hrange
  obtain ⟨block, ⟨hblock, -⟩, rfl⟩ :=
    (hconsistent.mem_blocks_absorb hmergeable.straight habsorb).mp hblock'
  simp only [BasicBlock.merged] at hrange
  split at hrange
  · obtain ⟨other, hother, hlast⟩ := exists_last_of_mem_joinRanges hrange
    rw [hlast]
    rcases List.mem_append.mp hother with hother | hother
    · exact hknown block hblock other hother
    · exact hknown target hmergeable.straight.target_mem other hother
  · exact hknown block hblock range hrange

omit habsorb in
/-- The blocks but for the one that is to be absorbed. -/
theorem blocks_perm :
    graph.blocks.Perm (target :: graph.blocks.filter fun other => other.id ≠ target.id) := by
  have hnodup : graph.blocks.Nodup := List.Nodup.of_map BasicBlock.id hconsistent.located.nodup_ids
  have hfilter :
      graph.blocks.erase target = graph.blocks.filter fun other => other.id ≠ target.id := by
    rw [hnodup.erase_eq_filter]
    refine List.filter_congr fun other hother => ?_
    by_cases hsame : other = target
    · simp [hsame]
    · have hid : other.id ≠ target.id := fun hid =>
        hsame (hconsistent.located.eq_of_id hother hmergeable.straight.target_mem hid)
      simp [hsame, hid]
  exact hfilter ▸ List.perm_cons_erase hmergeable.straight.target_mem

theorem size_absorb : graph'.size + 1 = graph.size := by
  rw [size, size, hconsistent.blocks_absorb hmergeable.straight habsorb, List.length_map,
    (hmergeable.blocks_perm hconsistent).length_eq, List.length_cons]

/-- No block gets lost when two chains become one. -/
theorem perm_absorb (chain : BlockId → List BasicBlock) : (graph'.blocks.flatMap fun block =>
    Function.update chain source.id (chain source.id ++ chain target.id) block.id).Perm
      (graph.blocks.flatMap fun block => chain block.id) := by
  have hkept : source ∈ graph.blocks.filter fun other => other.id ≠ target.id :=
    List.mem_filter.mpr ⟨hmergeable.straight.source_mem, decide_eq_true hmergeable.other⟩
  have hsplit := List.perm_cons_erase hkept
  have hothers : ∀ other ∈ (graph.blocks.filter fun other => other.id ≠ target.id).erase source,
      Function.update chain source.id (chain source.id ++ chain target.id) other.id =
        chain other.id := by
    intro other hother
    have hnodup := (List.Nodup.of_map BasicBlock.id hconsistent.located.nodup_ids).filter
      fun other => other.id ≠ target.id
    obtain ⟨hne, hother⟩ := hnodup.mem_erase_iff.mp hother
    refine Function.update_of_ne (fun hsame => hne ?_) _ _
    exact hconsistent.located.eq_of_id (List.mem_of_mem_filter hother)
      hmergeable.straight.source_mem hsame
  refine .trans ?_
    (((hmergeable.blocks_perm hconsistent).trans (hsplit.cons target)).flatMap_right _).symm
  rw [hconsistent.blocks_absorb hmergeable.straight habsorb, List.flatMap_map]
  refine (hsplit.flatMap_right _).trans ?_
  simp only [List.flatMap_cons, BasicBlock.id_merged, Function.update_self,
    List.flatMap_congr hothers]
  rw [← List.append_assoc (chain target.id)]
  exact List.perm_append_comm.append_right _

end

end Mergeable

/-! ### Chains -/

/-- Each block that is left is a chain of straight edges of the first graph made one, and leads
where the last block of the chain led; no edge that is left led anywhere else. -/
structure Condenses (program : Program) (graph merged : Graph) (chain : BlockId → List BasicBlock) :
    Prop where
  perm : (merged.blocks.flatMap fun block => chain block.id).Perm graph.blocks
  straight : ∀ block ∈ merged.blocks, (chain block.id).IsChain graph.Straight
  gathers : ∀ block ∈ merged.blocks, Gathers program (chain block.id) block
  successors : ∀ block ∈ merged.blocks, ∀ last ∈ (chain block.id).getLast?,
    block.successors = last.successors
  tails : ∀ block ∈ merged.blocks, ∀ member ∈ chain block.id,
    ∀ id ∈ member.successors, id ∈ merged.ids →
    member ∈ (chain block.id).getLast?

theorem Consistent.condenses_self (hconsistent : graph.Consistent program) :
    graph.Condenses program graph fun id => (graph.block id).toOption.toList := by
  have hself {block : BasicBlock} (hblock : block ∈ graph.blocks) :
      (graph.block block.id).toOption.toList = [block] := by
    rw [hconsistent.located.block_eq_ok_iff.mpr ⟨hblock, rfl⟩]
    rfl
  refine ⟨?_, ?_, ?_, ?_, ?_⟩
  · rw [List.flatMap_congr fun block => hself, List.flatMap_singleton']
  · intro block hblock
    rw [hself hblock]
    exact List.isChain_singleton block
  · intro block hblock
    obtain ⟨rows, hrows⟩ := hconsistent.exists_names hblock
    have hstatements : block.statements program = .ok rows.flatten := by
      rw [BasicBlock.statements, mapM_statements_of_names hrows]
      rfl
    rw [hself hblock]
    exact ⟨rfl, by simp [joinAll],
      [rows.flatten], by simp [hstatements], by simpa using hstatements⟩
  · intro block hblock last hlast
    rw [hself hblock] at hlast
    obtain rfl := Option.some.inj hlast
    rfl
  · intro block hblock member hmember _ _ _
    rw [hself hblock] at hmember ⊢
    rw [List.mem_singleton.mp hmember]
    rfl

namespace Condenses

variable {between merged : Graph} {chain : BlockId → List BasicBlock}

theorem exists_chain (hcondenses : graph.Condenses program merged chain)
    (hblock : block ∈ graph.blocks) :
    ∃ other ∈ merged.blocks, block ∈ chain other.id :=
  List.mem_flatMap.mp (hcondenses.perm.mem_iff.mpr hblock)

theorem mem_of_mem_chain (hcondenses : graph.Condenses program merged chain)
    (hblock : block ∈ merged.blocks) {member : BasicBlock} (hmember : member ∈ chain block.id) :
    member ∈ graph.blocks :=
  hcondenses.perm.mem_iff.mp (List.mem_flatMap.mpr ⟨block, hblock, hmember⟩)

section

variable (hcondenses : graph.Condenses program between chain) (hgraph : graph.Coherent)
  (hbetween : between.Consistent program) (hmergeable : between.Mergeable program source target)

include hcondenses hgraph hbetween hmergeable

/-- Where two blocks can be merged, a straight edge of the first graph leads from the one chain to
the other. -/
theorem straight_ends {last first : BasicBlock} (hlast : last ∈ (chain source.id).getLast?)
    (hfirst : first ∈ (chain target.id).head?) : graph.Straight last first := by
  have hsource := hmergeable.straight.source_mem
  have htarget := hmergeable.straight.target_mem
  have hlastMem := hcondenses.mem_of_mem_chain hsource (List.mem_of_getLast? hlast)
  have hfirstMem := hcondenses.mem_of_mem_chain htarget (List.mem_of_head? hfirst)
  have hid : first.id = target.id := by
    have hgathers := (hcondenses.gathers target htarget).id
    rw [hfirst] at hgathers
    exact Option.some.inj hgathers
  have hleads : last.successors = [first.id] := by
    rw [← hcondenses.successors source hsource last hlast, hmergeable.straight.successors, hid]
  refine ⟨hlastMem, hfirstMem, hleads,
    ((hgraph.ascending first hfirstMem).1.eq_singleton_iff).mpr ⟨?_, fun id hid' => ?_⟩⟩
  · exact (hgraph.symmetric last hlastMem first hfirstMem).mp (hleads ▸ List.mem_singleton_self _)
  · -- whatever leads to the target ends the chain of a block that does, and only the source does
    obtain ⟨previous, hprevious, rfl, hleads'⟩ := hgraph.exists_source hfirstMem hid'
    obtain ⟨block, hblock, hmember⟩ := hcondenses.exists_chain hprevious
    rw [hid] at hleads'
    have htail := hcondenses.tails block hblock previous hmember target.id hleads'
      (mem_ids_iff.mpr ⟨target, htarget, rfl⟩)
    rw [← hcondenses.successors block hblock previous htail] at hleads'
    obtain rfl := (hbetween.target_mem_successors_iff hmergeable.straight hblock).mp hleads'
    exact congrArg BasicBlock.id (Option.some.inj (htail.symm.trans hlast))

omit hgraph in
theorem gathers_merged :
    Gathers program (chain source.id ++ chain target.id) (source.merged source.id target) := by
  have hsource := hmergeable.straight.source_mem
  have htarget := hmergeable.straight.target_mem
  have hfirst := hcondenses.gathers source hsource
  have hsecond := hcondenses.gathers target htarget
  obtain ⟨rows, hrows⟩ := hbetween.exists_names hsource
  obtain ⟨rows', hrows'⟩ := hbetween.exists_names htarget
  obtain ⟨joined, hjoined, hflatten⟩ := hmergeable.exists_names_merged hbetween hsource hrows hrows'
  have hstatements {block : BasicBlock} {rows : List (List NodeId)}
      (hrows : List.Forall₂ (BlockRange.Names program) block.ranges rows) :
      block.statements program = .ok rows.flatten := by
    rw [BasicBlock.statements, mapM_statements_of_names hrows]
    rfl
  obtain ⟨texts, htexts, hfirstText⟩ := hfirst.statements
  obtain ⟨texts', htexts', hsecondText⟩ := hsecond.statements
  have htext := Except.ok.inj ((hstatements hrows).symm.trans hfirstText)
  have htext' := Except.ok.inj ((hstatements hrows').symm.trans hsecondText)
  refine ⟨?_, ?_, texts ++ texts', by rw [List.mapM_append, htexts, htexts']; rfl, ?_⟩
  · rw [List.head?_append, Option.map_or, hfirst.id]
    rfl
  · rw [joinAll_append, ← hfirst.ranges, ← hsecond.ranges]
    exact if_pos rfl
  · rw [hstatements hjoined, hflatten, if_pos rfl, htext, htext', List.flatten_append]

variable (habsorb : between.absorb source.id target = .ok merged)

include habsorb

/-- A merge puts two chains together. -/
theorem absorb : graph.Condenses program merged
    (Function.update chain source.id (chain source.id ++ chain target.id)) := by
  have hsource := hmergeable.straight.source_mem
  have htarget := hmergeable.straight.target_mem
  have hmem {block : BasicBlock} : block ∈ merged.blocks ↔
      ∃ other, (other ∈ between.blocks ∧ other ≠ target) ∧ other.merged source.id target = block :=
    hbetween.mem_blocks_absorb hmergeable.straight habsorb
  have hids {id : BlockId} : id ∈ merged.ids ↔ id ∈ between.ids ∧ id ≠ target.id :=
    hbetween.mem_ids_absorb hmergeable.straight habsorb
  have hend {block : BasicBlock} (hblock : block ∈ between.blocks) :
      block.id = source.id ↔ block = source :=
    ⟨hbetween.located.eq_of_id hblock hsource, fun hsame => hsame ▸ rfl⟩
  -- the chain of a block after the merge
  have hchain {block : BasicBlock} (hblock : block ∈ between.blocks) :
      Function.update chain source.id (chain source.id ++ chain target.id) block.id =
        if block = source then chain source.id ++ chain target.id else chain block.id := by
    simp only [Function.update_apply, hend hblock]
  have hnonempty {block : BasicBlock} (hblock : block ∈ between.blocks) : chain block.id ≠ [] := by
    intro hnil
    have hid := (hcondenses.gathers block hblock).id
    rw [hnil] at hid
    cases hid
  refine ⟨?_, fun block' hblock' => ?_, fun block' hblock' => ?_,
    fun block' hblock' last hlast => ?_, fun block' hblock' member hmember id hid hlive => ?_⟩
  · exact (hmergeable.perm_absorb hbetween habsorb chain).trans hcondenses.perm
  all_goals
    obtain ⟨block, ⟨hblock, hne⟩, rfl⟩ := hmem.mp hblock'
    simp only [BasicBlock.id_merged, hchain hblock] at *
  · split
    · exact (hcondenses.straight source hsource).append (hcondenses.straight target htarget)
        fun last hlast first hfirst =>
        hcondenses.straight_ends hgraph hbetween hmergeable hlast hfirst
    · exact hcondenses.straight block hblock
  · split
    · next hsame =>
      subst hsame
      exact hcondenses.gathers_merged hbetween hmergeable
    · next hother =>
      refine (hcondenses.gathers block hblock).congr rfl
        (if_neg fun hsame => hother ((hend hblock).mp hsame))
  · rw [hbetween.successors_merged hmergeable.straight hblock]
    split at hlast
    · next hsame =>
      rw [if_pos hsame]
      rw [List.getLast?_append_of_ne_nil _ (hnonempty htarget)] at hlast
      exact hcondenses.successors target htarget last hlast
    · next hother =>
      rw [if_neg hother]
      exact hcondenses.successors block hblock last hlast
  · obtain ⟨hlive, hid'⟩ := hids.mp hlive
    split at hmember
    · next hsame =>
      rw [if_pos hsame, List.getLast?_append_of_ne_nil _ (hnonempty htarget)]
      rcases List.mem_append.mp hmember with hmember | hmember
      · -- the end of the first chain leads to the target only
        have htail := hcondenses.tails source hsource member hmember id hid hlive
        rw [← hcondenses.successors source hsource member htail,
          hmergeable.straight.successors] at hid
        exact absurd (List.mem_singleton.mp hid) hid'
      · exact hcondenses.tails target htarget member hmember id hid hlive
    · next hother =>
      rw [if_neg hother]
      exact hcondenses.tails block hblock member hmember id hid hlive

end

/-- The edges that are left are those of the first graph that lead into the first block of a chain,
out of the block that the chain has become. -/
theorem hasEdge_iff (hcondenses : graph.Condenses program merged chain) (hgraph : graph.Coherent)
    (hmerged : merged.Coherent) {start stop : BlockId} :
    merged.HasEdge start stop ↔
      start ∈ merged.ids ∧ stop ∈ merged.ids ∧ ∃ member ∈ chain start,
        graph.HasEdge member.id stop := by
  constructor
  · rintro ⟨block, hblock, rfl, hleads⟩
    have hlast : ∃ last, last ∈ (chain block.id).getLast? := by
      rcases List.eq_nil_or_concat' (chain block.id) with hnil | ⟨before, last, hchain⟩
      · have hid := (hcondenses.gathers block hblock).id
        rw [hnil] at hid
        cases hid
      · exact ⟨last, by simp [hchain]⟩
    obtain ⟨last, hlast⟩ := hlast
    have hmember := List.mem_of_getLast? hlast
    refine ⟨mem_ids_iff.mpr ⟨block, hblock, rfl⟩, (hmerged.live block hblock).2 hleads, last,
      hmember, last, hcondenses.mem_of_mem_chain hblock hmember, rfl, ?_⟩
    exact hcondenses.successors block hblock last hlast ▸ hleads
  · rintro ⟨hstart, hstop, member, hmember, found, hfound, hsame, hleads⟩
    obtain ⟨block, hblock, rfl⟩ := mem_ids_iff.mp hstart
    obtain rfl := hgraph.located.eq_of_id hfound (hcondenses.mem_of_mem_chain hblock hmember) hsame
    have htail := hcondenses.tails block hblock found hmember stop hleads hstop
    exact ⟨block, hblock, rfl, hcondenses.successors block hblock found htail ▸ hleads⟩

theorem rows_eq_map {blocks : List BasicBlock} {rows : List (List NodeId)}
    (hrows : blocks.mapM (fun block => block.statements program) = .ok rows) :
    rows = blocks.map (BasicBlock.row program) := by
  induction blocks generalizing rows with
  | nil => exact (Except.ok.inj hrows).symm
  | cons block blocks ih =>
    obtain ⟨row, later, hrow, hlater, rfl⟩ := mapM_cons_eq_ok_iff.mp hrows
    rw [List.map_cons, ← ih hlater, BasicBlock.row, hrow]

/-- The statements that the blocks have together are what they were. -/
theorem perm_rows (hcondenses : graph.Condenses program merged chain) :
    (merged.blocks.flatMap (BasicBlock.row program)).Perm
      (graph.blocks.flatMap (BasicBlock.row program)) := by
  have hrows : ∀ block ∈ merged.blocks,
      block.row program = (chain block.id).flatMap (BasicBlock.row program) := by
    intro block hblock
    obtain ⟨rows, hrows, hstatements⟩ := (hcondenses.gathers block hblock).statements
    rw [BasicBlock.row, hstatements, rows_eq_map hrows, List.flatMap_def]
  rw [List.flatMap_congr hrows, ← List.flatMap_assoc]
  exact hcondenses.perm.flatMap_right _

end Condenses

/-! ### Merging until nothing is left to merge -/

/-- Merging with enough merges to spend comes to an end where nothing can be merged. -/
theorem Consistent.exists_mergeWithin {between : Graph} {merges : Nat}
    {chain : BlockId → List BasicBlock} (hbetween : between.Consistent program)
    (hknown : between.EndsKnown program) (hgraph : graph.Coherent)
    (hcondenses : graph.Condenses program between chain) (hsize : between.size ≤ merges) :
    ∃ count merged, mergeWithin program merges between = .ok (count, merged) ∧
      merged.size + count = between.size ∧
      merged.Consistent program ∧ merged.mergeCandidate? program merged.blocks = .ok none ∧
        ∃ chain, graph.Condenses program merged chain := by
  induction merges generalizing between chain with
  | zero =>
    have hnil : between.blocks = [] := List.length_eq_zero_iff.mp (Nat.le_zero.mp hsize)
    exact ⟨0, between, rfl, rfl, hbetween, by rw [hnil]; rfl, chain, hcondenses⟩
  | succ merges ih =>
    obtain ⟨candidate, hcandidate, hmergeable⟩ :=
      hbetween.exists_mergeCandidate? hknown (List.Subset.refl _)
    rw [mergeWithin, hcandidate]
    cases candidate with
    | none => exact ⟨0, between, rfl, rfl, hbetween, hcandidate, chain, hcondenses⟩
    | some candidate =>
      obtain ⟨absorber, target⟩ := candidate
      obtain ⟨source, hmergeable, rfl⟩ := hmergeable _ rfl
      obtain ⟨next, habsorb⟩ := hmergeable.exists_absorb hbetween.toCoherent
      have hless := hmergeable.size_absorb hbetween habsorb
      obtain ⟨count, merged, hmerge, hcount, hrest⟩ :=
        ih (hmergeable.consistent_absorb hbetween habsorb)
        (hmergeable.endsKnown_absorb hbetween habsorb hknown)
        (hcondenses.absorb hgraph hbetween hmergeable habsorb) (by omega)
      refine ⟨count + 1, merged, ?_, by omega, hrest⟩
      dsimp only [bind, Except.bind]
      rw [habsorb]
      dsimp only
      rw [hmerge]
      rfl

/-- Merging in a consistent graph, whatever its edges, comes to an end where nothing can be merged,
and leaves a consistent graph with one block less for each merge. Every block is a chain of straight
edges made one, with the statements of all of its members in this order, and no statement gets lost
or comes in a second time. The edges are those that led into the first block of a chain, and they
lead out of the block that their beginning has become part of. -/
theorem condenses_of_mergeChains (hconsistent : graph.Consistent program)
    (hknown : graph.EndsKnown program) :
    ∃ count merged, graph.mergeChains program = .ok (count, merged) ∧
      merged.size + count = graph.size ∧
      merged.Consistent program ∧ merged.mergeCandidate? program merged.blocks = .ok none ∧
      (merged.blocks.flatMap (BasicBlock.row program)).Perm
        (graph.blocks.flatMap (BasicBlock.row program)) ∧
      ∃ chain : BlockId → List BasicBlock,
        (merged.blocks.flatMap fun block => chain block.id).Perm graph.blocks ∧
        (∀ block ∈ merged.blocks, (chain block.id).IsChain graph.Straight ∧
          Gathers program (chain block.id) block) ∧
        ∀ start stop, merged.HasEdge start stop ↔
          start ∈ merged.ids ∧ stop ∈ merged.ids ∧ ∃ member ∈ chain start,
            graph.HasEdge member.id stop := by
  obtain ⟨count, merged, hmerge, hcount, hmerged, hnone, chain, hcondenses⟩ :=
    hconsistent.exists_mergeWithin hknown hconsistent.toCoherent hconsistent.condenses_self
      (Nat.le_refl _)
  exact ⟨count, merged, hmerge, hcount, hmerged, hnone,
    hcondenses.perm_rows, chain, hcondenses.perm,
    fun block hblock => ⟨hcondenses.straight block hblock, hcondenses.gathers block hblock⟩,
    fun start stop => hcondenses.hasEdge_iff hconsistent.toCoherent hmerged.toCoherent⟩

theorem located_of_forall {graph : Graph}
    (hplaces : ∀ place ∈ graph.slots.toList.zipIdx, ∀ block ∈ place.1,
      block.id = ⟨place.2⟩) : graph.Located := by
  intro index block hslot
  rw [← Array.getElem?_toList] at hslot
  exact hplaces (some block, index) (List.mem_zipIdx_iff_getElem?.mpr hslot) block rfl

/-- Three blocks in a circle, each behind the one before it in the list. -/
def circle : Graph where
  slots := #[some ⟨⟨0⟩, [⟨.root, ⟨2⟩, ⟨2⟩⟩], [⟨2⟩], [⟨1⟩]⟩,
    some ⟨⟨1⟩, [⟨.root, ⟨15⟩, ⟨15⟩⟩], [⟨0⟩], [⟨2⟩]⟩,
    some ⟨⟨2⟩, [⟨.root, ⟨16⟩, ⟨16⟩⟩], [⟨1⟩], [⟨0⟩]⟩]

theorem consistent_circle : circle.Consistent nestedBodies where
  located := located_of_forall (by decide)
  ascending := by simp [blocks, circle, BlockSet.Ascending]
  live := by decide
  symmetric := by decide
  named := by
    simp only [blocks, circle, List.filterMap_cons, List.filterMap_nil, id, List.forall_mem_cons,
      List.not_mem_nil, IsEmpty.forall_iff, implies_true, and_true]
    exact ⟨⟨[⟨2⟩], rfl, rfl, [], [⟨15⟩, ⟨16⟩, ⟨21⟩], rfl, by decide⟩,
      ⟨[⟨15⟩], rfl, rfl, [⟨2⟩], [⟨16⟩, ⟨21⟩], rfl, by decide⟩,
      [⟨16⟩], rfl, rfl, [⟨2⟩, ⟨15⟩], [⟨21⟩], rfl, by decide⟩

/-- One block is left of the circle, with an edge to itself. -/
theorem condenses_of_mergeChains_circle :
    ∃ merged, circle.mergeChains nestedBodies = .ok (2, merged) ∧
    merged.size = 1 ∧ merged.Consistent nestedBodies ∧ merged.HasEdge ⟨0⟩ ⟨0⟩ ∧
    (merged.blocks.flatMap (BasicBlock.row nestedBodies)).Perm [⟨2⟩, ⟨15⟩, ⟨16⟩] := by
  have hknown : circle.EndsKnown nestedBodies := by
    simp only [EndsKnown, blocks, circle, List.filterMap_cons, List.filterMap_nil, id,
      List.forall_mem_cons, List.not_mem_nil, IsEmpty.forall_iff, implies_true, and_true]
    exact ⟨⟨_, rfl⟩, ⟨_, rfl⟩, _, rfl⟩
  obtain ⟨count, merged, hmerge, hsize, hmerged, -, hrows, -⟩ :=
    condenses_of_mergeChains consistent_circle hknown
  have hreached : circle.mergeChains nestedBodies = .ok (2,
      ⟨#[some ⟨⟨0⟩, [⟨.root, ⟨2⟩, ⟨16⟩⟩], [⟨0⟩], [⟨0⟩]⟩, none, none], false⟩) := by decide +kernel
  obtain ⟨rfl, rfl⟩ := Prod.mk.inj (Except.ok.inj (hmerge.symm.trans hreached))
  exact ⟨_, hmerge, rfl, hmerged,
    ⟨_, List.mem_singleton_self _, rfl, List.mem_singleton_self _⟩, hrows⟩

/-- A program whose text ends in a statement that is not there. -/
def unknownEnd : Program where
  nodes := #[.variable ⟨0⟩, .variable ⟨1⟩, .assign ⟨0⟩ ⟨1⟩ 0, .variable ⟨2⟩, .branch ⟨3⟩ [⟨2⟩] []]
  vars := #[⟨"x", .float, .auto⟩, ⟨"y", .float, .input⟩, ⟨"c", .bool, .input⟩]
  body := [⟨4⟩, ⟨9⟩]

def unknownEndLinked : Graph where
  slots := #[some ⟨⟨0⟩, [⟨.root, ⟨4⟩, ⟨9⟩⟩], [], [⟨1⟩]⟩,
    some ⟨⟨1⟩, [⟨.thenBody ⟨4⟩, ⟨2⟩, ⟨2⟩⟩], [⟨0⟩], []⟩]

/-- Merging looks for the bodies of the statement that is not there. -/
theorem mergeChains_unknownEnd : unknownEndLinked.Consistent unknownEnd ∧
    unknownEndLinked.mergeChains unknownEnd = .error (.outOfBounds 5 9) := by
  refine ⟨⟨⟨located_of_forall (by decide), ?_, by decide, by decide⟩, ?_⟩, by decide +kernel⟩
  · simp [blocks, unknownEndLinked, BlockSet.Ascending]
  · simp only [blocks, unknownEndLinked, List.filterMap_cons, List.filterMap_nil, id,
      List.forall_mem_cons, List.not_mem_nil, IsEmpty.forall_iff, implies_true, and_true]
    exact ⟨⟨[⟨4⟩, ⟨9⟩], rfl, rfl, [], [], rfl, by decide⟩, [⟨2⟩], rfl, rfl, [], [], rfl, by decide⟩

end Graph

end ShaderIR
