import ShaderIR.Graph.Build
import ShaderIR.Proofs.Graph.Layout
import Mathlib.Logic.Relation

/-!
Merging of straight lines. An edge that is the only one out of its source and the only one into its
target joins neighbours (`Graph.Depicts.exists_adjoins`), so the guard of `Graph.follows` lets it
pass. A merge along such an edge leaves a graph that depicts the same code (`Graph.Depicts.absorb`).
-/

set_option autoImplicit false

namespace ShaderIR

variable {program : Program} {code : Code}

/-! ### Bodies and their owners -/

/-- A statement does not stand in a body of its own. -/
theorem Code.not_mem_of_owner {entry : ListRef × List NodeId} {owner : NodeId}
    (hnodup : code.order.Nodup) (hentry : entry ∈ code.bodies)
    (howner : entry.1.owner? = some owner) : owner ∉ entry.2 := by
  induction code with
  | nil => cases hentry
  | step statement rest ih => exact ih (List.nodup_cons.mp hnodup).2 hentry
  | branch statement thenBody elseBody rest ihthen ihelse ih =>
    simp only [order_branch, List.nodup_cons, List.mem_append, not_or, List.nodup_append'] at hnodup
    obtain ⟨⟨⟨hthen, helse⟩, -⟩, ⟨hthenNodup, helseNodup, -⟩, hrest, -⟩ := hnodup
    simp only [bodies, List.mem_append, List.mem_cons] at hentry
    rcases hentry with ((rfl | hentry) | rfl | hentry) | hentry
    · obtain rfl : statement.id = owner := Option.some.inj howner
      exact fun hmem => hthen (thenBody.heads_subset_order hmem)
    · exact ihthen hthenNodup hentry
    · obtain rfl : statement.id = owner := Option.some.inj howner
      exact fun hmem => helse (elseBody.heads_subset_order hmem)
    · exact ihelse helseNodup hentry
    · exact ih hrest hentry
  | loop statement body rest ihbody ih =>
    simp only [order_loop, List.nodup_cons, List.mem_append, not_or, List.nodup_append'] at hnodup
    obtain ⟨⟨hbody, -⟩, hbodyNodup, hrest, -⟩ := hnodup
    simp only [bodies, List.mem_append, List.mem_cons] at hentry
    rcases hentry with (rfl | hentry) | hentry
    · obtain rfl : statement.id = owner := Option.some.inj howner
      exact fun hmem => hbody (body.heads_subset_order hmem)
    · exact ihbody hbodyNodup hentry
    · exact ih hrest hentry

/-- Without loops, every body belongs to a conditional. -/
theorem Program.FramesCode.exists_branch_of_mem_bodies (hframed : program.FramesCode code)
    (hloopless : code.Loopless) {entry : ListRef × List NodeId} (hentry : entry ∈ code.bodies) :
    ∃ owner condition thenBody elseBody,
      program.node owner = .ok (.branch condition thenBody elseBody) ∧
      (entry.1 = .thenBody owner ∨ entry.1 = .elseBody owner) := by
  induction hframed with
  | nil => cases hentry
  | step _ _ _ ih => exact ih hloopless hentry
  | branch hstatement hbranch _ _ _ ihthen ihelse ih =>
    have hnode := hbranch ▸ hstatement
    simp only [Code.bodies, List.mem_append, List.mem_cons] at hentry
    rcases hentry with ((rfl | hentry) | rfl | hentry) | hentry
    · exact ⟨_, _, _, _, hnode, Or.inl rfl⟩
    · exact ihthen hloopless.1 hentry
    · exact ⟨_, _, _, _, hnode, Or.inr rfl⟩
    · exact ihelse hloopless.2.1 hentry
    · exact ih hloopless.2.2 hentry
  | loop => exact hloopless.elim

/-! ### Neighbouring ranges -/

/-- A range goes on in the list in which the other one ends, or opens a body of its last
statement. -/
inductive BlockRange.Adjoins (program : Program) (code : Code) (exit entry : BlockRange) : Prop
  | list (hsame : entry.list = exit.list) (hnext : ∃ before later,
      (exit.list, before ++ exit.last :: entry.first :: later) ∈ code.lists .root)
  | body (hother : entry.list ≠ exit.list) (hopens : exit.Opens program entry)

/-- Ranges are neighbours when their ends are. -/
theorem BlockRange.Covers.adjoins {exit entry : BlockRange} {row row' : List NodeId}
    (hexit : exit.Covers code row) (hentry : entry.Covers code row') (hframes : program.Frames code)
    (hloopless : code.Loopless) (hadjoining : code.Adjoining exit.last entry.first) :
    exit.Adjoins program code entry := by
  have hnodup := hframes.nodup_order
  obtain ⟨before, after, hexitList⟩ := hexit.list
  obtain ⟨before', after', hentryList⟩ := hentry.list
  have hlast : exit.last ∈ before ++ row ++ after := by
    simp [List.mem_of_getLast? hexit.last]
  have hfirst : entry.first ∈ before' ++ row' ++ after' := by
    simp [List.mem_of_head? hentry.first]
  have hsame {ref : ListRef} {earlier later : List NodeId}
      (hlist : (ref, earlier ++ exit.last :: entry.first :: later) ∈ code.lists .root) :
      exit.Adjoins program code entry := by
    obtain ⟨hexitRef, -⟩ :=
      Prod.mk.inj (Code.eq_of_mem_lists hnodup hexitList hlist hlast (by simp))
    obtain ⟨hentryRef, -⟩ :=
      Prod.mk.inj (Code.eq_of_mem_lists hnodup hentryList hlist hfirst (by simp))
    exact .list (hentryRef.trans hexitRef.symm) ⟨_, _, hexitRef ▸ hlist⟩
  rcases hadjoining with
    ⟨earlier, later, hheads⟩ | ⟨⟨ref, body⟩, hbody, ⟨earlier, later, hlist⟩ | ⟨howner, hhead⟩⟩
  · have hroot : (ListRef.root, code.heads) ∈ code.lists .root := List.mem_cons_self
    exact hsame (hheads ▸ hroot)
  · obtain rfl : body = _ := hlist
    exact hsame (List.mem_cons_of_mem _ hbody)
  · have hmem := List.mem_cons_of_mem (ListRef.root, code.heads) hbody
    obtain ⟨rfl, -⟩ := Prod.mk.inj
      (Code.eq_of_mem_lists hnodup hentryList hmem hfirst (List.mem_of_head? hhead))
    have hread := hframes.list_of_mem_lists hmem
    obtain ⟨owner, condition, thenBody, elseBody, hnode, hbodyOf⟩ :=
      hframes.framed.exists_branch_of_mem_bodies hloopless hbody
    obtain rfl : owner = exit.last := by
      dsimp only at hbodyOf howner
      rcases hbodyOf with hlist | hlist <;> rw [hlist] at howner <;> exact Option.some.inj howner
    refine .body (fun hsame => ?_) ⟨⟨_, _, _, hnode⟩, hbodyOf, body, hread, hhead⟩
    -- the last statement of `exit` would stand in its own body
    rw [← hsame] at hexitList
    have hsameList := Except.ok.inj ((hframes.list_of_mem_lists hexitList).symm.trans hread)
    exact Code.not_mem_of_owner hnodup hbody howner (hsameList ▸ hlast)

/-- A range that goes on in the same list can be made one with the other. -/
theorem BlockRange.Covers.extended {exit entry : BlockRange} {row row' : List NodeId}
    (hexit : exit.Covers code row) (hentry : entry.Covers code row') (hnodup : code.order.Nodup)
    {before later : List NodeId}
    (hnext : (exit.list, before ++ exit.last :: entry.first :: later) ∈ code.lists .root) :
    ({ exit with last := entry.last } : BlockRange).Covers code (row ++ row') := by
  obtain ⟨earlier, after, hexitList⟩ := hexit.list
  obtain ⟨earlier', after', hentryList⟩ := hentry.list
  obtain ⟨head, hrow⟩ := List.getLast?_eq_some_iff.mp hexit.last
  obtain ⟨tail, hrow'⟩ := List.head?_eq_some_iff.mp hentry.first
  obtain ⟨-, hexitText⟩ := Prod.mk.inj (Code.eq_of_mem_lists hnodup hexitList hnext
    (by simp [hrow] : exit.last ∈ _) (by simp))
  obtain ⟨-, hentryText⟩ := Prod.mk.inj (Code.eq_of_mem_lists hnodup hentryList hnext
    (by simp [hrow'] : entry.first ∈ _) (by simp))
  have hnodupList : (before ++ exit.last :: entry.first :: later).Nodup :=
    Code.nodup_of_mem_lists hnodup hnext
  -- the list, split once behind the one range and once in front of the other one
  obtain ⟨hbefore, -, hafter⟩ : before = earlier ++ head ∧ exit.last = exit.last ∧
      entry.first :: later = after := by
    rw [List.nodup_append', List.nodup_cons] at hnodupList
    refine (List.append_cons_inj_of_notMem (fun hmem => hnodupList.2.2 hmem List.mem_cons_self)
      hnodupList.2.1.1).mp ?_
    rw [← hexitText, hrow]
    simp
  obtain ⟨-, -, hlater⟩ : before ++ [exit.last] = earlier' ∧ entry.first = entry.first ∧
      later = tail ++ after' := by
    rw [List.append_cons, List.nodup_append', List.nodup_cons] at hnodupList
    refine (List.append_cons_inj_of_notMem (fun hmem => hnodupList.2.2 hmem List.mem_cons_self)
      hnodupList.2.1.1).mp ?_
    rw [← List.append_cons, ← hentryText, hrow']
    simp
  refine ⟨?_, ?_, earlier, after', ?_⟩
  · rw [List.head?_append, hexit.first]
    rfl
  · rw [List.getLast?_append, hentry.last]
    rfl
  · have htext :
        earlier ++ (row ++ row') ++ after' = before ++ exit.last :: entry.first :: later := by
      rw [hrow, hrow', hbefore, hlater]
      simp
    exact htext ▸ hnext

/-! ### Merged blocks -/

theorem Graph.joinRanges_concat_cons (before : List BlockRange) (exit entry : BlockRange)
    (behind : List BlockRange) : joinRanges (before ++ [exit]) (entry :: behind) =
      if entry.list = exit.list then before ++ { exit with last := entry.last } :: behind
      else before ++ [exit] ++ entry :: behind := by
  simp [joinRanges]

/-- A block that goes on with the ranges of another one. -/
theorem BasicBlock.Holds.joined {source target : BasicBlock} {row row' : List NodeId}
    (hsource : source.Holds program code row) (htarget : target.Holds program code row')
    (hnodup : code.order.Nodup) {exit entry : BlockRange} (hexit : source.exit? = some exit)
    (hentry : target.entry? = some entry) (hadjoins : exit.Adjoins program code entry)
    (hchained : code.Chained none exit.last entry.first) {block : BasicBlock}
    (hranges : block.ranges = Graph.joinRanges source.ranges target.ranges) :
    block.Holds program code (row ++ row') := by
  obtain ⟨before, hbefore⟩ := List.getLast?_eq_some_iff.mp hexit
  obtain ⟨behind, hbehind⟩ := List.head?_eq_some_iff.mp hentry
  obtain ⟨rows, hrows, rfl⟩ := hsource.covers
  obtain ⟨rows', hrows', rfl⟩ := htarget.covers
  have hopens := hsource.opens
  have hopens' := htarget.opens
  have hlast := hsource.getLast?
  have hfirst := htarget.head?
  rw [BasicBlock.last?, hexit, Option.map_some] at hlast
  rw [BasicBlock.first?, hentry, Option.map_some] at hfirst
  rw [hbefore, hbehind, Graph.joinRanges_concat_cons] at hranges
  rw [hbefore] at hrows hopens
  rw [hbehind] at hrows' hopens'
  have hpassed : (rows.flatten ++ rows'.flatten).IsChain (code.Chained none) := by
    refine hsource.chained.append htarget.chained fun last hlast' first hfirst' => ?_
    obtain rfl : exit.last = last := Option.some.inj (hlast.symm.trans hlast')
    obtain rfl : entry.first = first := Option.some.inj (hfirst.symm.trans hfirst')
    exact hchained
  cases hadjoins with
  | list hsame hnext =>
    obtain ⟨earlier, later, hnext⟩ := hnext
    obtain ⟨rows, row, rfl, hrows, hrow⟩ := exists_concat_of_forall₂ hrows
    obtain ⟨row', rows', hrow', hbehindRows, rfl⟩ := List.forall₂_cons_left_iff.mp hrows'
    rw [if_pos hsame] at hranges
    refine ⟨by simp [hranges], ⟨rows ++ (row ++ row') :: rows', ?_, by simp⟩, ?_, hpassed⟩
    · rw [hranges]
      exact List.rel_append hrows (.cons (hrow.extended hrow' hnodup hnext) hbehindRows)
    · obtain ⟨hbefore, -, hexit⟩ := List.isChain_append.mp hopens
      obtain ⟨hentry, hbehind⟩ := List.isChain_cons.mp hopens'
      rw [hranges, List.isChain_append]
      refine ⟨hbefore, List.isChain_cons.mpr ⟨fun next hnext => ?_, hbehind⟩,
        fun previous hprevious => ?_⟩
      · exact ⟨(hentry next hnext).conditional, (hentry next hnext).body, (hentry next hnext).first⟩
      · rintro _ ⟨⟩
        have hopened := hexit previous hprevious exit rfl
        exact ⟨hopened.conditional, hopened.body, hopened.first⟩
  | body hother hopened =>
    rw [if_neg hother] at hranges
    refine ⟨by simp [hranges], ⟨rows ++ rows', ?_, by simp⟩, ?_, hpassed⟩
    · rw [hranges]
      exact List.rel_append hrows hrows'
    · rw [hranges]
      refine hopens.append hopens' fun previous hprevious next hnext => ?_
      obtain rfl : exit = previous := by simpa using hprevious
      obtain rfl : entry = next := by simpa using hnext
      exact hopened

namespace Graph

variable {graph graph' : Graph} {source target block : BasicBlock}

/-! ### Edges at both ends -/

/-- The block whose edges lead on from a block after a merge is one of the graph. -/
theorem Straight.heir_mem (hstraight : graph.Straight source target)
    (hblock : block ∈ graph.blocks) :
    (if block = source then target else block) ∈ graph.blocks := by
  split
  · exact hstraight.target_mem
  · exact hblock

/-- Every block stands in the place of its id, and every edge is noted at both of its ends. -/
structure Coherent (graph : Graph) : Prop where
  located : graph.Located
  ascending : ∀ block ∈ graph.blocks, block.predecessors.Ascending ∧ block.successors.Ascending
  live : ∀ block ∈ graph.blocks, block.predecessors ⊆ graph.ids ∧ block.successors ⊆ graph.ids
  symmetric : ∀ source ∈ graph.blocks, ∀ target ∈ graph.blocks,
    target.id ∈ source.successors ↔ source.id ∈ target.predecessors

namespace Coherent

variable (hcoherent : graph.Coherent) (hstraight : graph.Straight source target)
  (hother : source.id ≠ target.id)

include hcoherent

theorem exists_source (hblock : block ∈ graph.blocks)
    {id : BlockId} (hid : id ∈ block.predecessors) :
    ∃ source ∈ graph.blocks, source.id = id ∧ block.id ∈ source.successors := by
  obtain ⟨source, hsource, rfl⟩ := mem_ids_iff.mp ((hcoherent.live block hblock).1 hid)
  exact ⟨source, hsource, rfl, (hcoherent.symmetric source hsource block hblock).mpr hid⟩

include hstraight

theorem mem_filter_iff : block ∈ graph.blocks.filter (fun other => other.id ≠ target.id) ↔
    block ∈ graph.blocks ∧ block ≠ target := by
  rw [List.mem_filter, decide_eq_true_eq]
  refine and_congr_right fun hblock => not_congr ⟨fun hsame => ?_, fun hsame => hsame ▸ rfl⟩
  exact hcoherent.located.eq_of_id hblock hstraight.target_mem hsame

/-- The only edge into the target comes from the source. -/
theorem target_mem_successors_iff (hblock : block ∈ graph.blocks) :
    target.id ∈ block.successors ↔ block = source := by
  rw [hcoherent.symmetric block hblock target hstraight.target_mem, hstraight.predecessors,
    List.mem_singleton]
  exact ⟨hcoherent.located.eq_of_id hblock hstraight.source_mem, fun hsame => hsame ▸ rfl⟩

section

variable (habsorb : graph.absorb source.id target = .ok graph')

include habsorb

theorem blocks_absorb : graph'.blocks = (graph.blocks.filter fun other => other.id ≠ target.id).map
      fun other => other.merged source.id target :=
  (hcoherent.located.absorb (hcoherent.ascending _ hstraight.target_mem).2.nodup habsorb).2

theorem mem_blocks_absorb : block ∈ graph'.blocks ↔
    ∃ other, (other ∈ graph.blocks ∧ other ≠ target) ∧ other.merged source.id target = block := by
  simp only [hcoherent.blocks_absorb hstraight habsorb, List.mem_map,
    hcoherent.mem_filter_iff hstraight]

theorem mem_ids_absorb {id : BlockId} : id ∈ graph'.ids ↔ id ∈ graph.ids ∧ id ≠ target.id := by
  simp only [mem_ids_iff, hcoherent.mem_blocks_absorb hstraight habsorb]
  constructor
  · rintro ⟨_, ⟨other, ⟨hmem, hne⟩, rfl⟩, rfl⟩
    exact ⟨⟨other, hmem, rfl⟩,
      fun hsame => hne (hcoherent.located.eq_of_id hmem hstraight.target_mem hsame)⟩
  · rintro ⟨⟨other, hmem, rfl⟩, hne⟩
    exact ⟨_, ⟨other, ⟨hmem, fun hsame => hne (hsame ▸ rfl)⟩, rfl⟩, rfl⟩

omit habsorb in
/-- After a merge the source leads where the target did. -/
theorem successors_merged (hblock : block ∈ graph.blocks) :
    (block.merged source.id target).successors =
      (if block = source then target else block).successors := by
  have hend : block.id = source.id ↔ block = source :=
    ⟨hcoherent.located.eq_of_id hblock hstraight.source_mem, fun hsame => hsame ▸ rfl⟩
  simp only [BasicBlock.merged, hend]
  split <;> rfl

include hother

/-- A merge along a straight edge, other than that of a block to itself, keeps every edge noted at
both ends. -/
theorem absorb : graph'.Coherent := by
  have hsource := hstraight.source_mem
  have htarget := hstraight.target_mem
  have hmem {block : BasicBlock} : block ∈ graph'.blocks ↔
      ∃ other, (other ∈ graph.blocks ∧ other ≠ target) ∧ other.merged source.id target = block :=
    hcoherent.mem_blocks_absorb hstraight habsorb
  have hids {id : BlockId} : id ∈ graph'.ids ↔ id ∈ graph.ids ∧ id ≠ target.id :=
    hcoherent.mem_ids_absorb hstraight habsorb
  have hsourceId : source.id ∈ graph.ids := mem_ids_iff.mpr ⟨source, hsource, rfl⟩
  -- no block but the source led to the target, and that leads on now
  have hheir {block : BasicBlock} (hblock : block ∈ graph.blocks) (hne : block ≠ target) :
      target.id ∉ (if block = source then target else block).successors := by
    rw [hcoherent.target_mem_successors_iff hstraight (hstraight.heir_mem hblock)]
    split
    · exact fun hsame => hother (hsame ▸ rfl)
    · assumption
  refine ⟨(hcoherent.located.absorb (hcoherent.ascending _ htarget).2.nodup habsorb).1, ?_, ?_, ?_⟩
  · intro block' hblock'
    obtain ⟨block, ⟨hblock, -⟩, rfl⟩ := hmem.mp hblock'
    refine ⟨?_, hcoherent.successors_merged hstraight hblock ▸
      (hcoherent.ascending _ (hstraight.heir_mem hblock)).2⟩
    simp only [BasicBlock.merged]
    split
    · exact ((hcoherent.ascending block hblock).1.remove _).insert _
    · exact (hcoherent.ascending block hblock).1
  · intro block' hblock'
    obtain ⟨block, ⟨hblock, hne⟩, rfl⟩ := hmem.mp hblock'
    refine ⟨fun id hid => ?_, fun id hid => ?_⟩
    · simp only [BasicBlock.merged] at hid
      split at hid
      · rcases BlockSet.mem_insert.mp hid with rfl | hid
        · exact hids.mpr ⟨hsourceId, hother⟩
        · obtain ⟨hid, hne⟩ := BlockSet.mem_remove.mp hid
          exact hids.mpr ⟨(hcoherent.live block hblock).1 hid, hne⟩
      · next hno =>
        refine hids.mpr ⟨(hcoherent.live block hblock).1 hid, ?_⟩
        rintro rfl
        exact hno ((hcoherent.symmetric target htarget block hblock).mpr hid)
    · rw [hcoherent.successors_merged hstraight hblock] at hid
      refine hids.mpr ⟨(hcoherent.live _ (hstraight.heir_mem hblock)).2 hid, ?_⟩
      rintro rfl
      exact hheir hblock hne hid
  · intro block' hblock' following' hfollowing'
    obtain ⟨block, ⟨hblock, hne⟩, rfl⟩ := hmem.mp hblock'
    obtain ⟨following, ⟨hfollowing, hne'⟩, rfl⟩ := hmem.mp hfollowing'
    rw [hcoherent.successors_merged hstraight hblock, BasicBlock.id_merged, BasicBlock.id_merged]
    have hid : block.id ≠ target.id :=
      fun hsame => hne (hcoherent.located.eq_of_id hblock htarget hsame)
    simp only [BasicBlock.merged]
    by_cases hsame : block = source
    · subst hsame
      rw [if_pos rfl]
      split
      · next hleads => exact iff_of_true hleads (BlockSet.mem_insert.mpr (Or.inl rfl))
      · next hleads =>
        refine iff_of_false hleads fun hback => hne' ?_
        have hforth := (hcoherent.symmetric block hblock following hfollowing).mpr hback
        rw [hstraight.successors, List.mem_singleton] at hforth
        exact hcoherent.located.eq_of_id hfollowing htarget hforth
    · have hid' : block.id ≠ source.id :=
        fun hid => hsame (hcoherent.located.eq_of_id hblock hsource hid)
      rw [if_neg hsame, hcoherent.symmetric block hblock following hfollowing]
      split
      · simp [hid, hid']
      · rfl

end

end Coherent
/-! ### Straight edges -/

theorem position?_of_list {ref : ListRef} {statements : List NodeId}
    (hlist : program.list ref = .ok statements)
    (statement : NodeId) : program.position? ref statement = .ok (statements.idxOf? statement) := by
  rw [Program.position?, hlist]
  rfl

namespace Depicts

variable (hdepicts : graph.Depicts program code) (hframes : program.Frames code)
  (hloopless : code.Loopless) (hstraight : graph.Straight source target)

include hdepicts hframes hloopless hstraight

omit hframes hloopless hstraight in
theorem coherent : graph.Coherent where
  located := hdepicts.located
  ascending := hdepicts.ascending
  live := hdepicts.live
  symmetric source hsource target htarget :=
    (hdepicts.successors source hsource target htarget).trans
      (hdepicts.predecessors source hsource target htarget).symm

/-- A straight edge joins neighbours. -/
theorem exists_adjoins : ∃ exit entry, source.exit? = some exit ∧ target.entry? = some entry ∧
    exit.Adjoins program code entry ∧ code.Chained none exit.last entry.first ∧
      code.NextTo exit.last entry.first := by
  obtain ⟨last, hlast, first, hfirst, hchained⟩ := (hdepicts.straight_iff hframes.nodup_order
    hstraight.source_mem hstraight.target_mem).mp hstraight
  obtain ⟨exit, hexit, rfl⟩ := Option.map_eq_some_iff.mp hlast
  obtain ⟨entry, hentry, rfl⟩ := Option.map_eq_some_iff.mp hfirst
  have hsource := hdepicts.holds source hstraight.source_mem
  have htarget := hdepicts.holds target hstraight.target_mem
  have hmem : entry.first ∈ code.order :=
    hdepicts.mem_order hstraight.target_mem (List.mem_of_head? (htarget.head?.trans hfirst))
  have hnext := hchained.nextTo hloopless (by simpa using hframes.nodup_order) hmem
  obtain ⟨row, hexitCovers⟩ := hsource.exists_covers (List.mem_of_getLast? hexit)
  obtain ⟨row', hentryCovers⟩ := htarget.exists_covers (List.mem_of_head? hentry)
  exact ⟨exit, entry, hexit, hentry,
    hexitCovers.adjoins hentryCovers hframes hloopless hnext.adjoining, hchained, hnext⟩

/-- The guard lets a straight edge pass. -/
theorem follows_eq : follows program source target = .ok true := by
  obtain ⟨exit, entry, hexit, hentry, hadjoins, -⟩ :=
    hdepicts.exists_adjoins hframes hloopless hstraight
  rw [follows, hexit, hentry]
  dsimp only
  cases hadjoins with
  | list hsame hnext =>
    obtain ⟨before, later, hnext⟩ := hnext
    have hlist := hframes.list_of_mem_lists hnext
    have hnodup : (before ++ exit.last :: entry.first :: later).Nodup :=
      Code.nodup_of_mem_lists hframes.nodup_order hnext
    have hlast := idxOf?_append_cons (fun hmem : exit.last ∈ before =>
      (List.nodup_append'.mp hnodup).2.2 hmem List.mem_cons_self) (entry.first :: later)
    rw [List.append_cons] at hnodup
    have hfirst := idxOf?_append_cons (fun hmem : entry.first ∈ before ++ [exit.last] =>
      (List.nodup_append'.mp hnodup).2.2 hmem List.mem_cons_self) later
    rw [← List.append_cons, List.length_append, List.length_singleton] at hfirst
    rw [if_pos hsame.symm, hsame, position?_of_list hlist, position?_of_list hlist, hlast, hfirst]
    simp [bind, Except.bind, pure, Except.pure]
  | body hother hopens =>
    obtain ⟨⟨condition, thenBody, elseBody, hnode⟩, hbody, statements, hlist, hhead⟩ := hopens
    rw [if_neg (Ne.symm hother), hlist, Program.nestedLists_of_node hnode]
    rcases hbody with hbody | hbody <;>
      simp [bind, Except.bind, pure, Except.pure, hhead, hbody, Node.lists]

/-- The row of a block after a merge. -/
theorem holds_merged {block : BasicBlock} (hblock : block ∈ graph.blocks) :
    (block.merged source.id target).Holds program code
      (if block = source then source.row program ++ target.row program else block.row program) := by
  split
  · next hsame =>
    subst hsame
    obtain ⟨exit, entry, hexit, hentry, hadjoins, hchained, -⟩ :=
      hdepicts.exists_adjoins hframes hloopless hstraight
    exact (hdepicts.holds block hblock).joined (hdepicts.holds target hstraight.target_mem)
      hframes.nodup_order hexit hentry hadjoins hchained
      (by simp [BasicBlock.merged])
  · next hother =>
    have hid : block.id ≠ source.id := fun hsame =>
      hother (hdepicts.located.eq_of_id hblock hstraight.source_mem hsame)
    exact (hdepicts.holds block hblock).congr (by simp [BasicBlock.merged, hid])

theorem row_merged {block : BasicBlock} (hblock : block ∈ graph.blocks) :
    (block.merged source.id target).row program =
      if block = source then source.row program ++ target.row program else block.row program :=
  (hdepicts.holds_merged hframes hloopless hstraight hblock).row_eq hframes

/-- What a block leads to after a merge, it led to before, or the absorbed block did. -/
theorem joins_merged_iff {block other : BasicBlock} (hblock : block ∈ graph.blocks)
    (hother : other ∈ graph.blocks) :
    (block.merged source.id target).Joins code (other.merged source.id target) ↔
      (if block = source then target else block).Joins code other := by
  have hlast :
      (block.merged source.id target).last? = (if block = source then target else block).last? := by
    rw [← (hdepicts.holds_merged hframes hloopless hstraight hblock).getLast?]
    split
    · have htarget := hdepicts.holds target hstraight.target_mem
      obtain ⟨earlier, last, -, hrow⟩ := htarget.exists_concat
      rw [← htarget.getLast?, hrow, ← List.append_assoc, List.getLast?_concat, List.getLast?_concat]
    · exact (hdepicts.holds block hblock).getLast?
  have hfirst : (other.merged source.id target).first? = other.first? := by
    rw [← (hdepicts.holds_merged hframes hloopless hstraight hother).head?]
    split
    · next hsame =>
      subst hsame
      obtain ⟨first, later, -, hrow⟩ := (hdepicts.holds other hother).exists_cons
      rw [← (hdepicts.holds other hother).head?, hrow]
      rfl
    · exact (hdepicts.holds other hother).head?
  rw [BasicBlock.Joins, BasicBlock.Joins, hlast, hfirst]

omit hloopless in
theorem lt_of_straight : source.id.index < target.id.index := by
  refine hdepicts.lt_of_joins hframes.nodup_order hstraight.source_mem hstraight.target_mem ?_
  refine (hdepicts.successors _ hstraight.source_mem _ hstraight.target_mem).mp ?_
  rw [hstraight.successors]
  exact List.mem_singleton_self _

/-- The blocks after a merge: the absorbed one, which stood behind the other one, is gone. -/
theorem exists_blocks_absorb (habsorb : graph.absorb source.id target = .ok graph') :
    ∃ earlier later, graph.blocks = earlier ++ source :: target :: later ∧
      graph'.blocks = (earlier ++ source :: later).map fun other =>
        other.merged source.id target := by
  obtain ⟨exit, entry, hexit, hentry, -, -, -, before, behind, horder⟩ :=
    hdepicts.exists_adjoins hframes hloopless hstraight
  obtain ⟨earlier, later, hblocks⟩ := hdepicts.exists_neighbours hframes.nodup_order horder
    hstraight.source_mem (congrArg (Option.map BlockRange.last) hexit) hstraight.target_mem
    (congrArg (Option.map BlockRange.first) hentry)
  refine ⟨earlier, later, hblocks, ?_⟩
  rw [(hdepicts.located.absorb (hdepicts.ascending _ hstraight.target_mem).2.nodup habsorb).2]
  have hascending := hdepicts.located.ascending
  rw [hblocks, List.pairwise_append, List.pairwise_cons, List.pairwise_cons] at hascending
  obtain ⟨-, ⟨-, hlater, -⟩, hearlier⟩ := hascending
  have hfirst := hdepicts.lt_of_straight hframes hstraight
  have hkept {blocks : List BasicBlock} (hne : ∀ block ∈ blocks, block.id.index ≠ target.id.index) :
      blocks.filter (fun other => other.id ≠ target.id) = blocks :=
    List.filter_eq_self.mpr fun block hblock =>
      decide_eq_true fun hsame => hne block hblock (congrArg BlockId.index hsame)
  rw [hblocks, List.append_cons, List.filter_append, List.filter_cons, if_neg (by simp),
    hkept fun block hblock => Nat.ne_of_gt (hlater block hblock), hkept fun block hblock => ?_]
  · simp
  · rcases List.mem_append.mp hblock with hblock | hblock
    · exact Nat.ne_of_lt (hearlier block hblock target (by simp))
    · rw [List.mem_singleton.mp hblock]
      exact Nat.ne_of_lt hfirst

/-- A merge along a straight edge leaves a graph that depicts the same code. -/
theorem absorb (habsorb : graph.absorb source.id target = .ok graph') :
    graph'.Depicts program code := by
  have hsource := hstraight.source_mem
  have htarget := hstraight.target_mem
  have hother : source.id ≠ target.id := fun hsame =>
    Nat.ne_of_lt (hdepicts.lt_of_straight hframes hstraight) (congrArg BlockId.index hsame)
  have hcoherent := hdepicts.coherent
  have hcoherent' := hcoherent.absorb hstraight hother habsorb
  obtain ⟨earlier, later, hblocks, hblocks'⟩ :=
    hdepicts.exists_blocks_absorb hframes hloopless hstraight habsorb
  have hmem {block : BasicBlock} : block ∈ graph'.blocks ↔
      ∃ other, (other ∈ graph.blocks ∧ other ≠ target) ∧ other.merged source.id target = block :=
    hcoherent.mem_blocks_absorb hstraight habsorb
  have hsuccessors : ∀ block ∈ graph'.blocks, ∀ other ∈ graph'.blocks,
      other.id ∈ block.successors ↔ block.Joins code other := by
    intro block' hblock' other' hother'
    obtain ⟨block, ⟨hblock, -⟩, rfl⟩ := hmem.mp hblock'
    obtain ⟨other, ⟨hother, -⟩, rfl⟩ := hmem.mp hother'
    rw [hcoherent.successors_merged hstraight hblock,
      hdepicts.joins_merged_iff hframes hloopless hstraight hblock hother]
    exact hdepicts.successors _ (hstraight.heir_mem hblock) other hother
  refine ⟨hcoherent'.located, ?_, ?_, ?_, hcoherent'.ascending, hcoherent'.live, hsuccessors,
    fun block hblock other hother => (hcoherent'.symmetric block hblock other hother).symm.trans
      (hsuccessors block hblock other hother)⟩
  · have hstarts := hdepicts.starts
    rw [hblocks] at hstarts
    rw [hblocks']
    cases earlier with
    | nil => simpa using hstarts source rfl
    | cons first earlier => simpa using hstarts first rfl
  · intro block' hblock'
    obtain ⟨block, ⟨hblock, -⟩, rfl⟩ := hmem.mp hblock'
    have hholds := hdepicts.holds_merged hframes hloopless hstraight hblock
    exact (hholds.row_eq hframes).symm ▸ hholds
  · have hkept {blocks : List BasicBlock}
        (hne : ∀ block ∈ blocks, block ∈ graph.blocks ∧ block ≠ source) :
        blocks.flatMap (fun other => (other.merged source.id target).row program) =
          blocks.flatMap (BasicBlock.row program) := by
      simp only [List.flatMap_def]
      congr 1
      refine List.map_congr_left fun block hblock => ?_
      obtain ⟨hblock, hne⟩ := hne block hblock
      rw [hdepicts.row_merged hframes hloopless hstraight hblock, if_neg hne]
    have hascending := hdepicts.located.ascending
    rw [hblocks, List.pairwise_append, List.pairwise_cons, List.pairwise_cons] at hascending
    obtain ⟨-, ⟨hbehind, -⟩, hbefore⟩ := hascending
    rw [hblocks', ← hdepicts.order, List.flatMap_map, List.flatMap_append, List.flatMap_cons,
      hkept fun block hblock => ⟨?_, ?_⟩, hkept fun block hblock => ⟨?_, ?_⟩,
      hdepicts.row_merged hframes hloopless hstraight hsource, if_pos rfl, hblocks]
    · simp
    · simp [hblocks, hblock]
    · rintro rfl
      exact Nat.lt_irrefl _ (hbehind block (List.mem_cons_of_mem _ hblock))
    · simp [hblocks, hblock]
    · rintro rfl
      exact Nat.lt_irrefl _ (hbefore block hblock block List.mem_cons_self)

end Depicts

/-! ### Merging until nothing is left to merge -/

/-- One merge along a straight edge, whichever it is. -/
def Merges (graph graph' : Graph) : Prop :=
  ∃ source target, graph.Straight source target ∧ graph.absorb source.id target = .ok graph'

namespace Depicts

variable (hdepicts : graph.Depicts program code) (hframes : program.Frames code)
  (hloopless : code.Loopless)

include hdepicts hframes hloopless

/-- The guard changes nothing: a block is absorbed when there is a straight edge into it. -/
theorem absorber?_spec {block : BasicBlock} (hblock : block ∈ graph.blocks)
    {answer : Option BlockId} (hanswer : graph.absorber? program block = .ok answer) :
    (∀ absorber ∈ answer, ∃ source, graph.Straight source block ∧ source.id = absorber) ∧
      (answer = none → ∀ source, ¬ graph.Straight source block) := by
  rw [absorber?] at hanswer
  split at hanswer
  · next only hpredecessors =>
    obtain ⟨previous, hread, hguarded⟩ := bind_eq_ok_iff.mp hanswer
    obtain ⟨hprevious, rfl⟩ := hdepicts.located.block_eq_ok_iff.mp hread
    split at hguarded
    · next hsuccessors =>
      have hstraight : graph.Straight previous block :=
        ⟨hprevious, hblock, hsuccessors.2, hpredecessors⟩
      rw [hdepicts.follows_eq hframes hloopless hstraight] at hguarded
      obtain rfl : some previous.id = answer := Except.ok.inj hguarded
      exact ⟨fun absorber habsorber => ⟨previous, hstraight, Option.some.inj habsorber⟩, by simp⟩
    · next hsuccessors =>
      obtain rfl : none = answer := Except.ok.inj hguarded
      refine ⟨by simp, fun _ source hstraight => hsuccessors ?_⟩
      have hid : previous.id = source.id := by simpa [hpredecessors] using hstraight.predecessors
      obtain rfl := hdepicts.located.eq_of_id hprevious hstraight.source_mem hid
      refine ⟨fun hsame => ?_, hstraight.successors⟩
      exact Nat.ne_of_lt (hdepicts.lt_of_straight hframes hstraight) (congrArg BlockId.index hsame)
  · next hmany =>
    obtain rfl : none = answer := Except.ok.inj hanswer
    exact ⟨by simp, fun _ source hstraight => hmany _ hstraight.predecessors⟩

theorem mergeCandidate?_spec {blocks : List BasicBlock} (hblocks : blocks ⊆ graph.blocks)
    {answer : Option (BlockId × BasicBlock)}
    (hanswer : graph.mergeCandidate? program blocks = .ok answer) :
    (∀ found ∈ answer, ∃ source, graph.Straight source found.2 ∧ source.id = found.1) ∧
      (answer = none → ∀ source, ∀ target ∈ blocks, ¬ graph.Straight source target) := by
  induction blocks with
  | nil =>
    obtain rfl : none = answer := Except.ok.inj hanswer
    simp
  | cons block blocks ih =>
    obtain ⟨hblock, hblocks⟩ := List.cons_subset.mp hblocks
    rw [mergeCandidate?] at hanswer
    obtain ⟨absorber, habsorber, hanswer⟩ := bind_eq_ok_iff.mp hanswer
    obtain ⟨hsome, hnone⟩ := hdepicts.absorber?_spec hframes hloopless hblock habsorber
    cases absorber with
    | some absorber =>
      obtain rfl : some (absorber, block) = answer := Except.ok.inj hanswer
      refine ⟨fun found hfound => ?_, by simp⟩
      obtain rfl : (absorber, block) = found := Option.some.inj hfound
      exact hsome absorber rfl
    | none =>
      obtain ⟨hfound, hleft⟩ := ih hblocks hanswer
      exact ⟨hfound, fun hanswer source => List.forall_mem_cons.mpr
        ⟨hnone rfl source, hleft hanswer source⟩⟩

theorem size_absorb {source target : BasicBlock} (hstraight : graph.Straight source target)
    (habsorb : graph.absorb source.id target = .ok graph') : graph'.size + 1 = graph.size := by
  obtain ⟨earlier, later, hblocks, hblocks'⟩ :=
    hdepicts.exists_blocks_absorb hframes hloopless hstraight habsorb
  rw [size, size, hblocks, hblocks']
  simp [Nat.add_assoc]

end Depicts

/-- Merging goes along straight edges only, and with a merge for every block none is left. -/
theorem Depicts.mergeWithin_spec {merges merged : Nat} (hdepicts : graph.Depicts program code)
    (hframes : program.Frames code) (hloopless : code.Loopless)
    (hmerge : mergeWithin program merges graph = .ok (merged, graph')) :
    Relation.ReflTransGen Merges graph graph' ∧
      (graph.size ≤ merges → ∀ source target, ¬ graph'.Straight source target) := by
  induction merges generalizing graph merged with
  | zero =>
    obtain ⟨-, rfl⟩ := Prod.mk.inj (Except.ok.inj hmerge)
    refine ⟨.refl, fun hsize source target hstraight => ?_⟩
    have hnil : graph.blocks = [] := List.length_eq_zero_iff.mp (Nat.le_zero.mp hsize)
    exact List.not_mem_nil (hnil ▸ hstraight.source_mem)
  | succ merges ih =>
    rw [mergeWithin] at hmerge
    obtain ⟨candidate, hcandidate, hmerge⟩ := bind_eq_ok_iff.mp hmerge
    obtain ⟨hsome, hnone⟩ := hdepicts.mergeCandidate?_spec hframes hloopless
      (List.Subset.refl _) hcandidate
    cases candidate with
    | none =>
      obtain ⟨-, rfl⟩ := Prod.mk.inj (Except.ok.inj hmerge)
      exact ⟨.refl, fun _ source target hstraight =>
        hnone rfl source target hstraight.target_mem hstraight⟩
    | some candidate =>
      obtain ⟨absorber, target⟩ := candidate
      obtain ⟨source, hstraight, rfl⟩ := hsome _ rfl
      obtain ⟨between, habsorb, hmerge⟩ := bind_eq_ok_iff.mp hmerge
      obtain ⟨⟨later, merged'⟩, hlater, hmerge⟩ := bind_eq_ok_iff.mp hmerge
      obtain ⟨-, rfl⟩ := Prod.mk.inj (Except.ok.inj hmerge)
      have hsize := hdepicts.size_absorb hframes hloopless hstraight habsorb
      obtain ⟨hmerges, hleft⟩ := ih (hdepicts.absorb hframes hloopless hstraight habsorb) hlater
      exact ⟨hmerges.head ⟨source, target, hstraight, habsorb⟩, fun hbound => hleft (by omega)⟩

theorem Depicts.merged (hdepicts : graph.Depicts program code) (hframes : program.Frames code)
    (hloopless : code.Loopless) (hmerges : Relation.ReflTransGen Merges graph graph') :
    graph'.Depicts program code := by
  induction hmerges with
  | refl => exact hdepicts
  | tail _ hmerge ih =>
    obtain ⟨source, target, hstraight, habsorb⟩ := hmerge
    exact ih.absorb hframes hloopless hstraight habsorb

end Graph

end ShaderIR
