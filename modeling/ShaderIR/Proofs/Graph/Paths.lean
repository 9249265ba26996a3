import ShaderIR.Proofs.Graph.Coverage
import ShaderIR.Proofs.Interp.Execution
import ShaderIR.Proofs.Interp.Trails

/-!
Paths of a built graph. What is left to execute behind a statement is fixed by its place
(`Code.places`), so that the statements of a trail are joined by control (`Program.Trails.leads`)
and can be read off a path of blocks (`Graph.Depicts.exists_passes`). Every edge is on such a path,
for some outcomes of the tests in front of it (`Graph.paths_of_build`).
-/

set_option autoImplicit false

namespace ShaderIR

variable {program : Program} {code : Code} {tree : Tree} {after behind behind' body : List NodeId}
  {id target : NodeId}

/-! ### Places -/

namespace Code

/-- The statements of a code, each with what is left to execute behind it. -/
def places : Code → (after : List NodeId) → List (Tree × List NodeId)
  | nil, _ => []
  | step statement rest, after => (statement, rest.heads ++ after) :: rest.places after
  | branch statement thenBody elseBody rest, after =>
    (statement, rest.heads ++ after) :: (thenBody.places (rest.heads ++ after) ++
      elseBody.places (rest.heads ++ after) ++ rest.places after)
  | loop .., _ => []

theorem mem_statements_of_mem_places (hplace : (tree, behind) ∈ code.places after) :
    tree ∈ code.statements := by
  induction code generalizing after with
  | nil => cases hplace
  | step statement rest ih =>
    rcases List.mem_cons.mp hplace with hsame | hplace
    · exact (Prod.mk.inj hsame).1 ▸ List.mem_cons_self
    · exact List.mem_cons_of_mem _ (ih hplace)
  | branch statement thenBody elseBody rest ihthen ihelse ih =>
    simp only [places, List.mem_cons, List.mem_append, Prod.mk.injEq] at hplace
    simp only [statements, List.mem_cons, List.mem_append]
    rcases hplace with ⟨rfl, -⟩ | (hplace | hplace) | hplace
    · exact Or.inl rfl
    · exact Or.inr (Or.inl (Or.inl (ihthen hplace)))
    · exact Or.inr (Or.inl (Or.inr (ihelse hplace)))
    · exact Or.inr (Or.inr (ih hplace))
  | loop => cases hplace

theorem exists_place (hloopless : code.Loopless)
    (htree : tree ∈ code.statements) (after : List NodeId) :
    ∃ behind, (tree, behind) ∈ code.places after := by
  induction code generalizing after with
  | nil => cases htree
  | step statement rest ih =>
    rcases List.mem_cons.mp htree with rfl | htree
    · exact ⟨_, List.mem_cons_self⟩
    · obtain ⟨behind, hplace⟩ := ih hloopless htree after
      exact ⟨behind, List.mem_cons_of_mem _ hplace⟩
  | branch statement thenBody elseBody rest ihthen ihelse ih =>
    simp only [statements, List.mem_cons, List.mem_append] at htree
    simp only [places, List.mem_cons, List.mem_append]
    rcases htree with rfl | (htree | htree) | htree
    · exact ⟨_, Or.inl rfl⟩
    · obtain ⟨behind, hplace⟩ := ihthen hloopless.1 htree (rest.heads ++ after)
      exact ⟨behind, Or.inr (Or.inl (Or.inl hplace))⟩
    · obtain ⟨behind, hplace⟩ := ihelse hloopless.2.1 htree (rest.heads ++ after)
      exact ⟨behind, Or.inr (Or.inl (Or.inr hplace))⟩
    · obtain ⟨behind, hplace⟩ := ih hloopless.2.2 htree after
      exact ⟨behind, Or.inr (Or.inr hplace)⟩
  | loop => exact hloopless.elim

/-- The first statement of a row stands in its place, or the row is what comes after the code. -/
theorem exists_place_of_head (hloopless : code.Loopless)
    (hrow : code.heads ++ after = id :: behind) :
    (∃ tree, tree.id = id ∧ (tree, behind) ∈ code.places after) ∨ after = id :: behind := by
  cases code with
  | nil => exact Or.inr hrow
  | step statement rest =>
    obtain ⟨rfl, rfl⟩ := List.cons.inj hrow
    exact Or.inl ⟨statement, rfl, List.mem_cons_self⟩
  | branch statement thenBody elseBody rest =>
    obtain ⟨rfl, rfl⟩ := List.cons.inj hrow
    exact Or.inl ⟨statement, rfl, List.mem_cons_self⟩
  | loop => exact hloopless.elim

/-- What is executed after a statement stands in its place as well. -/
theorem exists_place_of_way (hdraws : program.DrawsCode code) (hloopless : code.Loopless)
    (hplace : (tree, behind) ∈ code.places after) (hway : body ∈ tree.node.ways)
    (hrow : body ++ behind = id :: behind') :
    (∃ tree', tree'.id = id ∧ (tree', behind') ∈ code.places after) ∨ after = id :: behind' := by
  induction hdraws generalizing after with
  | nil => cases hplace
  | @step statement rest _ hlists _ ih =>
    have hrest (hfound : (∃ tree', tree'.id = id ∧ (tree', behind') ∈ rest.places after) ∨
        after = id :: behind') :
        (∃ tree', tree'.id = id ∧ (tree', behind') ∈ (step statement rest).places after) ∨
        after = id :: behind' :=
      hfound.imp_left fun ⟨tree', hid, hplace⟩ => ⟨tree', hid, List.mem_cons_of_mem _ hplace⟩
    rcases List.mem_cons.mp hplace with hsame | hplace
    · obtain ⟨rfl, rfl⟩ := Prod.mk.inj hsame
      obtain rfl := List.mem_singleton.mp (Node.ways_of_lists hlists ▸ hway)
      exact hrest (exists_place_of_head hloopless hrow)
    · exact hrest (ih hloopless hplace)
  | @branch statement condition thenBody elseBody rest _ hbranch _ _ _ ihthen ihelse ih =>
    obtain ⟨hthen, helse, hcode⟩ := hloopless
    have hfound {part : Code} {after' : List NodeId}
        (hpart : part.places after' ⊆ (branch statement thenBody elseBody rest).places after)
        (hinside : (∃ tree', tree'.id = id ∧ (tree', behind') ∈ part.places after') ∨
          after' = id :: behind') (houtside : after' = id :: behind' → (∃ tree', tree'.id = id ∧
          (tree', behind') ∈ (branch statement thenBody elseBody rest).places after) ∨
          after = id :: behind') :
        (∃ tree', tree'.id = id ∧
          (tree', behind') ∈ (branch statement thenBody elseBody rest).places after) ∨
          after = id :: behind' := by
      rcases hinside with ⟨tree', hid, hplace⟩ | hafter
      · exact Or.inl ⟨tree', hid, hpart hplace⟩
      · exact houtside hafter
    have hthenPart : thenBody.places (rest.heads ++ after) ⊆
        (branch statement thenBody elseBody rest).places after :=
          fun _ hmem => by simp [places, hmem]
    have helsePart : elseBody.places (rest.heads ++ after) ⊆
        (branch statement thenBody elseBody rest).places after :=
          fun _ hmem => by simp [places, hmem]
    have hrestPart : rest.places after ⊆ (branch statement thenBody elseBody rest).places after :=
          fun _ hmem => by simp [places, hmem]
    have hbehind (hrow : rest.heads ++ after = id :: behind') :=
      hfound hrestPart (exists_place_of_head hcode hrow) Or.inr
    simp only [places, List.mem_cons, List.mem_append, Prod.mk.injEq] at hplace
    rcases hplace with ⟨rfl, rfl⟩ | (hplace | hplace) | hplace
    · rw [hbranch] at hway
      rcases List.mem_pair.mp hway with rfl | rfl
      · exact hfound hthenPart (exists_place_of_head hthen hrow) hbehind
      · exact hfound helsePart (exists_place_of_head helse hrow) hbehind
    · exact hfound hthenPart (ihthen hthen hplace) hbehind
    · exact hfound helsePart (ihelse helse hplace) hbehind
    · exact hfound hrestPart (ih hcode hplace) Or.inr
  | loop => exact hloopless.elim

theorem head?_heads_append (code : Code) (after : List NodeId) :
    (code.heads ++ after).head? = code.entry after.head? := by
  rw [List.head?_append, entry]

theorem mem_branchTargets_head?_iff {first second next : List NodeId} :
    target ∈ Graph.branchTargets first.head? second.head? next.head? ↔
      ∃ body ∈ [first, second], (body ++ next).head? = some target := by
  cases first <;> cases second <;> cases next <;> simp [Graph.branchTargets, eq_comm, or_comm]

/-- Control leads from a statement to what is executed after it in one way or another. -/
theorem leads_iff_of_mem_places (hdraws : program.DrawsCode code) (hloopless : code.Loopless)
    (hnodup : code.order.Nodup) (hplace : (tree, behind) ∈ code.places after) :
    code.Leads tree.id target after.head? ↔
      ∃ body ∈ tree.node.ways, (body ++ behind).head? = some target := by
  have hmem {part : Code} {after : List NodeId} (hplace : (tree, behind) ∈ part.places after) :
      tree.id ∈ part.order := List.mem_map_of_mem (mem_statements_of_mem_places hplace)
  induction hdraws generalizing after with
  | nil => cases hplace
  | @step statement rest _ hlists _ ih =>
    rcases List.mem_cons.mp hplace with hsame | hplace
    · obtain ⟨rfl, rfl⟩ := Prod.mk.inj hsame
      have hrestNot : ¬ rest.Leads tree.id target after.head? := fun hleads =>
        (List.nodup_cons.mp hnodup).1 hleads.source_mem
      simp only [Node.ways_of_lists hlists, List.mem_singleton, exists_eq_left, List.nil_append,
        head?_heads_append, Leads, hrestNot, or_false, true_and]
    · rw [(Part.afterStep _ statement rest).leads_iff_of_source hnodup (hmem hplace)]
      exact ih hloopless (List.nodup_cons.mp hnodup).2 hplace
  | @branch statement condition thenBody elseBody rest _ hbranch _ _ _ ihthen ihelse ih =>
    obtain ⟨hthen, helse, hcode⟩ := hloopless
    have hparts := hnodup
    simp only [order_branch, List.nodup_cons, List.mem_append, not_or, List.nodup_append'] at hparts
    obtain ⟨⟨⟨hinThen, hinElse⟩, hinRest⟩, ⟨hthenNodup, helseNodup, -⟩, hrestNodup, -⟩ := hparts
    simp only [places, List.mem_cons, List.mem_append, Prod.mk.injEq] at hplace
    rcases hplace with ⟨rfl, rfl⟩ | (hplace | hplace) | hplace
    · have hthenNot {after' : Option NodeId} : ¬ thenBody.Leads tree.id target after' :=
        fun hleads =>
        hinThen hleads.source_mem
      have helseNot {after' : Option NodeId} : ¬ elseBody.Leads tree.id target after' :=
        fun hleads =>
        hinElse hleads.source_mem
      have hrestNot {after' : Option NodeId} : ¬ rest.Leads tree.id target after' := fun hleads =>
        hinRest hleads.source_mem
      rw [hbranch, Node.ways, ← mem_branchTargets_head?_iff, head?_heads_append]
      simp [Leads, hthenNot, helseNot, hrestNot]
    · rw [(Part.thenBody _ statement thenBody elseBody rest).leads_iff_of_source hnodup
        (hmem hplace), ← head?_heads_append]
      exact ihthen hthen hthenNodup hplace
    · rw [(Part.elseBody _ statement thenBody elseBody rest).leads_iff_of_source hnodup
        (hmem hplace), ← head?_heads_append]
      exact ihelse helse helseNodup hplace
    · rw [(Part.afterBranch _ statement thenBody elseBody rest).leads_iff_of_source hnodup
        (hmem hplace)]
      exact ih hcode hrestNodup hplace
  | loop => exact hloopless.elim

/-- A row of statements that is left to execute at some place, or that there is nothing left to
execute. -/
def Pends (code : Code) (row : List NodeId) : Prop :=
  ∀ id behind, row = id :: behind → ∃ tree, tree.id = id ∧ (tree, behind) ∈ code.places []

theorem pends_heads (hloopless : code.Loopless) : code.Pends code.heads := by
  intro id behind hrow
  refine (exists_place_of_head hloopless ?_).resolve_right (List.cons_ne_nil _ _).symm
  rw [List.append_nil, hrow]

theorem pends_of_way (hdraws : program.DrawsCode code) (hloopless : code.Loopless)
    (hplace : (tree, behind) ∈ code.places []) (hway : body ∈ tree.node.ways) :
    code.Pends (body ++ behind) := by
  intro id behind' hrow
  exact (exists_place_of_way hdraws hloopless hplace hway hrow).resolve_right
    (List.cons_ne_nil _ _).symm

/-- Control can go every way after every statement. -/
def Unstopped (code : Code) : Prop :=
  ∀ statement ∈ code.statements, ∀ body ∈ statement.node.ways,
    ∃ holds, statement.node.flowIf holds = .through body

theorem unstopped_of_discardless (hreturnless : code.Returnless) (hdiscardless : code.Discardless) :
    code.Unstopped := by
  intro statement hstatement body hway
  cases hnode : statement.node with
  | branch condition thenBody elseBody =>
    rw [hnode] at hway
    rcases List.mem_pair.mp hway with rfl | rfl
    · exact ⟨true, rfl⟩
    · exact ⟨false, rfl⟩
  | discard condition => exact absurd hnode (hdiscardless statement hstatement condition)
  | ret value => exact absurd hnode (hreturnless statement hstatement value)
  | _ =>
    rw [hnode] at hway
    obtain rfl := List.mem_singleton.mp hway
    exact ⟨true, rfl⟩

/-- Control goes forward in the text. -/
theorem Leads.idxOf_lt (hleads : code.Leads id target none) (hnodup : code.order.Nodup) :
    code.order.idxOf id < code.order.idxOf target := by
  have hascending :
      code.order.Pairwise fun first second => code.order.idxOf first < code.order.idxOf second := by
    rw [List.pairwise_iff_getElem]
    intro place place' hplace hplace' hlt
    rwa [hnodup.idxOf_getElem, hnodup.idxOf_getElem]
  have hsublist := hleads.sublist
  rw [Option.toList_none, List.append_nil] at hsublist
  exact List.rel_of_pairwise_cons (hascending.sublist hsublist) (List.mem_singleton_self _)

theorem nodup_of_isChain_leads {ids : List NodeId} (hnodup : code.order.Nodup)
    (hchain : ids.IsChain fun source target => code.Leads source target none) : ids.Nodup := by
  have : IsTrans NodeId fun first second => code.order.idxOf first < code.order.idxOf second :=
    ⟨fun _ _ _ => Nat.lt_trans⟩
  have hascending :=
    List.isChain_iff_pairwise.mp (hchain.imp fun _ _ hleads => hleads.idxOf_lt hnodup)
  refine hascending.imp fun {first second} hlt (hsame : first = second) => ?_
  exact Nat.lt_irrefl _ (hsame ▸ hlt)

end Code

/-! ### Trails and control -/

namespace Program

variable {row : List NodeId} {events : List Event}

/-- The statements of a trail stand in their places and are joined by control. -/
theorem Trails.leads (htrails : program.Trails row events) (houtlines : program.Outlines code)
    (hloopless : code.Loopless) (hpends : code.Pends row) :
    (∀ event ∈ events, ∃ tree, tree.id = event.statement ∧ (tree, event.behind) ∈ code.places []) ∧
      (events.map Event.statement).IsChain fun source target => code.Leads source target none := by
  have hdraws := houtlines.draws
  induction htrails with
  | nil => exact ⟨by simp, .nil⟩
  | @through statement rest body node holds events hnode hflow hlater ih =>
    obtain ⟨tree, rfl, hplace⟩ := hpends _ _ rfl
    have hstatement := hdraws.statement tree (Code.mem_statements_of_mem_places hplace)
    obtain rfl := Except.ok.inj (hnode.symm.trans hstatement.node_eq)
    have hway := Node.mem_ways_of_flowIf hflow
    obtain ⟨hplaces, hchain⟩ := ih (Code.pends_of_way hdraws hloopless hplace hway)
    refine ⟨List.forall_mem_cons.mpr ⟨⟨tree, rfl, hplace⟩, hplaces⟩, ?_⟩
    rw [List.map_cons, List.isChain_cons]
    refine ⟨fun next hnext => ?_, hchain⟩
    rw [List.head?_map, hlater.head?_eq] at hnext
    exact (Code.leads_iff_of_mem_places hdraws hloopless houtlines.nodup_order hplace).mpr
      ⟨body, hway, hnext⟩
  | @stop statement rest node holds hnode hflow =>
    exact ⟨List.forall_mem_singleton.mpr (hpends _ _ rfl), List.isChain_singleton _⟩

variable {outcomes : NodeId → Bool}

/-- A trail from the top goes through statements of the code. -/
theorem Trails.subset_order (htrails : program.Trails program.body events)
    (houtlines : program.Outlines code)
    (hloopless : code.Loopless) : events.map Event.statement ⊆ code.order := by
  intro id hid
  obtain ⟨event, hevent, rfl⟩ := List.mem_map.mp hid
  obtain ⟨tree, hsame, hplace⟩ :=
    (htrails.leads houtlines hloopless (houtlines.body ▸ Code.pends_heads hloopless)).1 event hevent
  exact hsame ▸ List.mem_map_of_mem (Code.mem_statements_of_mem_places hplace)

/-- A trail from the top is the one of the outcomes that it agrees with. -/
theorem Trails.trail_eq (htrails : program.Trails program.body events)
    (hagrees : program.Agrees outcomes events) (houtlines : program.Outlines code)
    (hloopless : code.Loopless) : program.trail outcomes = .ok events := by
  have hnodup := Code.nodup_of_isChain_leads houtlines.nodup_order
    (htrails.leads houtlines hloopless (houtlines.body ▸ Code.pends_heads hloopless)).2
  have hlength := (hnodup.subperm (htrails.subset_order houtlines hloopless)).length_le
  rw [List.length_map] at hlength
  exact htrails.trailFor_eq hagrees
    ((hlength.trans houtlines.frames.length_order_le).trans (Nat.le_add_right _ _))

theorem Outlines.exists_trail (houtlines : program.Outlines code)
    (hloopless : code.Loopless) (outcomes : NodeId → Bool) :
    ∃ events, program.trail outcomes = .ok events ∧ program.Trails program.body events := by
  obtain ⟨events, htrails, hagrees⟩ :=
    houtlines.draws.exists_trails outcomes ⟨[], .nil, by simp [Agrees]⟩
  rw [List.append_nil, ← houtlines.body] at htrails
  exact ⟨events, htrails.trail_eq hagrees houtlines hloopless, htrails⟩

/-- Control leads from the first statement of a program along its trails. -/
theorem Outlines.leads_of_trail (houtlines : program.Outlines code) (hloopless : code.Loopless)
    (htrail : program.trail outcomes = .ok events) :
    events.map Event.statement ⊆ code.order ∧
    (events.map Event.statement).head? = code.order.head? ∧
      (events.map Event.statement).IsChain fun source target => code.Leads source target none := by
  obtain ⟨found, hfound, htrails⟩ := houtlines.exists_trail hloopless outcomes
  obtain rfl := Except.ok.inj (htrail.symm.trans hfound)
  refine ⟨htrails.subset_order houtlines hloopless, ?_,
    (htrails.leads houtlines hloopless (houtlines.body ▸ Code.pends_heads hloopless)).2⟩
  rw [List.head?_map, htrails.head?_eq, houtlines.body, Code.head?_order]

variable {later : List Event}

/-- A code that nothing stops can be passed. -/
theorem DrawsCode.exists_trails_append (hdraws : program.DrawsCode code) (hloopless : code.Loopless)
    (hunstopped : code.Unstopped) (hlater : program.Trails after later) :
    ∃ front, program.Trails (code.heads ++ after) (front ++ later) := by
  induction hdraws generalizing after later with
  | nil => exact ⟨[], hlater⟩
  | @step statement rest hstatement hlists _ ih =>
    obtain ⟨hfirst, hrest⟩ := List.forall_mem_cons.mp hunstopped
    obtain ⟨front, htrails⟩ := ih hloopless hrest hlater
    obtain ⟨holds, hflow⟩ := hfirst [] (by simp [Node.ways_of_lists hlists])
    exact ⟨_ :: front, .through hstatement.node_eq hflow htrails⟩
  | @branch statement condition thenBody elseBody rest hstatement hbranch _ _ _ ihthen _ ih =>
    obtain ⟨hfirst, hparts⟩ := List.forall_mem_cons.mp hunstopped
    obtain ⟨hbodies, hrest⟩ := List.forall_mem_append.mp hparts
    obtain ⟨front, htrails⟩ := ih hloopless.2.2 hrest hlater
    obtain ⟨front', htrails'⟩ := ihthen hloopless.1 (List.forall_mem_append.mp hbodies).1 htrails
    obtain ⟨holds, hflow⟩ := hfirst thenBody.heads (by simp [hbranch, Node.ways])
    rw [← List.append_assoc front'] at htrails'
    exact ⟨_ :: (front' ++ front), .through hstatement.node_eq hflow htrails'⟩
  | loop => exact hloopless.elim

/-- Every place of a code that nothing stops can be reached. -/
theorem DrawsCode.exists_trails_of_place (hdraws : program.DrawsCode code)
    (hloopless : code.Loopless)
    (hunstopped : code.Unstopped) (hplace : (tree, behind) ∈ code.places after)
    (hlater : program.Trails (tree.id :: behind) later) :
    ∃ front, program.Trails (code.heads ++ after) (front ++ later) := by
  induction hdraws generalizing after with
  | nil => cases hplace
  | @step statement rest hstatement hlists _ ih =>
    obtain ⟨hfirst, hrest⟩ := List.forall_mem_cons.mp hunstopped
    rcases List.mem_cons.mp hplace with hsame | hplace
    · obtain ⟨rfl, rfl⟩ := Prod.mk.inj hsame
      exact ⟨[], hlater⟩
    · obtain ⟨front, htrails⟩ := ih hloopless hrest hplace
      obtain ⟨holds, hflow⟩ := hfirst [] (by simp [Node.ways_of_lists hlists])
      exact ⟨_ :: front, .through hstatement.node_eq hflow htrails⟩
  | @branch statement condition thenBody elseBody rest hstatement hbranch hthen _ _ ihthen
      ihelse ih =>
    obtain ⟨hfirst, hparts⟩ := List.forall_mem_cons.mp hunstopped
    obtain ⟨hbodies, hrest⟩ := List.forall_mem_append.mp hparts
    obtain ⟨hinThen, hinElse⟩ := List.forall_mem_append.mp hbodies
    have hway {body : List NodeId} (hway : body ∈ [thenBody.heads, elseBody.heads]) :
        ∃ holds, statement.node.flowIf holds = .through body := hfirst body (by rwa [hbranch])
    simp only [Code.places, List.mem_cons, List.mem_append, Prod.mk.injEq] at hplace
    rcases hplace with ⟨rfl, rfl⟩ | (hplace | hplace) | hplace
    · exact ⟨[], hlater⟩
    · obtain ⟨front, htrails⟩ := ihthen hloopless.1 hinThen hplace
      obtain ⟨holds, hflow⟩ := hway (List.mem_cons_self)
      exact ⟨_ :: front, .through hstatement.node_eq hflow htrails⟩
    · obtain ⟨front, htrails⟩ := ihelse hloopless.2.1 hinElse hplace
      obtain ⟨holds, hflow⟩ := hway (List.mem_cons_of_mem _ List.mem_cons_self)
      exact ⟨_ :: front, .through hstatement.node_eq hflow htrails⟩
    · obtain ⟨front, htrails⟩ := ih hloopless.2.2 hrest hplace
      obtain ⟨front', htrails'⟩ := hthen.exists_trails_append hloopless.1 hinThen htrails
      obtain ⟨holds, hflow⟩ := hway (List.mem_cons_self)
      rw [← List.append_assoc front'] at htrails'
      exact ⟨_ :: (front' ++ front), .through hstatement.node_eq hflow htrails'⟩
  | loop => exact hloopless.elim

/-- Whatever way control goes at a place, there is a trail from there on. -/
theorem DrawsCode.exists_trails_of_way (hdraws : program.DrawsCode code) (hloopless : code.Loopless)
    (hunstopped : code.Unstopped) (hplace : (tree, behind) ∈ code.places after)
    (hway : body ∈ tree.node.ways) (hafter : ∃ later, program.Trails after later) :
    ∃ later, program.Trails (body ++ behind) later := by
  have hpass {part : Code} (hpart : program.DrawsCode part) (hloopless : part.Loopless)
      (hunstopped : part.Unstopped) {after : List NodeId}
        (hafter : ∃ later, program.Trails after later) :
      ∃ later, program.Trails (part.heads ++ after) later := by
    obtain ⟨later, hlater⟩ := hafter
    obtain ⟨front, htrails⟩ := hpart.exists_trails_append hloopless hunstopped hlater
    exact ⟨_, htrails⟩
  induction hdraws generalizing after with
  | nil => cases hplace
  | @step statement rest _ hlists hrest ih =>
    obtain ⟨-, hinRest⟩ := List.forall_mem_cons.mp hunstopped
    rcases List.mem_cons.mp hplace with hsame | hplace
    · obtain ⟨rfl, rfl⟩ := Prod.mk.inj hsame
      obtain rfl := List.mem_singleton.mp (Node.ways_of_lists hlists ▸ hway)
      exact hpass hrest hloopless hinRest hafter
    · exact ih hloopless hinRest hplace hafter
  | @branch statement condition thenBody elseBody rest _ hbranch hthen helse hrest ihthen
      ihelse ih =>
    obtain ⟨hthenLoopless, helseLoopless, hrestLoopless⟩ := hloopless
    obtain ⟨-, hparts⟩ := List.forall_mem_cons.mp hunstopped
    obtain ⟨hbodies, hinRest⟩ := List.forall_mem_append.mp hparts
    obtain ⟨hinThen, hinElse⟩ := List.forall_mem_append.mp hbodies
    have hbehind := hpass hrest hrestLoopless hinRest hafter
    simp only [Code.places, List.mem_cons, List.mem_append, Prod.mk.injEq] at hplace
    rcases hplace with ⟨rfl, rfl⟩ | (hplace | hplace) | hplace
    · rw [hbranch] at hway
      rcases List.mem_pair.mp hway with rfl | rfl
      · exact hpass hthen hthenLoopless hinThen hbehind
      · exact hpass helse helseLoopless hinElse hbehind
    · exact ihthen hthenLoopless hinThen hplace hbehind
    · exact ihelse helseLoopless hinElse hplace hbehind
    · exact ih hrestLoopless hinRest hplace hafter
  | loop => exact hloopless.elim

end Program

/-! ### Paths of blocks -/

namespace Graph

/-- Control passes these blocks one after the other, each along an edge to the next one, and
executes all of their statements but those that are left of the last one. -/
inductive Passes (program : Program) (graph : Graph) :
    List BasicBlock → List NodeId → List NodeId → Prop
  | last {block : BasicBlock} {done left : List NodeId} (hblock : block ∈ graph.blocks)
    (hdone : done ≠ []) (hrow : block.statements program = .ok (done ++ left)) :
    Passes program graph [block] done left
  | next {block following : BasicBlock} {path : List BasicBlock} {row done left : List NodeId}
    (hblock : block ∈ graph.blocks) (hrow : block.statements program = .ok row)
    (hedge : following.id ∈ block.successors)
    (hrest : Passes program graph (following :: path) done left) :
    Passes program graph (block :: following :: path) (row ++ done) left

variable {graph : Graph} {block : BasicBlock} {ids row left : List NodeId} {path : List BasicBlock}

/-- Along a row in which control can go nowhere else, one of two ways goes on with the other. -/
theorem isPrefix_or_isPrefix (hrow : row.IsChain (code.Chained none))
    (hids : ids.IsChain fun source target => code.Leads source target none)
    (hhead : ids.head? = row.head?) :
    ids <+: row ∨ row <+: ids := by
  induction row generalizing ids with
  | nil => exact Or.inr List.nil_prefix
  | cons first row ih =>
    obtain ⟨ids, rfl⟩ := List.head?_eq_some_iff.mp hhead
    simp only [List.prefix_cons_inj]
    rw [List.isChain_cons] at hrow hids
    cases ids with
    | nil => exact Or.inl List.nil_prefix
    | cons next ids =>
      cases row with
      | nil => exact Or.inr List.nil_prefix
      | cons second row =>
        obtain rfl : next = second := (hrow.1 second rfl).only next (hids.1 next rfl)
        exact ih hrow.2 hids.2 rfl

namespace Depicts

variable (hdepicts : graph.Depicts program code) (houtlines : program.Outlines code)

include hdepicts houtlines

theorem eq_of_last?_eq {source other : BasicBlock} (hsource : source ∈ graph.blocks)
    (hother : other ∈ graph.blocks) (hlast : source.last? = some id)
    (hlast' : other.last? = some id) :
    source = other :=
  hdepicts.eq_of_mem_row houtlines.nodup_order hsource hother
    (List.mem_of_getLast? ((hdepicts.holds source hsource).getLast?.trans hlast))
    (List.mem_of_getLast? ((hdepicts.holds other hother).getLast?.trans hlast'))

theorem eq_of_first?_eq {target other : BasicBlock} (htarget : target ∈ graph.blocks)
    (hother : other ∈ graph.blocks) (hfirst : target.first? = some id)
    (hfirst' : other.first? = some id) :
    target = other :=
  hdepicts.eq_of_mem_row houtlines.nodup_order htarget hother
    (List.mem_of_head? ((hdepicts.holds target htarget).head?.trans hfirst))
    (List.mem_of_head? ((hdepicts.holds other hother).head?.trans hfirst'))

/-- Behind the last statement of a block nothing else stands in a block. -/
theorem isChain_not_last (hblock : block ∈ graph.blocks) :
    (block.row program).IsChain fun first _ => ∀ source ∈ graph.blocks,
      source.last? ≠ some first := by
  rw [List.isChain_iff_forall_rel_of_append_cons_cons]
  intro first second before later hrow source hsource hlast
  obtain ⟨earlier, last, hlast', hrow'⟩ := (hdepicts.holds source hsource).exists_concat
  obtain rfl := Option.some.inj (hlast'.symm.trans hlast)
  obtain rfl := hdepicts.eq_of_mem_row houtlines.nodup_order hblock
    hsource (by simp [hrow] : last ∈ _) (by simp [hrow'])
  have hnodup := hdepicts.nodup_row houtlines.nodup_order hblock
  have hfront : last ∈ (block.row program).dropLast := by simp [hrow]
  rw [hrow', List.dropLast_concat] at hfront
  rw [hrow'] at hnodup
  exact (List.nodup_append'.mp hnodup).2.2 hfront (List.mem_singleton_self _)

/-- Statements that are joined by control are those of a path of blocks, and the path goes along
every edge that they go along. -/
theorem exists_passes (hids : ids.IsChain fun source target => code.Leads source target none)
    (hblock : block ∈ graph.blocks) (hhead : ids.head? = block.first?) :
    ∃ path left, graph.Passes program (block :: path) ids left ∧
      ids.IsChain fun last first => ∀ source ∈ graph.blocks, ∀ target ∈ graph.blocks, source.last? =
          some last → target.first? = some first → [source, target] <:+: block :: path := by
  induction hlength : ids.length using Nat.strong_induction_on generalizing ids block with
  | _ length ih =>
  subst hlength
  have hholds := hdepicts.holds block hblock
  have hstatements := hholds.statements houtlines
  obtain ⟨id, rest, hfirst, hrow⟩ := hholds.exists_cons
  obtain ⟨earlier, exit, hexit, hconcat⟩ := hholds.exists_concat
  have hne : ids ≠ [] := by
    rintro rfl
    rw [← hhead] at hfirst
    cases hfirst
  have hinside := hdepicts.isChain_not_last houtlines hblock
  rcases isPrefix_or_isPrefix hholds.chained hids (hhead.trans hholds.head?.symm)
    with hprefix | hprefix
  · obtain ⟨left, hleft⟩ := hprefix
    refine ⟨[], left, .last hblock hne (hleft ▸ hstatements), ?_⟩
    rw [← hleft] at hinside
    exact (List.isChain_append.mp hinside).1.imp
      fun last first hnot source hsource target _ hlast =>
      absurd hlast (hnot source hsource)
  obtain ⟨later, rfl⟩ := hprefix
  cases later with
  | nil =>
    rw [List.append_nil] at hne ⊢
    refine ⟨[], [], .last hblock hne (by rwa [List.append_nil]), ?_⟩
    exact hinside.imp fun last first hnot source hsource target _ hlast =>
      absurd hlast (hnot source hsource)
  | cons next later =>
    obtain ⟨-, hlater, hjoin⟩ := List.isChain_append.mp hids
    have hleads : code.Leads exit next none :=
      hjoin exit (by rw [hconcat, List.getLast?_concat]; rfl) next rfl
    obtain ⟨following, hfollowing, hnext⟩ :=
      hdepicts.exists_first_of_leads houtlines.nodup_order hleads hblock hexit
    have hedge : following.id ∈ block.successors :=
      (hdepicts.successors block hblock following hfollowing).mpr ⟨exit, hexit, next, hnext, hleads⟩
    obtain ⟨path, left, hpasses, hedges⟩ :=
      ih _ (by simp only [List.length_append, hrow, List.length_cons]; omega) hlater hfollowing
      hnext.symm rfl
    refine ⟨following :: path, left, .next hblock hstatements hedge hpasses, ?_⟩
    refine (hinside.imp fun last first hnot source hsource target _ hlast =>
      absurd hlast (hnot source hsource)).append
        (hedges.imp fun last first hfound source hsource target htarget hlast hfirst =>
          List.infix_cons (hfound source hsource target htarget hlast hfirst)) ?_
    -- the edge from this block to the next one
    rintro last hlast first ⟨⟩ source hsource target htarget hlast' hfirst'
    rw [hconcat, List.getLast?_concat] at hlast
    obtain rfl := Option.some.inj hlast
    obtain rfl := hdepicts.eq_of_last?_eq houtlines hsource hblock hlast' hexit
    obtain rfl := hdepicts.eq_of_first?_eq houtlines htarget hfollowing hfirst' hnext
    exact ⟨[], path, rfl⟩

/-- What is left of a block would have been executed next. -/
theorem exists_leads_of_left (hpasses : graph.Passes program path ids left) (hleft : left ≠ []) :
    ∃ last ∈ ids.getLast?, ∃ next, code.Leads last next none := by
  induction hpasses with
  | @last block done left hblock hdone hrow =>
    obtain ⟨front, last, rfl⟩ := (List.eq_nil_or_concat' done).resolve_left hdone
    obtain ⟨next, left, rfl⟩ := List.exists_cons_of_ne_nil hleft
    have hstatements :=
      Except.ok.inj (((hdepicts.holds block hblock).statements houtlines).symm.trans hrow)
    rw [List.append_assoc, List.singleton_append] at hstatements
    exact ⟨last, List.getLast?_concat, next, (hdepicts.chained_of_row hblock hstatements).leads⟩
  | @next block following path row done left hblock hrow hedge hrest ih =>
    obtain ⟨last, hlast, hleads⟩ := ih hleft
    refine ⟨last, ?_, hleads⟩
    rw [List.getLast?_append, hlast]
    rfl

end Depicts

/-! ### Trails and paths -/

/-- With these outcomes, the statements of these events are executed, along this path of blocks. -/
structure Traces (program : Program) (graph : Graph) (outcomes : NodeId → Bool)
    (path : List BasicBlock) (events : List Event) : Prop where
  trail : program.trail outcomes = .ok events
  starts : path.head?.map BasicBlock.id = some ⟨0⟩
  passes : ∃ left, graph.Passes program path (events.map Event.statement) left ∧
    (left ≠ [] → ∃ event ∈ events.getLast?, event.CutsShort program)

namespace Built

variable {config : Config} {events : List Event} {outcomes : NodeId → Bool}

variable (hbuilt : Built program config code graph) (houtlines : program.Outlines code)

include hbuilt

/-- The first block begins with the first statement. -/
theorem exists_start (hbody : program.body ≠ []) :
    ∃ block ∈ graph.blocks, block.id = ⟨0⟩ ∧ program.body.head? = block.first? := by
  have hdepicts := hbuilt.depicts
  have hhead : program.body.head? = code.order.head? := by rw [code.head?_order, hbuilt.frames.body]
  cases hblocks : graph.blocks with
  | nil =>
    have horder := hdepicts.order
    rw [hblocks, List.flatMap_nil] at horder
    rw [← horder, List.head?_nil, List.head?_eq_none_iff] at hhead
    exact absurd hhead hbody
  | cons block blocks =>
    have hblock : block ∈ graph.blocks := hblocks ▸ List.mem_cons_self
    obtain ⟨id, later, hfirst, hrow⟩ := (hdepicts.holds block hblock).exists_cons
    refine ⟨block, List.mem_cons_self, hdepicts.starts block (by rw [hblocks]; rfl), ?_⟩
    rw [hhead, ← hdepicts.order, hblocks, List.flatMap_cons, hrow, hfirst]
    rfl

include houtlines

/-- A run ends in the middle of a block only where it is cut short. -/
theorem cutsShort (htrails : program.Trails program.body events)
    (hagrees : program.Agrees outcomes events) {event : Event} (hevent : event ∈ events.getLast?)
    {next : NodeId} (hnext : code.Leads event.statement next none) : event.CutsShort program := by
  have hmem := List.mem_of_getLast? hevent
  obtain ⟨hplaces, -⟩ := htrails.leads houtlines hbuilt.loopless
    (houtlines.body ▸ Code.pends_heads hbuilt.loopless)
  obtain ⟨tree, hid, hplace⟩ := hplaces event hmem
  have hstatement := Code.mem_statements_of_mem_places hplace
  have hnode := (houtlines.draws.statement tree hstatement).node_eq
  rw [hid] at hnode
  rcases htrails.ends event hevent with hstop | ⟨hthrough, hbehind⟩
  · obtain ⟨node, hnode', hflow⟩ := hagrees event hmem
    obtain rfl := Except.ok.inj (hnode'.symm.trans hnode)
    rw [hstop] at hflow
    refine Or.inl ⟨hstop, ?_⟩
    cases hkind : tree.node with
    | discard condition => exact ⟨condition, hkind ▸ hnode⟩
    | ret value => exact absurd hkind (hbuilt.returnless tree hstatement value)
    | _ =>
      rw [hkind] at hflow
      cases hflow
  · obtain ⟨body, hway, hhead⟩ := (Code.leads_iff_of_mem_places houtlines.draws hbuilt.loopless
      houtlines.nodup_order hplace).mp (hid ▸ hnext)
    rw [hbehind, List.append_nil] at hhead
    refine Or.inr ⟨hthrough, hbehind, ?_⟩
    cases hkind : tree.node with
    | branch condition thenBody elseBody => exact ⟨_, _, _, hkind ▸ hnode⟩
    | _ =>
      rw [hkind] at hway
      obtain rfl := List.mem_singleton.mp hway
      cases hhead

/-- A trail goes along a path of blocks, and along every edge on its way. -/
theorem exists_traces (hbody : program.body ≠ []) (htrails : program.Trails program.body events)
    (hagrees : program.Agrees outcomes events) :
    ∃ path, graph.Traces program outcomes path events ∧
      (events.map Event.statement).IsChain fun last first => ∀ source ∈ graph.blocks,
        ∀ target ∈ graph.blocks,
        source.last? = some last → target.first? = some first → [source, target] <:+: path := by
  obtain ⟨-, hchain⟩ := htrails.leads houtlines hbuilt.loopless
    (houtlines.body ▸ Code.pends_heads hbuilt.loopless)
  obtain ⟨block, hblock, hid, hstart⟩ := hbuilt.exists_start hbody
  have hhead : (events.map Event.statement).head? = block.first? := by
    rw [List.head?_map, htrails.head?_eq, hstart]
  obtain ⟨path, left, hpasses, hedges⟩ := hbuilt.depicts.exists_passes houtlines hchain hblock hhead
  refine ⟨block :: path, ⟨htrails.trail_eq hagrees houtlines hbuilt.loopless, congrArg some hid,
      left, hpasses, fun hleft => ?_⟩, hedges⟩
  obtain ⟨last, hlast, next, hnext⟩ := hbuilt.depicts.exists_leads_of_left houtlines hpasses hleft
  rw [List.getLast?_map] at hlast
  obtain ⟨event, hevent, rfl⟩ := Option.map_eq_some_iff.mp hlast
  exact ⟨event, hevent, hbuilt.cutsShort houtlines htrails hagrees hevent hnext⟩

/-- Control can go along every edge. -/
theorem exists_trails_of_joins {source target : BasicBlock} (hsource : source ∈ graph.blocks)
    (htarget : target ∈ graph.blocks) (hjoins : source.Joins code target) :
    ∃ events, program.Trails program.body events ∧ ∃ last first, source.last? = some last ∧
      target.first? = some first ∧ [last, first] <:+: events.map Event.statement := by
  have hloopless := hbuilt.loopless
  have hdepicts := hbuilt.depicts
  have hlt := hdepicts.lt_of_joins houtlines.nodup_order hsource htarget hjoins
  obtain ⟨last, hlast, first, hfirst, hleads⟩ := hjoins
  have hunstopped : code.Unstopped := by
    refine Code.unstopped_of_discardless hbuilt.returnless (hbuilt.discardless ?_)
    -- the two ends of the edge are different blocks
    have hpair : [source, target].Subperm graph.blocks := List.Nodup.subperm (by
          simp; rintro rfl; exact Nat.lt_irrefl _ hlt) (by simp [hsource, htarget])
    exact hpair.length_le
  obtain ⟨tree, htree, rfl⟩ := List.mem_map.mp hleads.source_mem
  obtain ⟨behind, hplace⟩ := Code.exists_place hloopless htree []
  obtain ⟨body, hway, hhead⟩ :=
    (Code.leads_iff_of_mem_places houtlines.draws hloopless houtlines.nodup_order hplace).mp hleads
  obtain ⟨holds, hflow⟩ := hunstopped tree htree body hway
  obtain ⟨later, hlater⟩ :=
    houtlines.draws.exists_trails_of_way hloopless hunstopped hplace hway ⟨[], .nil⟩
  have hnode := (houtlines.draws.statement tree htree).node_eq
  obtain ⟨front, htrails⟩ := houtlines.draws.exists_trails_of_place hloopless hunstopped hplace
    (.through hnode hflow hlater)
  rw [List.append_nil, ← houtlines.body] at htrails
  refine ⟨_, htrails, tree.id, first, hlast, hfirst, ?_⟩
  rw [← hlater.head?_eq, Option.map_eq_some_iff] at hhead
  obtain ⟨event, hevent, rfl⟩ := hhead
  obtain ⟨later, rfl⟩ := List.head?_eq_some_iff.mp hevent
  exact ⟨front.map Event.statement, later.map Event.statement, by simp⟩

end Built

variable {config : Config}

/-- The paths of a built graph are the runs of its program. For all outcomes of the tests, the
statements that are executed are those of a path of blocks that begins with the first block, each
but the last one executed completely; the last one is cut short only where a discard fires, or where
a conditional chooses an empty body and nothing is left to execute. Every run of the interpreter
goes along such a path, edges go to blocks of higher ids, and every edge is on the path of some
outcomes. -/
theorem paths_of_build (hcheck : program.check = .ok ()) (hbody : program.body ≠ [])
    (hbuild : Query.Answers (build program config) graph) :
    (∀ outcomes, ∃ path events, graph.Traces program outcomes path events) ∧
    (∀ inputs trace, program.run inputs = .ok (.ok trace) → ∃ outcomes path events machine,
      graph.Traces program outcomes path events ∧
      program.Follows events (program.initial inputs) machine ∧ machine.trace = trace) ∧
    ∀ source ∈ graph.blocks, ∀ id ∈ source.successors, ∃ target ∈ graph.blocks, target.id = id ∧
      source.id.index < id.index ∧
      ∃ outcomes path events, graph.Traces program outcomes path events ∧
        [source, target] <:+: path := by
  obtain ⟨code, houtlines, hbuilt⟩ := exists_built_of_build hcheck hbuild
  have hdepicts := hbuilt.depicts
  have hagrees {events : List Event} (htrails : program.Trails program.body events) :
      ∃ outcomes, program.Agrees outcomes events := by
    obtain ⟨-, hchain⟩ := htrails.leads houtlines hbuilt.loopless
      (houtlines.body ▸ Code.pends_heads hbuilt.loopless)
    exact htrails.exists_agrees (Code.nodup_of_isChain_leads houtlines.nodup_order hchain)
  refine ⟨fun outcomes => ?_, fun inputs trace hrun => ?_, fun source hsource id hid => ?_⟩
  · obtain ⟨events, htrails, hagrees⟩ :=
      houtlines.draws.exists_trails outcomes ⟨[], .nil, by simp [Program.Agrees]⟩
    rw [List.append_nil, ← houtlines.body] at htrails
    obtain ⟨path, htraces, -⟩ := hbuilt.exists_traces houtlines hbody htrails hagrees
    exact ⟨path, events, htraces⟩
  · obtain ⟨machine, hexecutes, htrace⟩ := Program.run_eq_ok_iff.mp hrun
    obtain ⟨events, htrails, -, hfollows⟩ := Program.exists_trails_of_executeFor hexecutes
    obtain ⟨outcomes, hagrees⟩ := hagrees htrails
    obtain ⟨path, htraces, -⟩ := hbuilt.exists_traces houtlines hbody htrails hagrees
    exact ⟨outcomes, path, events, machine, htraces, hfollows, htrace⟩
  · obtain ⟨target, htarget, rfl⟩ := mem_ids_iff.mp ((hdepicts.live source hsource).2 hid)
    have hjoins := (hdepicts.successors source hsource target htarget).mp hid
    obtain ⟨events, htrails, last, first, hlast, hfirst, before, later, hinfix⟩ :=
      hbuilt.exists_trails_of_joins houtlines hsource htarget hjoins
    obtain ⟨outcomes, hagrees⟩ := hagrees htrails
    obtain ⟨path, htraces, hedges⟩ := hbuilt.exists_traces houtlines hbody htrails hagrees
    refine ⟨target, htarget, rfl, hdepicts.lt_of_joins houtlines.nodup_order hsource htarget hjoins,
      outcomes, path, events, htraces, ?_⟩
    rw [← hinfix, List.append_assoc, List.cons_append, List.singleton_append,
      List.isChain_append_cons_cons] at hedges
    exact hedges.2.1 source hsource target htarget hlast hfirst

/-- Only the outer conditional takes its first body; the last conditional has no other body, and its
block is cut short. Control can also go from the second block to the third one. -/
theorem paths_of_build_nestedBodies :
    ∃ graph path events source target outcomes path' events', nestedBodies.check = .ok () ∧
    nestedBodies.body ≠ [] ∧ Query.Answers (build nestedBodies {}) graph ∧
    graph.Traces nestedBodies (fun id => id == ⟨15⟩) path events ∧
    events.map Event.statement = [⟨2⟩, ⟨15⟩, ⟨5⟩, ⟨10⟩, ⟨16⟩, ⟨21⟩] ∧
    source ∈ graph.blocks ∧ source.id = ⟨1⟩ ∧ ⟨2⟩ ∈ source.successors ∧ target.id = ⟨2⟩ ∧
    source.id.index < 2 ∧ graph.Traces nestedBodies outcomes path' events' ∧
    [source, target] <:+: path' := by
  have hcheck : nestedBodies.check = .ok () := rfl
  have hbody : nestedBodies.body ≠ [] := List.cons_ne_nil _ _
  obtain ⟨graph, hbuild, source, hsource, hid, hedge⟩ :
    ∃ graph, Query.Answers (build nestedBodies {}) graph ∧
      ∃ source ∈ graph.blocks, source.id = ⟨1⟩ ∧ ⟨2⟩ ∈ source.successors :=
        ⟨_, rfl, by decide +kernel⟩
  obtain ⟨hpaths, -, hedges⟩ := paths_of_build hcheck hbody hbuild
  obtain ⟨path, events, htraces⟩ := hpaths fun id => id == ⟨15⟩
  obtain ⟨target, -, hid', hlt, outcomes, path', events', htraces', hinfix⟩ :=
    hedges source hsource ⟨2⟩ hedge
  have hstatements : (nestedBodies.trail fun id => id == ⟨15⟩).map (List.map Event.statement) =
      .ok [⟨2⟩, ⟨15⟩, ⟨5⟩, ⟨10⟩, ⟨16⟩, ⟨21⟩] := by decide +kernel
  rw [htraces.trail] at hstatements
  exact ⟨graph, path, events, source, target, outcomes, path', events', hcheck, hbody, hbuild,
    htraces, Except.ok.inj hstatements, hsource, hid, hedge, hid', hlt, htraces', hinfix⟩

end Graph

end ShaderIR
