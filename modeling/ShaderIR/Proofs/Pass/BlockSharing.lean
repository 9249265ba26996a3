import ShaderIR.Pass.LocalCse
import ShaderIR.Proofs.Numbering.Depth
import ShaderIR.Proofs.Pass.ShallowSharing

/-!
Sharing in ranges and blocks. `Program.Shared` says what sharing leaves of a program: rows of
statements stand for those that have been edited, and only nodes in their territories are not what
they were. One statement keeps this (`SharingPlan.ensures_shareInRange`), and so does a block that
has been numbered beforehand (`ensures_shareBlock`), whatever has been shared in other blocks since;
neither of them ever fails.
-/

set_option autoImplicit false

namespace ShaderIR

/-- The territory of a statement are the nodes that its edit may overwrite. -/
structure Program.Divides (origin : Program) (code : Code) (territory : NodeId → NodeId → Prop) :
    Prop where
  self : ∀ statement ∈ code.order, territory statement statement
  encloses : ∀ statement ∈ code.order, origin.Encloses (territory statement)

theorem Program.divides_all (origin : Program) (code : Code) :
    origin.Divides code fun _ _ => True :=
  ⟨fun _ _ => trivial, fun _ _ _ _ _ _ _ _ _ _ => Or.inl trivial⟩

/-- Rows of statements stand for those that have been edited, and nodes outside of the territories
of these are what they were. -/
structure Program.Shared (origin : Program) (code : Code) (territory : NodeId → NodeId → Prop)
    (row : NodeId → List NodeId) (edited : List NodeId) (program : Program) : Prop where
  expanded : origin.Expanded code row program
  spares : origin.Spares (fun id => ∃ statement ∈ edited, territory statement id) program
  others : ∀ statement ∉ edited, row statement = [statement]

theorem Program.Shared.mono {origin program : Program} {code : Code}
    {territory : NodeId → NodeId → Prop} {row : NodeId → List NodeId} {edited edited' : List NodeId}
    (hshared : origin.Shared code territory row edited program) (hedited : edited ⊆ edited') :
    origin.Shared code territory row edited' program where
  expanded := hshared.expanded
  spares := hshared.spares.mono fun _ ⟨statement, hmem, hreached⟩ =>
    ⟨statement, hedited hmem, hreached⟩
  others statement hnot := hshared.others statement fun hmem => hnot (hedited hmem)

open Program Edit

variable {origin : Program} {code : Code} {territory : NodeId → NodeId → Prop}
  {row : NodeId → List NodeId} {edited : List NodeId}

namespace SharingPlan

/-- Statements have been shared one after the other, and each has been replaced by a row. -/
inductive Steps (plan : SharingPlan) :
    Draft Temporaries → List (NodeId × List NodeId) → Draft Temporaries → Prop
  | nil (draft : Draft Temporaries) : Steps plan draft [] draft
  | cons {draft between draft' : Draft Temporaries} {id : NodeId} {replaced : List NodeId}
    {rest : List (NodeId × List NodeId)} {program : Program} (hpending : draft.pending = [])
    (hshares : Walk.Answers (plan.shareStatement id) draft replaced between)
    (hprogram : program.bare = between.program.bare)
    (hrest : Steps plan { between with program, pending := [] } rest draft') :
    Steps plan draft ((id, between.pending ++ replaced) :: rest) draft'

variable {plan : SharingPlan} {draft : Draft Temporaries} {range : BlockRange}
  {statements : List NodeId} {id : NodeId}

theorem Steps.append {draft₁ draft' : Draft Temporaries}
    {first second : List (NodeId × List NodeId)}
    (hfirst : plan.Steps draft first draft₁) (hsecond : plan.Steps draft₁ second draft') :
    plan.Steps draft (first ++ second) draft' := by
  induction hfirst with
  | nil => exact hsecond
  | cons hpending hshares hprogram _ ih => exact .cons hpending hshares hprogram (ih hsecond)

/-! ### Ranges -/

theorem replaceIn_expanded {replaced : List NodeId} (hself : row id = [id])
    (hfirst : firstOf row range.first = id → range.first = id)
    (hlast : lastOf row range.last = id → range.last = id) :
    replaceIn (range.expanded row) id replaced =
      range.expanded (Function.update row id replaced) := by
  have hfirst' :
      (if firstOf row range.first = id then replaced.headD id else firstOf row range.first) =
      firstOf (Function.update row id replaced) range.first := by
    by_cases hsame : range.first = id
    · rw [hsame, firstOf, hself, firstOf, Function.update_self]
      exact if_pos rfl
    · rw [if_neg fun h => hsame (hfirst h), firstOf, firstOf, Function.update_of_ne hsame]
  have hlast' :
      (if lastOf row range.last = id then replaced.getLastD id else lastOf row range.last) =
      lastOf (Function.update row id replaced) range.last := by
    by_cases hsame : range.last = id
    · rw [hsame, lastOf, hself, lastOf, Function.update_self]
      exact if_pos rfl
    · rw [if_neg fun h => hsame (hlast h), lastOf, lastOf, Function.update_of_ne hsame]
  exact congrArg₂ (BlockRange.mk range.list) hfirst' hlast'

private theorem splice_eq {α : Type} (before : List α) (item : α) (row after : List α) :
    (before ++ item :: after).take before.length ++ row ++ (before ++ item :: after).drop
      (before.length + 1) = before ++ row ++ after := by
  simp

section Ranges

variable (hframes : origin.Frames code) (hdivides : origin.Divides code territory)
  (hcovers : range.Covers code statements)

include hframes hcovers

/-- A statement of a range that has not been edited stands behind the rows of those in front of
it. -/
theorem exists_list_of_mem (hshared : origin.Shared code territory row edited draft.program)
    (hid : id ∈ statements)
    (hnew : id ∉ edited) : ∃ before after, (range.list, before ++ id :: after) ∈ code.lists .root ∧
      draft.program.list range.list = .ok (before.flatMap row ++ id :: after.flatMap row) ∧
        draft.program.position? range.list id = .ok (some (before.flatMap row).length) := by
  have horder := hcovers.subset_order hid
  obtain ⟨before, after, hentry, hlist⟩ : ∃ before after,
      (range.list, before ++ id :: after) ∈ code.lists .root ∧
        draft.program.list range.list = .ok (before.flatMap row ++ id :: after.flatMap row) := by
    obtain ⟨before, after, hmem⟩ := hcovers.list
    obtain ⟨first, later, rfl⟩ := List.append_of_mem hid
    refine ⟨before ++ first, later ++ after, by simpa using hmem, ?_⟩
    rw [hshared.expanded.lists _ hmem]
    simp [hshared.others id hnew]
  have hnot : id ∉ before.flatMap row := by
    intro hmem
    obtain ⟨other, hother, hmem⟩ := List.mem_flatMap.mp hmem
    obtain rfl := eq_of_mem_flatMap hshared.expanded.nodup
      (Code.mem_order_of_mem_lists hentry (List.mem_append_left _ hother)) horder hmem
      (by simp [hshared.others id hnew])
    have hnodup := Code.nodup_of_mem_lists hframes.nodup_order hentry
    exact (List.nodup_append'.mp hnodup).2.2 hother List.mem_cons_self
  refine ⟨before, after, hentry, hlist, ?_⟩
  rw [position?, hlist, ← idxOf?_append_cons hnot]
  rfl

/-- A range that has not been edited still has its statements. -/
theorem statements_expanded (hshared : origin.Shared code territory row edited draft.program)
    (hnew : edited.Disjoint statements) :
    (range.expanded row).statements draft.program = .ok statements := by
  obtain ⟨code', hframes', hexpands⟩ := hshared.expanded.exists_frames hframes
  have hself : statements.flatMap row = statements := by
    rw [List.flatMap_congr fun statement hmem => hshared.others statement fun hedited =>
      hnew hedited hmem, List.flatMap_singleton']
  rw [(hcovers.expanded hexpands).statements hframes', hself]

include hdivides

/-- Sharing never fails on a statement that has not been edited, and what it leaves of that is a
row. -/
theorem ensures_shareStatement_of_shared
    (hshared : origin.Shared code territory row edited draft.program)
    (hpending : draft.pending = []) (hid : id ∈ statements)
    (hfits : origin.FitsStatement plan.limit id)
    (hpurely : (plan.targets.lookup id).isSome → origin.CallsPurely id) :
    Walk.Ensures (plan.shareStatement id) draft (fun replaced draft' =>
      draft.program.Trims draft'.program ∧ draft.program.Spares (territory id) draft'.program ∧
        (∀ ref statements, draft.program.list ref = .ok statements →
          draft'.program.list ref = .ok statements) ∧
          draft.program.RowFor draft'.program id (draft'.pending ++ replaced)) fun _ _ =>
          False := by
  have horder := hcovers.subset_order hid
  let scope : Scope := ⟨draft.program, territory id, territory id, fun _ hmem => hmem,
    hdivides.encloses id horder draft.program hshared.expanded.trims⟩
  have hshares :
      Walk.Ensures (plan.shareStatement id) draft (fun replaced draft' => draft'.Evolved scope ∧
      draft.program.RowFor draft'.program id (draft'.pending ++ replaced)) fun _ _ => False :=
    ensures_shareStatement rfl hpending (hdivides.self id horder)
      (hshared.expanded.trims.fitsStatement hfits) fun hlookup =>
        hshared.expanded.trims.callsPurely (hframes.framed.lt_size horder) (hpurely hlookup)
  exact hshares.mono (fun _ _ ⟨hevolved, hrow⟩ =>
    ⟨hevolved.trims, hevolved.spares, hevolved.lists, hrow⟩) fun _ _ => False.elim

/-- Sharing in one statement of a range puts a row in its place, and the range goes along. -/
theorem ensures_shareInRange (hshared : origin.Shared code territory row edited draft.program)
    (hpending : draft.pending = []) (hid : id ∈ statements) (hnew : id ∉ edited)
    (hfits : origin.FitsStatement plan.limit id)
    (hpurely : (plan.targets.lookup id).isSome → origin.CallsPurely id) :
    Walk.Ensures (plan.shareInRange (range.expanded row) id) draft (fun range' draft' =>
      ∃ row', origin.Shared code territory row' (id :: edited) draft'.program ∧
        draft'.pending = [] ∧
        range' = range.expanded row' ∧ (∀ other ≠ id, row' other = row other) ∧
        plan.Steps draft [(id, row' id)] draft') fun _ _ => False := by
  have horder := hcovers.subset_order hid
  obtain ⟨before, after, hentry, hlist, hposition⟩ :=
    exists_list_of_mem hframes hcovers hshared hid hnew
  have hshares :=
    ensures_shareStatement_of_shared hframes hdivides hcovers hshared hpending hid hfits hpurely
  unfold shareInRange
  simp only [Walk.ensures_bind, ensures_ask]
  intro place hplace
  obtain rfl : some (before.flatMap row).length = place :=
    Except.ok.inj (hposition.symm.trans hplace)
  simp only [Walk.ensures_bind, Walk.ensures_attempt, ensures_takePending, ensures_ask,
    Walk.ensures_modify, Walk.ensures_liftExcept, Walk.ensures_pure]
  refine hshares.and_answers.mono ?_ fun _ _ => False.elim
  rintro replaced draft' ⟨⟨htrims, hspares, hlists, hrow⟩, hanswers⟩ list hlist' program' hset
  have hold := hlists _ _ hlist
  obtain rfl := Except.ok.inj (hold.symm.trans hlist')
  have hset' : draft'.program.setList range.list
      (before.flatMap row ++ (draft'.pending ++ replaced) ++ after.flatMap row) = .ok program' := by
    rw [← splice_eq _ id]
    exact hset
  have hends {other : NodeId} (hmem : other ∈ statements) (hself : id ∈ row other) : other = id :=
    eq_of_mem_flatMap hshared.expanded.nodup (hcovers.subset_order hmem) horder hself
      (by simp [hshared.others id hnew])
  refine ⟨fun _ _ => ⟨Function.update row id (draft'.pending ++ replaced), ⟨?_, ?_, ?_⟩, trivial,
      ?_, fun other hother => Function.update_of_ne hother _ _, ?_⟩, by simp⟩
  · exact hshared.expanded.replace hframes (hshared.others id hnew) hentry rfl htrims hlists hrow
      hset'
  · refine (hshared.spares.trans (hspares.trans (spares_setList hset' hold fun _ => False))).mono ?_
    rintro other (⟨statement, hstatement, hother⟩ | hother | hfalse)
    · exact ⟨statement, List.mem_cons_of_mem _ hstatement, hother⟩
    · exact ⟨id, List.mem_cons_self, hother⟩
    · exact hfalse.elim
  · intro statement hstatement
    rw [List.mem_cons, not_or] at hstatement
    rw [Function.update_of_ne hstatement.1, hshared.others statement hstatement.2]
  · refine replaceIn_expanded (hshared.others id hnew) (fun hsame => ?_) fun hsame => ?_
    · exact hends hcovers.first_mem (hsame ▸ firstOf_mem
        (hshared.expanded.rows _ (hcovers.subset_order hcovers.first_mem)).ne_nil)
    · exact hends hcovers.last_mem (hsame ▸ lastOf_mem
        (hshared.expanded.rows _ (hcovers.subset_order hcovers.last_mem)).ne_nil)
  · rw [Function.update_self]
    exact .cons hpending hanswers (bare_setList hset') (.nil _)

/-- The statements of a range that have not been edited are shared one after the other. -/
theorem ensures_foldlM_shareInRange {todo : List NodeId} (htodo : todo ⊆ statements)
    (hnodup : todo.Nodup) (hshared : origin.Shared code territory row edited draft.program)
    (hpending : draft.pending = []) (hnew : edited.Disjoint todo)
    (hfits : ∀ statement ∈ todo, origin.FitsStatement plan.limit statement)
    (hpurely : ∀ statement ∈ todo,
      (plan.targets.lookup statement).isSome → origin.CallsPurely statement) :
    Walk.Ensures (todo.foldlM plan.shareInRange (range.expanded row)) draft (fun range' draft' =>
      ∃ row', origin.Shared code territory row' (edited ++ todo) draft'.program ∧
        draft'.pending = [] ∧
        range' = range.expanded row' ∧ (∀ other ∉ todo, row' other = row other) ∧
        plan.Steps draft (todo.map fun id => (id, row' id)) draft') fun _ _ => False := by
  induction todo generalizing row edited draft with
  | nil =>
    exact Walk.ensures_pure.mpr
      ⟨row, by rwa [List.append_nil], hpending, rfl, fun _ _ => rfl, .nil _⟩
  | cons id todo ih =>
    rw [List.cons_subset] at htodo
    rw [List.nodup_cons] at hnodup
    rw [List.disjoint_cons_right] at hnew
    rw [List.forall_mem_cons] at hfits hpurely
    rw [List.foldlM_cons, Walk.ensures_bind]
    refine (ensures_shareInRange hframes hdivides hcovers hshared hpending htodo.1 hnew.1 hfits.1
      hpurely.1).mono ?_ fun _ _ => False.elim
    rintro _ between ⟨row₁, hshared₁, hpending₁, rfl, hsame₁, hsteps₁⟩
    have hnew₁ : (id :: edited).Disjoint todo := List.disjoint_cons_left.mpr ⟨hnodup.1, hnew.2⟩
    refine (ih htodo.2 hnodup.2 hshared₁ hpending₁ hnew₁ hfits.2 hpurely.2).mono ?_ fun _ _ =>
      False.elim
    rintro range' draft' ⟨row', hshared', hpending', hrange, hsame, hsteps⟩
    refine ⟨row', hshared'.mono (by simp), hpending', hrange, fun other hother => ?_, ?_⟩
    · rw [List.mem_cons, not_or] at hother
      rw [hsame other hother.2, hsame₁ other hother.1]
    · rw [← hsame id hnodup.1] at hsteps₁
      exact hsteps₁.append hsteps

theorem ensures_shareRange (hshared : origin.Shared code territory row edited draft.program)
    (hpending : draft.pending = []) (hnew : edited.Disjoint statements)
    (hfits : ∀ statement ∈ statements, origin.FitsStatement plan.limit statement)
    (hpurely : ∀ statement ∈ statements,
      (plan.targets.lookup statement).isSome → origin.CallsPurely statement) :
    Walk.Ensures (plan.shareRange (range.expanded row)) draft (fun range' draft' =>
      ∃ row', origin.Shared code territory row' (edited ++ statements) draft'.program ∧
        draft'.pending = [] ∧
        range' = range.expanded row' ∧ (∀ other ∉ statements, row' other = row other) ∧
        plan.Steps draft (statements.map fun id => (id, row' id)) draft') fun _ _ => False := by
  unfold shareRange
  simp only [Walk.ensures_bind, ensures_ask, statements_expanded hframes hcovers hshared hnew]
  rintro _ ⟨⟩
  exact ensures_foldlM_shareInRange hframes hdivides hcovers (List.Subset.refl _)
    (hcovers.nodup hframes.nodup_order) hshared hpending hnew hfits hpurely

end Ranges

/-- Ranges do not change with the rows of statements that they have not. -/
theorem map_expanded_congr {ranges : List BlockRange} {rows : List (List NodeId)}
    (hcovers : List.Forall₂ (BlockRange.Covers code) ranges rows) {row' : NodeId → List NodeId}
    (hsame : ∀ statement ∈ rows.flatten, row' statement = row statement) :
    ranges.map (BlockRange.expanded row) = ranges.map (BlockRange.expanded row') := by
  refine List.map_congr_left fun range hrange => ?_
  obtain ⟨statements, hmem, hcovers⟩ := exists_of_forall₂ hcovers hrange
  exact BlockRange.expanded_congr (hsame _ (List.mem_flatten_of_mem hmem hcovers.first_mem)).symm
    (hsame _ (List.mem_flatten_of_mem hmem hcovers.last_mem)).symm

/-- The ranges of a block that has not been edited are shared one after the other. -/
theorem ensures_shareRanges (hframes : origin.Frames code)
    (hdivides : origin.Divides code territory) {ranges : List BlockRange}
    {rows : List (List NodeId)} (hcovers : List.Forall₂ (BlockRange.Covers code) ranges rows)
    (hnodup : rows.flatten.Nodup) (hshared : origin.Shared code territory row edited draft.program)
    (hpending : draft.pending = []) (hnew : edited.Disjoint rows.flatten)
    (hfits : ∀ statement ∈ rows.flatten, origin.FitsStatement plan.limit statement)
    (hpurely : ∀ statement ∈ rows.flatten,
      (plan.targets.lookup statement).isSome → origin.CallsPurely statement) :
    Walk.Ensures ((ranges.map (BlockRange.expanded row)).mapM plan.shareRange) draft
      (fun ranges' draft' =>
      ∃ row', origin.Shared code territory row' (edited ++ rows.flatten) draft'.program ∧
        ranges' = ranges.map (BlockRange.expanded row') ∧
        (∀ other ∉ rows.flatten, row' other = row other) ∧
        plan.Steps draft (rows.flatten.map fun id => (id, row' id)) draft') fun _ _ => False := by
  induction hcovers generalizing row edited draft with
  | nil =>
    exact Walk.ensures_pure.mpr ⟨row, by rwa [List.flatten_nil, List.append_nil], rfl,
      fun _ _ => rfl, .nil _⟩
  | @cons range statements ranges rows hfirst hrest ih =>
    rw [List.flatten_cons] at hnodup hnew hfits hpurely
    rw [List.nodup_append'] at hnodup
    rw [List.disjoint_append_right] at hnew
    rw [List.forall_mem_append] at hfits hpurely
    simp only [List.map_cons, List.mapM_cons, Walk.ensures_bind, Walk.ensures_pure]
    refine (ensures_shareRange hframes hdivides hfirst hshared hpending hnew.1 hfits.1
      hpurely.1).mono ?_ fun _ _ => False.elim
    rintro _ between ⟨row₁, hshared₁, hpending₁, rfl, hsame₁, hsteps₁⟩
    -- the other ranges have none of the statements that have been edited
    rw [map_expanded_congr hrest fun statement hmem => hsame₁ statement fun h => hnodup.2.2 h hmem]
    refine (ih hnodup.2.1 hshared₁ hpending₁ (List.disjoint_append_left.mpr ⟨hnew.2, hnodup.2.2⟩)
      hfits.2 hpurely.2).mono ?_ fun _ _ => False.elim
    rintro _ draft' ⟨row', hshared', rfl, hsame, hsteps⟩
    refine ⟨row', by simpa using hshared', ?_, fun other hother => ?_, ?_⟩
    · have hrange : range.expanded row₁ = range.expanded row' :=
        BlockRange.expanded_congr (hsame _ fun h => hnodup.2.2 hfirst.first_mem h).symm
          (hsame _ fun h => hnodup.2.2 hfirst.last_mem h).symm
      rw [hrange]
    · rw [List.flatten_cons, List.mem_append, not_or] at hother
      rw [hsame other hother.2, hsame₁ other hother.1]
    · have hfirstRow :
          statements.map (fun id => (id, row₁ id)) = statements.map fun id => (id, row' id) :=
        List.map_congr_left fun id hid => by rw [hsame id fun h => hnodup.2.2 hid h]
      rw [List.flatten_cons, List.map_append]
      exact (hfirstRow ▸ hsteps₁).append hsteps

end SharingPlan

/-! ### Blocks -/

/-- A program whose statements have been shared, with a graph whose blocks have gone along. -/
structure Workspace.Shared (origin : Program) (graph : Graph) (code : Code)
    (territory : NodeId → NodeId → Prop) (row : NodeId → List NodeId) (edited : List NodeId)
    (workspace : Workspace) : Prop where
  shared : origin.Shared code territory row edited workspace.program
  located : workspace.graph.Located
  blocks : workspace.graph.blocks = graph.blocks.map (BasicBlock.expanded row)

/-- A numbered block has been skipped, or its statements have been shared one after the other. -/
inductive Workspace.Steps (numbering : Numbering) (config : Config) (row : NodeId → List NodeId)
    (statements : List NodeId) (workspace : Workspace) : Workspace → Prop
  | skipped
    (hplan : numbering.poisoned = true ∨ (SharingPlan.ofNumbering numbering config).targets = [])
    (hself : ∀ statement ∈ statements, row statement = [statement]) :
    Steps numbering config row statements workspace workspace
  | shared {workspace' : Workspace} {draft : Draft Temporaries}
    (hpoisoned : numbering.poisoned = false)
    (hsteps : (SharingPlan.ofNumbering numbering config).Steps
      { program := workspace.program, memory := [] } (statements.map fun id => (id, row id)) draft)
    (hprogram : workspace'.program = draft.program)
    (hchanged : workspace'.graph.changed = (workspace.graph.changed || draft.changed)) :
    Steps numbering config row statements workspace workspace'

/-- Numbered blocks of a graph have been shared one after the other. -/
inductive Workspace.StepsAll (origin : Program) (graph : Graph)
    (config : Config) (row : NodeId → List NodeId) :
    Workspace → List (BlockId × Numbering) → Workspace → Prop
  | nil (workspace : Workspace) : StepsAll origin graph config row workspace [] workspace
  | cons {workspace between workspace' : Workspace} {block : BasicBlock} {numbering : Numbering}
    {rest : List (BlockId × Numbering)} (hblock : block ∈ graph.blocks)
    (hsteps : Workspace.Steps numbering config row (block.row origin) workspace between)
    (hrest : StepsAll origin graph config row between rest workspace') :
    StepsAll origin graph config row workspace ((block.id, numbering) :: rest) workspace'

theorem Workspace.Steps.congr {numbering : Numbering} {config : Config}
    {row' : NodeId → List NodeId} {statements : List NodeId} {workspace workspace' : Workspace}
    (hsteps : Workspace.Steps numbering config row statements workspace workspace')
    (hsame : ∀ statement ∈ statements, row' statement = row statement) :
    Workspace.Steps numbering config row' statements workspace workspace' := by
  cases hsteps with
  | skipped hplan hself =>
    exact .skipped hplan fun statement hmem => (hsame statement hmem).trans (hself statement hmem)
  | shared hpoisoned hsteps hprogram hchanged =>
    refine .shared hpoisoned ?_ hprogram hchanged
    rwa [List.map_congr_left fun id hid => by rw [hsame id hid]]

theorem Workspace.Shared.mono {graph : Graph} {workspace : Workspace} {edited' : List NodeId}
    (hshared : workspace.Shared origin graph code territory row edited)
    (hedited : edited ⊆ edited') :
    workspace.Shared origin graph code territory row edited' :=
  ⟨hshared.shared.mono hedited, hshared.located, hshared.blocks⟩

/-- A block has gone along. -/
theorem Workspace.Shared.block_eq {graph : Graph} {workspace : Workspace}
    (hshared : workspace.Shared origin graph code territory row edited) {block : BasicBlock}
    (hblock : block ∈ graph.blocks) :
    workspace.graph.block block.id = .ok (block.expanded row) := by
  rw [hshared.located.block_eq_ok_iff, hshared.blocks]
  exact ⟨List.mem_map_of_mem hblock, rfl⟩

theorem SharingPlan.callsPurely_of_lookup {numbering : Numbering}
    {config : Config} {statement : NodeId} (hnotes : numbering.NotesPurely origin)
    (hlookup : ((SharingPlan.ofNumbering numbering config).targets.lookup statement).isSome) :
    origin.CallsPurely statement := by
  obtain ⟨occurrence, hmem, hsame⟩ := List.lookup_isSome_iff.mp hlookup
  obtain rfl := eq_of_beq hsame
  exact hnotes occurrence (List.mem_filter.mp (List.mem_reverse.mp hmem)).1

section Blocks

variable {graph : Graph} {config : Config} {workspace : Workspace}
  (hframes : origin.Frames code) (hdivides : origin.Divides code territory)
  (hdepicts : graph.Depicts origin code)

theorem workspace_shared (hframes : origin.Frames code) (hdepicts : graph.Depicts origin code) :
    Workspace.Shared origin graph code territory (fun id => [id]) [] ⟨origin, graph⟩ where
  shared := ⟨expanded_self hframes, spares_self origin _, fun _ _ => rfl⟩
  located := hdepicts.located
  blocks := (List.map_id'' BasicBlock.expanded_self _).symm

include hframes hdivides hdepicts

/-- Sharing in a block that was numbered before all sharing never fails, and takes its statements in
turn. -/
theorem ensures_shareBlock_steps {block : BasicBlock}
    (hblock : block ∈ graph.blocks) {numbering : Numbering}
    (hnumbering : Query.Answers (origin.numberStatements (block.row origin) config) numbering)
    (hshared : workspace.Shared origin graph code territory row edited)
    (hnew : edited.Disjoint (block.row origin)) :
    Walk.Ensures (shareBlock block.id numbering config) workspace (fun _ workspace' =>
      ∃ row', workspace'.Shared origin graph code territory row' (edited ++ block.row origin) ∧
        (∀ other ∉ block.row origin, row' other = row other) ∧
        Workspace.Steps numbering config row' (block.row origin) workspace workspace')
      fun _ _ => False := by
  unfold shareBlock
  dsimp only
  split
  · next hplan =>
    refine Walk.ensures_pure.mpr ⟨row, hshared.mono (List.subset_append_left _ _), fun _ _ => rfl,
      .skipped (by simpa using hplan) fun statement hmem =>
        hshared.shared.others statement fun hedited =>
          hnew hedited hmem⟩
  · next hplan =>
    simp only [Walk.ensures_bind, Walk.ensures_get, Walk.ensures_liftCrash, Walk.ensures_modify,
      Walk.ensures_liftExcept, Walk.ensures_pure]
    obtain ⟨hpoisoned, -⟩ : numbering.poisoned = false ∧ _ := by simpa using hplan
    obtain ⟨hfits, hnotes⟩ := fits_of_numberStatements hnumbering hpoisoned
    obtain ⟨rows, hcovers, hrows⟩ := (hdepicts.holds block hblock).covers
    rintro found hfound ⟨outcome, draft⟩ hwalk
    obtain rfl : block.expanded row = found :=
      Except.ok.inj ((hshared.block_eq hblock).symm.trans hfound)
    have hpending :
        ({ program := workspace.program, memory := [] } : Draft Temporaries).pending = [] := rfl
    have hranges := SharingPlan.ensures_shareRanges hframes hdivides hcovers
      (hrows ▸ hdepicts.nodup_row hframes.nodup_order hblock) hshared.shared hpending (hrows ▸ hnew)
      (hrows ▸ hfits) fun statement _ hlookup => SharingPlan.callsPurely_of_lookup hnotes hlookup
    cases outcome with
    | error failure => exact (hranges.of_fails hwalk).elim
    | ok ranges =>
      obtain ⟨row', hshared', rfl, hsame, hsteps⟩ := hranges.of_answers hwalk
      rw [hrows] at hshared' hsame hsteps
      refine ⟨fun _ hranges' graph' hmodify => ⟨row', ⟨hshared', ?_, ?_⟩, hsame, ?_⟩, by simp⟩
      · exact (hshared.located.modifyBlock hmodify fun _ => rfl).1
      · obtain ⟨-, -, hblocks⟩ := hshared.located.modifyBlock hmodify fun _ => rfl
        change graph'.blocks = _
        obtain rfl := Except.ok.inj hranges'
        rw [hblocks, hshared.blocks, List.map_map]
        refine List.map_congr_left fun other hother => ?_
        change (if other.id = block.id then _ else _) = _
        split
        · next hid =>
          rw [hdepicts.located.eq_of_id hother hblock hid]
          rfl
        · next hid =>
            exact hdepicts.expanded_congr hother fun statement hmem => (hsame statement fun hmem' =>
              hid (congrArg BasicBlock.id
                (hdepicts.eq_of_mem_row hframes.nodup_order hother hblock hmem hmem'))).symm
      · obtain ⟨_, -, hgraph⟩ := bind_eq_ok_iff.mp hmodify
        obtain rfl := Except.ok.inj hgraph
        exact .shared hpoisoned hsteps rfl rfl

/-- Sharing in a block that was numbered before all sharing never fails. -/
theorem ensures_shareBlock {block : BasicBlock}
    (hblock : block ∈ graph.blocks) {numbering : Numbering}
    (hnumbering : Query.Answers (origin.numberStatements (block.row origin) config) numbering)
    (hshared : workspace.Shared origin graph code territory row edited)
    (hnew : edited.Disjoint (block.row origin)) :
    Walk.Ensures (shareBlock block.id numbering config) workspace (fun _ workspace' =>
      ∃ row', workspace'.Shared origin graph code territory row' (edited ++ block.row origin))
      fun _ _ => False :=
  (ensures_shareBlock_steps hframes hdivides hdepicts hblock hnumbering hshared hnew).mono
    (fun _ _ ⟨row', hshared', _⟩ => ⟨row', hshared'⟩) fun _ _ => False.elim

/-- Sharing in blocks that were numbered before all sharing never fails, in whatever order they
come. -/
theorem ensures_shareBlocks {numberings : List (BlockId × Numbering)}
    (hnodup : (numberings.map Prod.fst).Nodup)
    (hnumbered : ∀ entry ∈ numberings, ∃ block ∈ graph.blocks, block.id = entry.1 ∧
      edited.Disjoint (block.row origin) ∧
      Query.Answers (origin.numberStatements (block.row origin) config) entry.2)
    (hshared : workspace.Shared origin graph code territory row edited) :
    Walk.Ensures (shareBlocks numberings config) workspace (fun _ workspace' =>
      ∃ row' edited', workspace'.Shared origin graph code territory row' edited' ∧
        (∀ statement ∈ edited, row' statement = row statement) ∧
        Workspace.StepsAll origin graph config row' workspace numberings workspace') fun _ _ =>
        False := by
  unfold shareBlocks
  induction numberings generalizing row edited workspace with
  | nil => exact Walk.ensures_pure.mpr ⟨row, edited, hshared, fun _ _ => rfl, .nil _⟩
  | cons entry numberings ih =>
    rw [List.forall_mem_cons] at hnumbered
    obtain ⟨⟨block, hblock, hid, hnew, hnumbering⟩, hrest⟩ := hnumbered
    rw [List.map_cons, List.nodup_cons] at hnodup
    change Walk.Ensures ((do let _ ← shareBlock entry.1 entry.2 config) >>= fun _ =>
      numberings.forM _) _ _ _
    simp only [Walk.ensures_bind, Walk.ensures_pure, ← hid]
    refine (ensures_shareBlock_steps hframes hdivides hdepicts hblock hnumbering hshared hnew).mono
      ?_ fun _ _ => False.elim
    rintro _ between ⟨row₁, hshared₁, hsame₁, hsteps⟩
    refine (ih hnodup.2 (fun later hlater => ?_) hshared₁).mono ?_ fun _ _ => False.elim
    · obtain ⟨other, hother, hid', hnew', hnumbering'⟩ := hrest later hlater
      refine ⟨other, hother, hid',
        List.disjoint_append_left.mpr ⟨hnew', fun statement hmem hmem' => ?_⟩, hnumbering'⟩
      obtain rfl := hdepicts.eq_of_mem_row hframes.nodup_order hblock hother hmem hmem'
      exact hnodup.1 (hid.symm.trans hid' ▸ List.mem_map_of_mem hlater)
    · rintro _ workspace' ⟨row', edited', hshared', hsame, hall⟩
      refine ⟨row', edited', hshared', fun statement hstatement => ?_, ?_⟩
      · rw [hsame statement (List.mem_append_left _ hstatement), hsame₁ statement fun hmem =>
          hnew hstatement hmem]
      · have hentry : entry = (block.id, entry.2) := Prod.ext hid.symm rfl
        rw [hentry]
        exact .cons hblock (hsteps.congr fun statement hmem =>
          hsame statement (List.mem_append_right _ hmem)) hall

omit hdivides in
/-- Every block has the numbering of its statements. -/
theorem answers_numberBlocks_iff {numberings : List (BlockId × Numbering)} :
    Query.Answers (graph.numberBlocks origin config) numberings ↔ List.Forall₂ (fun block entry =>
      block.id = entry.1 ∧
        Query.Answers (origin.numberStatements (block.row origin) config) entry.2)
      graph.blocks numberings := by
  have hmem (relation : BasicBlock → BlockId × Numbering → Prop) :
      List.Forall₂ relation graph.blocks numberings ↔
        List.Forall₂ (fun block entry => block ∈ graph.blocks ∧ relation block entry) graph.blocks
          numberings := by
    rw [List.forall₂_and_left]
    exact (and_iff_right fun _ => id).symm
  rw [Graph.numberBlocks, Query.answers_mapM_iff_forall₂, hmem,
    hmem fun block entry => block.id = entry.1 ∧ _]
  refine iff_of_eq (congrArg (fun relation => List.Forall₂ relation graph.blocks numberings) ?_)
  funext block entry
  refine propext (and_congr_right fun hblock => ?_)
  have hstatements := (hdepicts.holds block hblock).statements hframes
  simp only [Query.answers_bind, Query.answers_liftCrash, Query.answers_pure, hstatements,
    Except.ok.injEq, exists_eq_left']
  constructor
  · rintro ⟨numbering, hnumbering, rfl⟩
    exact ⟨rfl, hnumbering⟩
  · rintro ⟨hid, hnumbering⟩
    exact ⟨entry.2, hnumbering, Prod.ext hid rfl⟩

/-- The blocks of a graph that have been numbered are shared without a failure, in whatever
order. -/
theorem ensures_stepsAll_of_numberBlocks {numberings shuffled : List (BlockId × Numbering)}
    (hnumberings : Query.Answers (graph.numberBlocks origin config) numberings)
    (hperm : shuffled.Perm numberings) :
    Walk.Ensures (shareBlocks shuffled config) ⟨origin, graph⟩ (fun _ workspace' =>
      ∃ row' edited', workspace'.Shared origin graph code territory row' edited' ∧
        Workspace.StepsAll origin graph config row' ⟨origin, graph⟩ shuffled workspace') fun _ _ =>
        False := by
  have hall := (answers_numberBlocks_iff hframes hdepicts).mp hnumberings
  have hids : numberings.map Prod.fst = graph.ids :=
    (List.forall₂_eq_eq_eq ▸ List.forall₂_map_left_iff.mpr (List.forall₂_map_right_iff.mpr
      (hall.imp fun _ _ => And.left)) : graph.blocks.map BasicBlock.id =
      numberings.map Prod.fst).symm
  refine (ensures_shareBlocks hframes hdivides hdepicts ?_ (fun entry hentry => ?_)
    (workspace_shared hframes hdepicts)).mono (fun _ _ ⟨row', edited', hshared, _, hsteps⟩ =>
      ⟨row', edited', hshared, hsteps⟩) fun _ _ => False.elim
  · rw [(hperm.map Prod.fst).nodup_iff, hids]
    exact hdepicts.located.nodup_ids
  · obtain ⟨block, hblock, hid, hnumbering⟩ := exists_of_forall₂ hall.flip (hperm.subset hentry)
    exact ⟨block, hblock, hid, List.disjoint_nil_left _, hnumbering⟩

theorem ensures_shareBlocks_of_numberBlocks {numberings shuffled : List (BlockId × Numbering)}
    (hnumberings : Query.Answers (graph.numberBlocks origin config) numberings)
    (hperm : shuffled.Perm numberings) :
    Walk.Ensures (shareBlocks shuffled config) ⟨origin, graph⟩ (fun _ workspace' =>
      ∃ row' edited', workspace'.Shared origin graph code territory row' edited')
        fun _ _ => False :=
  (ensures_stepsAll_of_numberBlocks hframes hdivides hdepicts hnumberings hperm).mono
    (fun _ _ ⟨row', edited', hshared, _⟩ => ⟨row', edited', hshared⟩) fun _ _ => False.elim

end Blocks

end ShaderIR
