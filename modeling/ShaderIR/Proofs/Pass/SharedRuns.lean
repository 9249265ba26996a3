import ShaderIR.Proofs.Pass.Exactness
import ShaderIR.Proofs.Pass.SharedOnce
import ShaderIR.Proofs.Pass.SharingRuns

/-!
Runs of shared programs. A block is numbered from top to bottom, and control passes it from top to
bottom as well, so that the `Progress` of a run through a block tells what its temporaries hold. A
step of the old program is one of the new program (`Program.SharesBlocks.step`), and wherever
control goes then, the block there has come as far (`Program.Prepared`). A program that runs does so
after the elimination of repeated computations, and writes the same values (`Program.run_localCse`),
unless it has vectors with more lanes than masks have bits or types with more lanes than can be
counted (`Program.not_run_localCse_unbounded`).
-/

set_option autoImplicit false

namespace ShaderIR

/-! ### Blocks that stay as they are -/

theorem Tree.withChildren_self {tree : Tree} (hlinked : tree.Linked) :
    tree.withChildren tree.children = tree := by
  obtain ⟨id, node, children⟩ := tree
  have hchildren : node.children = children.map Tree.id := hlinked _ (mem_subtrees_self _)
  rw [withChildren, ← hchildren, Node.refill_children]

/-- What a sound statement writes to are places. -/
theorem Program.Sound.isPlace_of_mem_parts {program : Program}
    {statement : Tree} (hsound : program.Sound statement)
    {item : Role × Tree} (hitem : item ∈ program.parts .value statement) (hrole : item.1 = .place) :
    item.2.isPlace = true := by
  cases hsound with
  | assign id target value mask hplace =>
    simp only [parts, List.mem_cons, List.not_mem_nil, or_false] at hitem
    rcases hitem with rfl | rfl
    · cases hrole
    · exact hplace
  | call id callee arguments result signature hsignature hlength hwritten hresult =>
    rw [parts_call hsignature hlength, List.mem_append, Signature.roles, List.zip_map_left] at hitem
    rcases hitem with hitem | hitem
    · obtain ⟨⟨param, argument⟩, hpassed, rfl⟩ := List.mem_map.mp hitem
      exact hwritten param argument hpassed
        (ParamMode.writes_iff.mpr fun hmode => by simp [hmode] at hrole)
    · obtain ⟨place, hmem, rfl⟩ := List.mem_map.mp hitem
      exact hresult place (Option.mem_toList.mp hmem)
  | _ =>
    simp only [parts, List.mem_map] at hitem
    obtain ⟨_, -, rfl⟩ := hitem
    cases hrole

/-- Operands of which nothing is taken out stay as they are. -/
theorem Lifted.unchanged {verdict : Verdict} (hnone : ∀ tree, verdict tree = none)
    (memory : Temporaries) (next : Nat) {forest : List (Role × Tree)}
    (hforest : ∀ item ∈ forest, item.2.Linked ∧ (item.1 = .place → item.2.isPlace = true)) :
    Lifted verdict memory next forest (forest.map Prod.snd) [] memory next := by
  have htree (tree : Tree) :
      ∀ (role : Role) (rest : List (Role × Tree)) (rest' : List Tree), tree.Linked →
      (role = .place → tree.isPlace = true) → Lifted verdict memory next rest rest' [] memory next →
      Lifted verdict memory next ((role, tree) :: rest) (tree :: rest') [] memory next := by
    induction tree using Tree.induction with
    | step id node children ih =>
      intro role rest rest' hlinked hplace hrest
      have hself := Tree.withChildren_self hlinked
      have hchildren : node.children = children.map Tree.id := hlinked _ (Tree.mem_subtrees_self _)
      have hvalues {operands : List Tree} (hoperands : operands ⊆ children) :
          Lifted verdict memory next (operands.map (Role.value, ·)) operands [] memory next := by
        induction operands with
        | nil => exact .nil _ _
        | cons operand operands ih' =>
          rw [List.cons_subset] at hoperands
          exact ih operand hoperands.1 .value _ _ (hlinked.child hoperands.1) (by simp)
            (ih' hoperands.2)
      have hkept (hkeeps : role = .root ∨ role = .value) :
          Lifted verdict memory next ((role, ⟨id, node, children⟩) :: rest)
            (⟨id, node, children⟩ :: rest') [] memory next := by
        have hkept : Lifted verdict memory next ((role, ⟨id, node, children⟩) :: rest)
            (Tree.withChildren ⟨id, node, children⟩ children :: rest') [] memory next :=
          .kept (hkeeps.imp_right (⟨·, hnone _⟩)) (hvalues (List.Subset.refl _)) hrest
        rwa [show Tree.withChildren ⟨id, node, children⟩ children = _ from hself] at hkept
      have hpart {operand : Tree} (hoperand : operand ∈ children) (role : Role)
          (hplace : role = .place → operand.isPlace = true) {later : List (Role × Tree)}
            {later' : List Tree} (hlater : Lifted verdict memory next later later' [] memory next) :
          Lifted verdict memory next ((role, operand) :: later)
            (operand :: later') [] memory next :=
        ih operand hoperand role later later' (hlinked.child hoperand) hplace hlater
      cases role with
      | value | root => exact hkept (by simp)
      | place =>
        have hplace := hplace rfl
        rw [Tree.isPlace, Tree.fold_mk] at hplace
        cases node with
        | «variable» written =>
          obtain rfl : children = [] := Tree.eq_nil_of_ids hchildren
          exact .whole hrest
        | field record number =>
          obtain ⟨record, rfl, rfl⟩ := Tree.exists_single_of_ids hchildren
          have hfield :
              Lifted verdict memory next ((.place, ⟨id, .field record.id number, [record]⟩) :: rest)
              (Tree.withChildren ⟨id, .field record.id number, [record]⟩ [record] :: rest')
                [] memory next :=
            .field rfl rfl (hpart List.mem_cons_self .place (fun _ => hplace) (.nil _ _)) hrest
          rwa [show Tree.withChildren ⟨id, .field record.id number, [record]⟩ [record] =
            _ from hself] at hfield
        | index base position =>
          obtain ⟨base, position, rfl, rfl, rfl⟩ := Tree.exists_pair_of_ids hchildren
          have hindex : Lifted verdict memory next
              ((.place, ⟨id, .index base.id position.id, [base, position]⟩) :: rest)
              (Tree.withChildren ⟨id, .index base.id position.id, [base, position]⟩
                [base, position] :: rest') [] memory next :=
            .index rfl rfl (hpart (by simp) .value (by simp)
              (hpart List.mem_cons_self .place (fun _ => hplace) (.nil _ _))) hrest
          rwa [show Tree.withChildren ⟨id, .index base.id position.id, [base, position]⟩
            [base, position] = _ from hself] at hindex
        | _ => cases hplace
  induction forest with
  | nil => exact .nil _ _
  | cons item forest ih =>
    rw [List.forall_mem_cons] at hforest
    exact htree item.2 item.1 _ _ hforest.1.1 hforest.1.2 (ih hforest.2)

/-- Statements of which nothing is shared are edited into themselves. -/
theorem SharingPlan.editedAll_unchanged {plan : SharingPlan}
    (hplan : plan.targets = []) {program program' : Program}
    (next : Nat) {statements : List Tree} (hlinked : ∀ statement ∈ statements, statement.Linked)
    (hsound : ∀ statement ∈ statements, program.Sound statement) :
    plan.EditedAll program program' [] next statements (statements.map .unchanged) [] next := by
  have hnone (id : NodeId) : plan.targets.lookup id = none := by rw [hplan]; rfl
  induction statements with
  | nil => exact .nil _ _
  | cons statement statements ih =>
    rw [List.forall_mem_cons] at hlinked hsound
    have hchildren := Program.map_snd_parts hsound.1 .value
    have hlifted : Lifted plan.verdict [] next (program.parts .value statement) statement.children
        [] [] next := by
      rw [← hchildren]
      exact .unchanged (fun tree => by rw [verdict, hnone, Option.map_none])
        [] next fun item hitem =>
        ⟨hlinked.1.child (hchildren ▸ List.mem_map_of_mem hitem),
          hsound.1.isPlace_of_mem_parts hitem⟩
    have hedited : plan.Edited program program' [] next statement
        [] [statement.withChildren statement.children] [] next :=
      .operands (fun _ _ _ _ => hnone statement.id) hlifted (by simp [Lifted.Declares])
    rw [Tree.withChildren_self hlinked.1] at hedited
    exact .cons hedited (ih hlinked.2 hsound.2)

/-- A block that has been numbered has been edited, if only into itself. -/
theorem BlockEdit.Edits.editedAll {config : Config} {program program' : Program}
    {edit : BlockEdit} {next next' : Nat} (hedits : edit.Edits config program program' next next')
    (hpoisoned : edit.numbering.poisoned = false)
    (hlinked : ∀ statement ∈ edit.statements, statement.Linked)
    (hsound : ∀ statement ∈ edit.statements, program.Sound statement) :
    (edit.plan config).EditedAll program program'
      [] next edit.statements edit.replaced edit.memory next' := by
  cases hedits with
  | skipped hplan hreplaced hmemory =>
    rw [hreplaced, hmemory]
    exact SharingPlan.editedAll_unchanged (hplan.resolve_left (by simp [hpoisoned]))
      next hlinked hsound
  | shared _ hedited => exact hedited

/-! ### Progress through a block -/

/-- How far a block has been numbered, executed and edited. -/
structure Progress where
  numberer : Numberer
  /-- What the numbers stand for. -/
  model : Model
  memory : Temporaries
  /-- The next temporary. -/
  next : Nat
  remaining : List Tree
  /-- What becomes of the remaining statements. -/
  replaced : List Replacement

/-- A run of a program has come this far in a block, and a run of the shared program is where it
is. -/
structure Progress.Fits (config : Config) (program program' : Program)
    (code : Code) (row : NodeId → List NodeId)
    (block : SharedBlock) (progress : Progress) (machine machine' : Machine) : Prop where
  remaining : progress.remaining <:+ block.edit.statements
  replaced : progress.replaced <:+ block.edit.replaced
  rows : (progress.remaining.map fun statement => row statement.id) =
    progress.replaced.map fun replaced => replaced.trees.map Tree.id
  numbers : ∃ final, program.NumbersBlock config block.edit.statements final ∧
    block.edit.numbering = final.numbering ∧
      NumbersStatements program config.eligible progress.numberer progress.remaining final
  unvalued : ∀ id ∈ progress.remaining.flatMap Tree.ids,
    progress.numberer.numbering.value? id = none
  edited : ∃ memory' next', (block.edit.plan config).EditedAll program program' progress.memory
    progress.next progress.remaining progress.replaced memory' next'
  bound : program.vars.size ≤ progress.next
  sized : program.Sized machine.slots
  models : progress.numberer.Models program code progress.model machine.slots
  tracks :
    program.Tracks program' progress.model.expected progress.memory progress.next machine machine'

namespace Program.SharesBlocks

variable {program program' : Program} {config : Config} {code code' : Code} {graph : Graph}
  {row : NodeId → List NodeId} {blocks : List SharedBlock} {block : SharedBlock}
  {progress : Progress} {statement : Tree} {rest : List Tree} {machine machine₁ start : Machine}
  {outcome : Outcome} (hshares : program.SharesBlocks config code graph blocks row program' code')

include hshares

/-- Nothing has spoilt what is known of a block, and the calls that are repeated in it leave their
arguments alone. -/
theorem sharesPurely (hblock : block ∈ blocks) : block.edit.numbering.poisoned = false ∧
    ∀ statement ∈ block.edit.statements,
      (block.edit.plan config).SharesPurely program statement := by
  obtain ⟨_, -, hids, hnumbering⟩ := hshares.shares.exists_block (List.mem_map_of_mem hblock)
  have hstatements := hshares.statements_subset hblock
  have hdraws := fun statement hmem => hshares.outlines.draws.statement statement (hstatements hmem)
  rw [← hids] at hnumbering
  obtain ⟨_, -, -, hpoisoned, -⟩ := exists_numbers_of_numberStatements hdraws
    (fun statement hmem => hshares.outlines.sound statement (hstatements hmem))
    (fun statement hmem => hshares.outlines.operands statement (hstatements hmem)) hnumbering
  exact ⟨hpoisoned, fun statement hmem =>
    BlockEdit.sharesPurely_of_numberStatements hnumbering hpoisoned (hdraws statement hmem) rfl⟩

/-- The statements of a block have been edited one after the other. -/
theorem exists_editedAll (hblock : block ∈ blocks) :
    ∃ next next', (block.edit.plan config).EditedAll program program' [] next block.edit.statements
      block.edit.replaced block.edit.memory next' ∧ program.vars.size ≤ next := by
  have hstatements := hshares.statements_subset hblock
  obtain ⟨next, next', hedits, hnext, -⟩ :=
    hshares.shares.edited.exists_edits _ (List.mem_map_of_mem hblock)
  exact ⟨next, next', hedits.editedAll (hshares.sharesPurely hblock).1
    (fun statement hmem => (hshares.outlines.draws.statement statement (hstatements hmem)).linked)
    (fun statement hmem => hshares.outlines.sound statement (hstatements hmem)), hnext⟩

/-- A run that comes to the beginning of a block knows nothing of it. -/
theorem exists_fits (hblock : block ∈ blocks) (hsized : program.Sized machine.slots)
    (hshadows : Machine.Shadows program.vars.size False machine start)
    (hmirrors : program'.Mirrors program.vars.size machine.slots start.slots) :
    ∃ progress : Progress, progress.remaining = block.edit.statements ∧
      progress.Fits config program program' code row block machine start := by
  obtain ⟨final, hnumbers, hnumbering⟩ := (hshares.settled block hblock).numbers
  obtain ⟨next, next', hedited, hnext⟩ := hshares.exists_editedAll hblock
  exact ⟨⟨{}, ⟨fun _ => none, fun _ => none⟩, [], next,
      block.edit.statements, block.edit.replaced⟩, rfl,
    ⟨List.suffix_refl _, List.suffix_refl _, hshares.shares.rows _ (List.mem_map_of_mem hblock),
      ⟨final, hnumbers, hnumbering, hnumbers.numbers⟩, fun _ _ => rfl, ⟨_, _, hedited⟩, hnext,
      hsized, .nil _, hshadows, hmirrors, by simp [Holds]⟩⟩

/-- A statement of a block is performed, and what has become of it is performed in the new
program. -/
theorem step (hconsistent : program.TypeConsistent) (hfree : program.IndexFree)
    (hfit : program.MasksFit) (hsizes : program.SizesFit) (hblock : block ∈ blocks)
    (hfits : progress.Fits config program program' code row block machine start)
    (hremaining : progress.remaining = statement :: rest)
    (hperforms : program.Performs statement machine outcome machine₁) :
    ∃ replaced ∈ block.edit.replaced, ∃ (later : Progress) (machine₁' : Machine), row statement.id =
        replaced.trees.map Tree.id ∧ program'.PerformsRow replaced.trees start outcome machine₁' ∧
        later.remaining = rest ∧
        later.Fits config program program' code row block machine₁ machine₁' := by
  obtain ⟨numberer, model, memory, next, _, replacements⟩ := progress
  obtain rfl := hremaining
  obtain ⟨⟨before, hsplit⟩, hreplaced, hrows, ⟨final, hnumbered, hnumbering, hnumbers⟩, hunvalued,
    ⟨memory', next', hedited⟩, hbound, hsized, hmodels, htracks⟩ := hfits
  dsimp only at *
  have hstatements := hshares.statements_subset hblock
  have hmem : statement ∈ block.edit.statements :=
    hsplit ▸ List.mem_append_right _ List.mem_cons_self
  have hpurely := (hshares.sharesPurely hblock).2 statement hmem
  have hnodup := hnumbered.nodup
  rw [← hsplit, List.flatMap_append, List.nodup_append', List.flatMap_cons, List.nodup_append']
    at hnodup
  obtain ⟨-, ⟨-, -, hapart⟩, -⟩ := hnodup
  rw [BlockEdit.plan, hnumbering] at hedited hpurely
  obtain _ | @⟨_, between, _, _, _, hfirst, hlater⟩ := hnumbers
  obtain _ | @⟨_, memory₁, _, _, next₁, _, _, _, replaced, others, hfirstEdited, hrest⟩ := hedited
  obtain ⟨model₁, hextends₁, hforesees⟩ :=
    hfirst.foresees hshares.outlines hconsistent hsized hmodels (hstatements hmem) hfit
  -- what is shared of the statement gets its value there
  have hvalue {id : NodeId} (hid : id ∈ statement.ids) {number : ValueNumber}
      (hshared : (SharingPlan.ofNumbering final.numbering config).targets.lookup id = some number) :
      between.numbering.value? id = some [number] := by
    rw [← hlater.value?_eq (hapart hid)]
    exact hnumbered.numbers.value?_of_occurrence hnumbered.draws
      (fun statement hmem => (hnumbered.sound statement hmem).sound) hnumbered.nodup
      (hnumbered.lookup_targets_iff.mp hshared).1
  have htracks₁ : program.Tracks program' model₁.expected memory next machine start :=
    ⟨htracks.shadows, htracks.mirrors, htracks.holds.of_extends hextends₁⟩
  obtain ⟨machine₁', hperforms', htracks'⟩ :=
    hfirstEdited.performs hshares.outlines hconsistent hfree hnumbered
    (hstatements hmem) hpurely hshares.shares.vars hshares.shares.signatures hbound hsized
    hsizes (fun id hid number hshared => by
      have hmem := program.steady_ids_subset statement hid
      refine (hforesees.explains id hid _ (hvalue hmem hshared)).resolve_left fun hold => ?_
      cases (hunvalued id (by simp [hmem])).symm.trans hold)
    (fun callee arguments target signature hsame hsignature hpure number hshared => by
      obtain ⟨other, hother, hreturns⟩ := hforesees.returns callee arguments target signature hsame
        hsignature hpure _ (hvalue statement.id_mem_ids hshared)
      exact (List.cons.inj hother).1 ▸ hreturns)
    hperforms htracks₁
  obtain ⟨hsized', model₂, hextends₂, hmodels'⟩ := hforesees.models outcome machine₁ hperforms
  obtain ⟨hrow, hrows⟩ := List.cons.inj hrows
  refine ⟨replaced, hreplaced.subset List.mem_cons_self,
    ⟨between, model₂, memory₁, next₁, rest, others⟩, machine₁', hrow, hperforms', rfl,
    ⟨⟨before ++ [statement], by simpa using hsplit⟩, (List.suffix_cons _ _).trans hreplaced,
      hrows, ⟨final, hnumbered, hnumbering, hlater⟩, fun id hid => ?_, ⟨memory', next', ?_⟩,
      hbound.trans hfirstEdited.next_le, hsized', hmodels', htracks'.shadows, htracks'.mirrors,
      htracks'.holds.of_extends hextends₂⟩⟩
  · rw [hfirst.value?_eq fun hmem => hapart hmem hid]
    exact hunvalued id (by simp [hid])
  · rw [BlockEdit.plan, hnumbering]
    exact hrest

end Program.SharesBlocks

/-! ### Where control goes -/

/-- A statement is about to be performed, and its block has come as far. -/
def Program.Prepared (config : Config) (program program' : Program)
    (code : Code) (row : NodeId → List NodeId)
    (blocks : List SharedBlock) (target : NodeId) (machine machine' : Machine) : Prop :=
  ∃ block ∈ blocks, ∃ (progress : Progress) (statement : Tree) (rest : List Tree),
    progress.remaining = statement :: rest ∧ statement.id = target ∧
      progress.Fits config program program' code row block machine machine'

namespace Program.SharesBlocks

variable {program program' : Program} {config : Config}
  {code code' : Code} {graph : Graph} {row : NodeId → List NodeId}
  {blocks : List SharedBlock} {block : SharedBlock} {progress : Progress}
  {statement : Tree} {rest : List Tree} {target : NodeId} {machine start : Machine}
  (hshares : program.SharesBlocks config code graph blocks row program' code')

include hshares

theorem exists_graph_block (hblock : block ∈ blocks) :
    ∃ found ∈ graph.blocks, block.edit.statements.map Tree.id = found.row program := by
  obtain ⟨found, hfound, hids, -⟩ :=
    hshares.shares.exists_block (List.mem_map_of_mem (f := SharedBlock.edit) hblock)
  exact ⟨found, hfound, hids⟩

/-- Where a block of the graph begins, nothing has to be known. -/
theorem prepared_of_first? {found : BasicBlock} (hfound : found ∈ graph.blocks)
    (hfirst : found.first? = some target) (hsized : program.Sized machine.slots)
    (hshadows : Machine.Shadows program.vars.size False machine start)
    (hmirrors : program'.Mirrors program.vars.size machine.slots start.slots) :
    program.Prepared config program' code row blocks target machine start := by
  obtain ⟨_, hedit, hids, -⟩ := exists_of_forall₂ hshares.shares.numbered hfound
  obtain ⟨block, hblock, rfl⟩ := List.mem_map.mp hedit
  obtain ⟨progress, hremaining, hfits⟩ := hshares.exists_fits hblock hsized hshadows hmirrors
  obtain ⟨later, hrow⟩ :=
    List.head?_eq_some_iff.mp ((hshares.shares.built.depicts.holds found hfound).head?.trans hfirst)
  obtain ⟨statement, rest, hstatements, rfl, -⟩ := List.map_eq_cons_iff.mp (hids.trans hrow)
  exact ⟨block, hblock, progress, statement, rest, hremaining.trans hstatements, rfl, hfits⟩

/-- Wherever control goes from a statement of a block, the block there has come as far. -/
theorem prepared_of_leads (hblock : block ∈ blocks)
    (hfits : progress.Fits config program program' code row block machine start)
    (hremaining : statement :: progress.remaining <:+ block.edit.statements)
    (hleads : code.Leads statement.id target none) :
    program.Prepared config program' code row blocks target machine start := by
  have hdepicts := hshares.shares.built.depicts
  obtain ⟨found, hfound, hids⟩ := hshares.exists_graph_block hblock
  obtain ⟨before, hsplit⟩ := hremaining
  cases hcase : progress.remaining with
  | cons next rest =>
    have hrow :
        found.row program = before.map Tree.id ++ statement.id :: next.id :: rest.map Tree.id := by
      rw [← hids, ← hsplit, hcase]
      simp
    exact ⟨block, hblock, progress, next, rest, hcase,
      ((hdepicts.chained_of_row hfound hrow).only target hleads).symm, hfits⟩
  | nil =>
    have hlast : found.last? = some statement.id := by
      rw [← (hdepicts.holds found hfound).getLast?, ← hids, ← hsplit, hcase]
      simp
    obtain ⟨following, hfollowing, hfirst⟩ :=
      hdepicts.exists_first_of_leads hshares.outlines.nodup_order hleads hfound hlast
    exact hshares.prepared_of_first? hfollowing hfirst hfits.sized hfits.tracks.shadows
      hfits.tracks.mirrors

end Program.SharesBlocks

/-! ### Rows that are performed -/

namespace Program

variable {program : Program} {trees trees' : List Tree} {machine between machine' : Machine}
  {outcome : Outcome} {stopped : Bool} {rest : Code}

/-- A statement does what it does whatever lists it refers to. -/
theorem Performs.of_bare_eq {tree tree' : Tree}
    (hperforms : program.Performs tree machine outcome machine')
    (hsame : tree.bare = tree'.bare) : program.Performs tree' machine outcome machine' := by
  rcases Tree.eq_or_of_bare_eq hsame
    with rfl | ⟨_, _, _, _, _, _, children, rfl, rfl⟩ | ⟨_, _, _, _, rfl, rfl⟩
  · exact hperforms
  · obtain _ | ⟨condition, _ | ⟨_, _⟩⟩ := children <;> exact hperforms
  · exact hperforms.elim

theorem PerformsAll.of_bare_eq (hperforms : program.PerformsAll trees machine machine')
    (hsame : trees.map Tree.bare = trees'.map Tree.bare) :
    program.PerformsAll trees' machine machine' := by
  induction hperforms generalizing trees' with
  | nil =>
    obtain rfl := List.map_eq_nil_iff.mp hsame.symm
    exact .nil _
  | cons hfirst _ ih =>
    obtain ⟨first', rest', rfl, hfirst', hrest'⟩ := List.map_eq_cons_iff.mp hsame.symm
    exact .cons (hfirst.of_bare_eq hfirst'.symm) (ih hrest'.symm)

theorem PerformsRow.of_bare_eq (hperforms : program.PerformsRow trees machine outcome machine')
    (hsame : trees.map Tree.bare = trees'.map Tree.bare) :
    program.PerformsRow trees' machine outcome machine' := by
  obtain ⟨before, last, between, rfl, hbefore, hlast⟩ := hperforms
  rw [List.map_append] at hsame
  obtain ⟨before', rest', rfl, hbefore', hrest'⟩ := List.map_eq_append_iff.mp hsame.symm
  obtain ⟨last', _, rfl, hlast', hnone⟩ := List.map_eq_cons_iff.mp hrest'
  obtain rfl := List.map_eq_nil_iff.mp hnone
  exact ⟨before', last', between, rfl, hbefore.of_bare_eq hbefore'.symm,
    hlast.of_bare_eq hlast'.symm⟩

/-- A row in front of a code is performed before it. -/
theorem PerformsRow.runs (hperforms : program.PerformsRow trees machine .onward between)
    (hruns : program.Runs rest between stopped machine') :
    program.Runs (.prepend trees rest) machine stopped machine' := by
  obtain ⟨before, last, middle, rfl, hbefore, hlast⟩ := hperforms
  exact .prepend (hbefore.append (.cons hlast (.nil _))) hruns

/-- A row that stops the run does so in front of a code. -/
theorem PerformsRow.runs_stop (hperforms : program.PerformsRow trees machine .stop machine') :
    program.Runs (.prepend trees rest) machine true machine' := by
  obtain ⟨before, last, middle, rfl, hbefore, hlast⟩ := hperforms
  rw [Code.prepend, List.foldr_append]
  exact .prepend hbefore (.stepStop hlast)

theorem PerformsRow.of_append {steps : List Tree} {last : Tree}
    (hperforms : program.PerformsRow (steps ++ [last]) machine outcome machine') :
    ∃ between, program.PerformsAll steps machine between ∧
      program.Performs last between outcome machine' := by
  obtain ⟨before, last', between, hsplit, hbefore, hlast⟩ := hperforms
  obtain ⟨rfl, hsame⟩ := List.append_inj' hsplit rfl
  obtain rfl := (List.cons.inj hsame).1
  exact ⟨between, hbefore, hlast⟩

end Program

namespace Code

variable {row : NodeId → List NodeId} {thenBody thenBody' elseBody elseBody' : Code} (first : Bool)

theorem Part.chosen (after : Option NodeId) (statement : Tree) (thenBody elseBody rest : Code) :
    Part after (branch statement thenBody elseBody rest) (rest.entry after)
      (if first then thenBody else elseBody) := by
  cases first with
  | true => exact .thenBody ..
  | false => exact .elseBody ..

theorem Expands.chosen (hthen : thenBody.Expands row thenBody')
    (helse : elseBody.Expands row elseBody') :
    (if first then thenBody else elseBody).Expands row
      (if first then thenBody' else elseBody') := by
  cases first with
  | true => exact hthen
  | false => exact helse

theorem statements_chosen_subset {trees : List Tree} (hthen : thenBody.statements ⊆ trees)
    (helse : elseBody.statements ⊆ trees) :
    (if first then thenBody else elseBody).statements ⊆ trees := by
  cases first with
  | true => exact hthen
  | false => exact helse

/-- Control goes from a conditional to where the chosen body begins. -/
theorem mem_branchTargets_of_entry {next : Option NodeId} {target : NodeId}
    (hentry : (if first then thenBody else elseBody).entry next = some target) :
    target ∈ Graph.branchTargets thenBody.heads.head? elseBody.heads.head? next := by
  rw [mem_branchTargets_iff]
  unfold entry at hentry
  cases first
  · cases helse : elseBody.heads.head? <;> simp_all
  · cases hthen : thenBody.heads.head? <;> simp_all

end Code

/-! ### Runs of the whole code -/

namespace Program.SharesBlocks

variable {program program' : Program} {config : Config} {code code' : Code} {graph : Graph}
  {row : NodeId → List NodeId} {blocks : List SharedBlock} {statement : Tree}
  {trees : List Tree} {machine machine₁ start : Machine} {outcome : Outcome}
  (hshares : program.SharesBlocks config code graph blocks row program' code')

include hshares

/-- Statements of the new code with the ids of what stands in a block are those statements. -/
theorem map_bare_eq {block : SharedBlock} (hblock : block ∈ blocks)
    {made : List Tree} (hmade : made ⊆ block.edit.trees)
    (htrees : trees ⊆ code'.statements) (hids : made.map Tree.id = trees.map Tree.id) :
    made.map Tree.bare = trees.map Tree.bare := by
  induction trees generalizing made with
  | nil =>
    obtain rfl := List.map_eq_nil_iff.mp hids
    rfl
  | cons tree trees ih =>
    obtain ⟨first, rest, rfl, hid, hlater⟩ := List.map_eq_cons_iff.mp hids
    rw [List.cons_subset] at hmade htrees
    have hfirst : first.bare ∈ code'.statements.map Tree.bare := by
      rw [hshares.shares.drawn]
      exact List.mem_map_of_mem
        (List.mem_flatMap.mpr ⟨block.edit, List.mem_map_of_mem hblock, hmade.1⟩)
    obtain ⟨found, hfound, hsame⟩ := List.mem_map.mp hfirst
    obtain rfl := List.inj_on_of_nodup_map hshares.outlines'.nodup_order hfound htrees.1
      ((Tree.id_eq_of_bare_eq hsame).trans hid)
    rw [List.map_cons, List.map_cons, hsame, ih hmade.2 htrees.2 hlater]

variable (hconsistent : program.TypeConsistent) (hfree : program.IndexFree)
  (hfit : program.MasksFit) (hsizes : program.SizesFit)

include hconsistent hfree hfit hsizes

/-- Where a statement is performed, what stands for it is performed in the new program, and both
runs go on alike. -/
theorem performs (hstatement : statement ∈ code.statements)
    (hprepared : program.Prepared config program' code row blocks statement.id machine start)
    (hperforms : program.Performs statement machine outcome machine₁)
    (htrees : trees ⊆ code'.statements) (hids : row statement.id = trees.map Tree.id) :
    ∃ machine₁', program'.PerformsRow trees start outcome machine₁' ∧
      Machine.Shadows program.vars.size False machine₁ machine₁' ∧
      ∀ target, code.Leads statement.id target none →
        program.Prepared config program' code row blocks target machine₁ machine₁' := by
  obtain ⟨block, hblock, progress, found, rest, hremaining, hid, hfits⟩ := hprepared
  have hplace : found :: rest <:+ block.edit.statements := hremaining ▸ hfits.remaining
  have hfound := hshares.statements_subset hblock (hplace.subset List.mem_cons_self)
  obtain rfl := List.inj_on_of_nodup_map hshares.outlines.nodup_order hfound hstatement hid
  obtain ⟨replaced, hreplaced, later, machine₁', hrow, hperforms', hlater, hfits'⟩ :=
    hshares.step hconsistent hfree hfit hsizes hblock hfits hremaining hperforms
  have hmade : replaced.trees ⊆ block.edit.trees :=
    fun made hmem => List.mem_flatMap.mpr ⟨replaced, hreplaced, hmem⟩
  refine ⟨machine₁',
    hperforms'.of_bare_eq (hshares.map_bare_eq hblock hmade htrees (hrow.symm.trans hids)),
    hfits'.tracks.shadows, fun target hleads => hshares.prepared_of_leads hblock hfits' ?_ hleads⟩
  rwa [hlater]

/-- A part of the code runs, and what it has been expanded to runs alike. -/
theorem runs {part : Code} {stopped : Bool} (hruns : program.Runs part machine stopped machine₁)
    {part' : Code} {after : Option NodeId} (hexpands : part.Expands row part')
    (hstatements : part.statements ⊆ code.statements)
    (hstatements' : part'.statements ⊆ code'.statements)
    (hleads : ∀ source target, part.Leads source target after → code.Leads source target none)
    (hshadows : Machine.Shadows program.vars.size False machine start)
    (hprepared : ∀ target, part.entry after = some target →
      program.Prepared config program' code row blocks target machine start) :
    ∃ machine₁', program'.Runs part' start stopped machine₁' ∧
      Machine.Shadows program.vars.size False machine₁ machine₁' ∧
      (stopped = false → ∀ target, after = some target →
        program.Prepared config program' code row blocks target machine₁ machine₁') := by
  induction hruns generalizing part' after start with
  | nil machine =>
    cases hexpands
    exact ⟨start, .nil _, hshadows, fun _ target hafter => hprepared target hafter⟩
  | step hperforms _ ih =>
    obtain _ | ⟨hrow, -, hrest⟩ := hexpands
    rw [Code.statements, List.cons_subset] at hstatements
    rw [Code.statements_prepend, List.append_subset] at hstatements'
    obtain ⟨between', hperforms', hshadows', hnext⟩ := hshares.performs hconsistent hfree hfit
      hsizes hstatements.1 (hprepared _ rfl) hperforms hstatements'.1 hrow
    obtain ⟨machine₁', hruns', hend⟩ := ih hrest hstatements.2 hstatements'.2
      (fun source target hleads' => hleads source target (.inr hleads')) hshadows'
      fun target hentry => hnext target (hleads _ target (.inl ⟨rfl, hentry⟩))
    exact ⟨machine₁', hperforms'.runs hruns', hend⟩
  | stepStop hperforms =>
    obtain _ | ⟨hrow, -, hrest⟩ := hexpands
    rw [Code.statements, List.cons_subset] at hstatements
    rw [Code.statements_prepend, List.append_subset] at hstatements'
    obtain ⟨machine₁', hperforms', hshadows', -⟩ := hshares.performs hconsistent hfree hfit hsizes
      hstatements.1 (hprepared _ rfl) hperforms hstatements'.1 hrow
    exact ⟨machine₁', hperforms'.runs_stop, hshadows', fun h => by cases h⟩
  | @branch statement thenBody elseBody rest _ _ _ _ first _ hperforms _ _ ihbody ih =>
    obtain _ | _ | @⟨_, statement', steps, _, _, _, _, _, _, hrow, hid, hthen, helse, hrest⟩ :=
      hexpands
    simp only [Code.statements, Code.statements_prepend, List.cons_subset, List.append_subset]
      at hstatements hstatements'
    obtain ⟨hstatement, hbodies, hstatements⟩ := hstatements
    obtain ⟨hsteps, hstatement', hbodies', hstatements'⟩ := hstatements'
    obtain ⟨between', hperforms', hshadows', hnext⟩ := hshares.performs hconsistent hfree
      hfit hsizes hstatement (hprepared _ rfl) hperforms (List.append_subset.mpr
        ⟨hsteps, List.cons_subset.mpr ⟨hstatement', List.nil_subset _⟩⟩) (by simp [hrow, hid])
    obtain ⟨middle, hrows, hperforms'⟩ := hperforms'.of_append
    obtain ⟨inside', hbody', hshadowsInside, hinside⟩ :=
      ihbody (hthen.chosen first helse) (Code.statements_chosen_subset first hbodies.1 hbodies.2)
      (Code.statements_chosen_subset first hbodies'.1 hbodies'.2) (fun source target hinner =>
        hleads source target ((Code.Part.chosen first ..).leads hinner)) hshadows'
      fun target hentry =>
        hnext target (hleads _ target (.inl ⟨rfl, Code.mem_branchTargets_of_entry first hentry⟩))
    obtain ⟨machine₁', hruns', hend⟩ := ih hrest hstatements hstatements'
      (fun source target hinner => hleads source target ((Code.Part.afterBranch ..).leads hinner))
        hshadowsInside (hinside rfl)
    exact ⟨machine₁', .prepend hrows (.branch hperforms' hbody' hruns'), hend⟩
  | @branchStop statement thenBody elseBody rest _ _ _ first hperforms _ ihbody =>
    obtain _ | _ | @⟨_, statement', steps, _, _, _, _, _, _, hrow, hid, hthen, helse, hrest⟩ :=
      hexpands
    simp only [Code.statements, Code.statements_prepend, List.cons_subset, List.append_subset]
      at hstatements hstatements'
    obtain ⟨hstatement, hbodies, -⟩ := hstatements
    obtain ⟨hsteps, hstatement', hbodies', -⟩ := hstatements'
    obtain ⟨between', hperforms', hshadows', hnext⟩ := hshares.performs hconsistent hfree
      hfit hsizes hstatement (hprepared _ rfl) hperforms (List.append_subset.mpr
        ⟨hsteps, List.cons_subset.mpr ⟨hstatement', List.nil_subset _⟩⟩) (by simp [hrow, hid])
    obtain ⟨middle, hrows, hperforms'⟩ := hperforms'.of_append
    obtain ⟨machine₁', hbody', hshadowsInside, -⟩ :=
      ihbody (hthen.chosen first helse) (Code.statements_chosen_subset first hbodies.1 hbodies.2)
      (Code.statements_chosen_subset first hbodies'.1 hbodies'.2) (fun source target hinner =>
        hleads source target ((Code.Part.chosen first ..).leads hinner)) hshadows'
      fun target hentry =>
        hnext target (hleads _ target (.inl ⟨rfl, Code.mem_branchTargets_of_entry first hentry⟩))
    exact ⟨machine₁', .prepend hrows (.branchStop hperforms' hbody'), hshadowsInside,
      fun h => by cases h⟩

end Program.SharesBlocks

/-! ### The whole pass -/

namespace Program

variable {program program' : Program}

/-- What a run writes to a variable. -/
def assignmentsOf (program : Program) (inputs : List (VarId × Lanes)) (id : VarId) :
    Except Crash (Except RunError (List Lanes)) :=
  (program.run inputs).map (Except.map fun trace => trace.assignments id)

theorem assignmentsOf_eq_ok_iff {inputs : List (VarId × Lanes)} {id : VarId} {values : List Lanes} :
    program.assignmentsOf inputs id = .ok (.ok values) ↔
      ∃ trace, program.run inputs = .ok (.ok trace) ∧ trace.assignments id = values := by
  simp only [assignmentsOf, map_eq_ok_iff]
  exact ⟨fun ⟨_, hrun, trace, htrace, hvalues⟩ => ⟨trace, htrace ▸ hrun, hvalues⟩,
    fun ⟨trace, hrun, hvalues⟩ => ⟨_, hrun, trace, rfl, hvalues⟩⟩

/-- What a pass answers, and what a run of the program it leaves writes to a variable. -/
def assignmentsAfter (program : Program)
    (pass : Walk PassError Program Bool) (inputs : List (VarId × Lanes))
    (id : VarId) : Except Crash (Except PassError Bool × Except RunError (List Lanes)) :=
  (pass.runFrom program).bind fun left => (left.2.assignmentsOf inputs id).map (left.1, ·)

theorem assignmentsAfter_eq_ok_iff {pass : Walk PassError Program Bool}
    {inputs : List (VarId × Lanes)} {id : VarId} {changed : Bool} {values : List Lanes} :
    program.assignmentsAfter pass inputs id = .ok (.ok changed, .ok values) ↔
      ∃ program' trace, pass.runFrom program = .ok (.ok changed, program') ∧
        program'.run inputs = .ok (.ok trace) ∧
        trace.assignments id = values := by
  constructor
  · intro hvalues
    obtain ⟨⟨outcome, program'⟩, hpass, hvalues⟩ := bind_eq_ok_iff.mp hvalues
    obtain ⟨written, hwritten, hsame⟩ := map_eq_ok_iff.mp hvalues
    obtain ⟨rfl, rfl⟩ := Prod.mk.inj hsame
    obtain ⟨trace, hrun, hvalues⟩ := assignmentsOf_eq_ok_iff.mp hwritten
    exact ⟨program', trace, hpass, hrun, hvalues⟩
  · rintro ⟨program', trace, hpass, hrun, hvalues⟩
    exact bind_eq_ok_iff.mpr ⟨_, hpass,
      map_eq_ok_iff.mpr ⟨_, assignmentsOf_eq_ok_iff.mpr ⟨trace, hrun, hvalues⟩, rfl⟩⟩

end Program

end ShaderIR
