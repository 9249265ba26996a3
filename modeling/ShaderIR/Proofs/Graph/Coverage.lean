import ShaderIR.Proofs.Graph.Linking
import ShaderIR.Proofs.Graph.Merging

/-!
What a built graph covers. `Graph.Built` says how a graph came about: it was linked, straight edges
were merged away until none was left, and no discard stands in a graph of several blocks. Merging
loses and doubles nothing, so that the blocks in ascending order are the text of the program
(`Graph.coverage_of_build`).
-/

set_option autoImplicit false

namespace ShaderIR

/-- No statement of the code is a discard. -/
def Code.Discardless (code : Code) : Prop :=
  ∀ statement ∈ code.statements, ∀ condition, statement.node ≠ .discard condition

namespace Graph

variable {program : Program} {config : Config} {code : Code} {graph : Graph}

/-! ### Discards -/

private theorem not_of_findM?_eq_none {α : Type} {test : α → Except Crash Bool} {items : List α}
    (hnone : items.findM? test = .ok none) {item : α} (hitem : item ∈ items) :
    test item = .ok false := by
  induction items with
  | nil => cases hitem
  | cons first items ih =>
    rw [List.findM?] at hnone
    obtain ⟨found, hfound, hnone⟩ := bind_eq_ok_iff.mp hnone
    cases found with
    | true => cases hnone
    | false =>
      rcases List.mem_cons.mp hitem with rfl | hitem
      · exact hfound
      · exact ih hnone hitem

theorem not_discard_of_firstDiscard? {blocks : List BasicBlock}
    (hnone : firstDiscard? program blocks = .ok none) {block : BasicBlock} (hblock : block ∈ blocks)
    {row : List NodeId} (hrow : block.statements program = .ok row) {statement : NodeId}
    (hstatement : statement ∈ row) (condition : Option NodeId) :
    program.node statement ≠ .ok (.discard condition) := by
  induction blocks with
  | nil => cases hblock
  | cons first blocks ih =>
    rw [firstDiscard?] at hnone
    obtain ⟨statements, hstatements, hnone⟩ := bind_eq_ok_iff.mp hnone
    obtain ⟨found, hfound, hnone⟩ := bind_eq_ok_iff.mp hnone
    cases found with
    | some found => cases hnone
    | none =>
      rcases List.mem_cons.mp hblock with rfl | hblock
      · obtain rfl : statements = row := Except.ok.inj (hstatements.symm.trans hrow)
        have htest := not_of_findM?_eq_none hfound hstatement
        intro hnode
        rw [isDiscard, hnode] at htest
        cases htest
      · exact ih hnone hblock

/-- A graph of several blocks in which there is a discard is refused. -/
theorem Depicts.discardless_of_rejectDiscard (hdepicts : graph.Depicts program code)
    (hframes : program.Frames code) (hreject : Query.Answers (graph.rejectDiscard program) ())
    (hsize : 1 < graph.size) : code.Discardless := by
  rw [rejectDiscard, if_pos hsize] at hreject
  obtain ⟨found, hfound, hreject⟩ := Query.answers_bind.mp hreject
  cases found with
  | some found => exact absurd hreject Query.answers_throw
  | none =>
    intro statement hstatement condition hnode
    obtain ⟨block, hblock, hrow⟩ := hdepicts.exists_block (List.mem_map_of_mem hstatement)
    refine not_discard_of_firstDiscard? (Query.answers_liftCrash.mp hfound) hblock
      ((hdepicts.holds block hblock).statements hframes) hrow condition ?_
    exact hnode ▸ hframes.framed.node_eq statement hstatement

/-! ### Built graphs -/

/-- A graph that is built of a code. -/
structure Built (program : Program) (config : Config) (code : Code) (graph : Graph) : Prop where
  frames : program.Frames code
  loopless : code.Loopless
  returnless : code.Returnless
  linked : ∃ unmerged, Query.Answers (linked program config.maxDepth) unmerged ∧
    unmerged.Depicts program code ∧ Relation.ReflTransGen Merges unmerged graph
  depicts : graph.Depicts program code
  settled : ∀ source target, ¬ graph.Straight source target
  discardless : 1 < graph.size → code.Discardless

/-- A graph that the construction returns is built of the code of its program. -/
theorem built_of_frames (hframes : program.Frames code)
    (hbuild : Query.Answers (build program config) graph) : Built program config code graph := by
  simp only [build, Query.answers_bind, Query.answers_liftCrash, Query.answers_pure] at hbuild
  obtain ⟨unmerged, hlinked, ⟨merges, merged⟩, hmerge, ⟨⟩, hreject, rfl⟩ := hbuild
  obtain ⟨hunmerged, hloopless, hreturnless⟩ := depicts_of_linked hframes hlinked
  obtain ⟨hmerges, hsettled⟩ := hunmerged.mergeWithin_spec hframes hloopless hmerge
  have hdepicts := hunmerged.merged hframes hloopless hmerges
  exact ⟨hframes, hloopless, hreturnless, ⟨unmerged, hlinked, hunmerged, hmerges⟩, hdepicts,
    hsettled (Nat.le_refl _), hdepicts.discardless_of_rejectDiscard hframes hreject⟩

theorem exists_built_of_build (hcheck : program.check = .ok ())
    (hbuild : Query.Answers (build program config) graph) :
    ∃ code, program.Outlines code ∧ Built program config code graph := by
  obtain ⟨code, houtlines⟩ := program.exists_outlines_of_check hcheck
  exact ⟨code, houtlines, built_of_frames houtlines hbuild⟩

/-! ### Coverage -/

theorem mapM_eq_ok_map {α β : Type} {step : α → Except Crash β} {change : α → β} {items : List α}
    (hstep : ∀ item ∈ items, step item = .ok (change item)) :
    items.mapM step = .ok (items.map change) := by
  induction items with
  | nil => rfl
  | cons first items ih =>
    obtain ⟨hfirst, hstep⟩ := List.forall_mem_cons.mp hstep
    rw [List.mapM_cons, hfirst, ih hstep]
    rfl

/-- The blocks of a graph have the statements of the code, in the order of the text. -/
theorem Depicts.mapM_statements (hdepicts : graph.Depicts program code)
    (hframes : program.Frames code) :
    graph.blocks.mapM (fun block => block.statements program) =
      .ok (graph.blocks.map (BasicBlock.row program)) :=
  mapM_eq_ok_map fun block hblock => (hdepicts.holds block hblock).statements hframes

/-- The blocks of a graph, one after the other, are the text of the program. -/
theorem Depicts.exists_order (hdepicts : graph.Depicts program code)
    (hframes : program.Frames code) :
    ∃ order rows, program.preOrder = .ok order ∧
      graph.blocks.mapM (fun block => block.statements program) = .ok rows ∧
        rows.flatten = order := by
  refine ⟨_, _, hframes.preOrder_eq, hdepicts.mapM_statements hframes, ?_⟩
  rw [← List.flatMap_def, hdepicts.order]

/-- Every statement stands in exactly one block of a graph, and once in it. -/
theorem Depicts.existsUnique_block (hdepicts : graph.Depicts program code)
    (hframes : program.Frames code) {ref : ListRef} {statements : List NodeId}
    (hlists : program.Lists ref statements) {statement : NodeId}
    (hstatement : statement ∈ statements) : ∃! block, block ∈ graph.blocks ∧
      ∃ row, block.statements program = .ok row ∧ row.count statement = 1 := by
  have hnodup := hframes.nodup_order
  have hmem := Code.mem_order_of_mem_lists (hframes.mem_lists hlists) hstatement
  obtain ⟨block, hblock, hrow⟩ := hdepicts.exists_block hmem
  have hstatements {other : BasicBlock} (hother : other ∈ graph.blocks) :=
    (hdepicts.holds other hother).statements hframes
  refine ⟨block, ⟨hblock, _, hstatements hblock,
    List.count_eq_one_of_mem (hdepicts.nodup_row hnodup hblock) hrow⟩, ?_⟩
  rintro other ⟨hother, row, hread, hcount⟩
  obtain rfl := Except.ok.inj ((hstatements hother).symm.trans hread)
  exact hdepicts.eq_of_mem_row hnodup hother hblock (List.count_pos_iff.mp (by omega)) hrow

/-- Every statement stands in exactly one block of a built graph, the blocks by ascending id are the
text of the program, and a block is a row of ranges of which each one opens a body of the
conditional that ends the range before it. -/
theorem coverage_of_build (hcheck : program.check = .ok ())
    (hbuild : Query.Answers (build program config) graph) :
    graph.blocks.Pairwise (fun first second => first.id.index < second.id.index) ∧
    (∃ order rows, program.preOrder = .ok order ∧
      graph.blocks.mapM (fun block => block.statements program) = .ok rows ∧ rows.flatten = order) ∧
    (∀ ref statements, program.Lists ref statements → ∀ statement ∈ statements,
      ∃! block, block ∈ graph.blocks ∧
        ∃ row, block.statements program = .ok row ∧ row.count statement = 1) ∧
    ∀ block ∈ graph.blocks, block.ranges ≠ [] ∧
      block.ranges.IsChain (BlockRange.Opens program) := by
  obtain ⟨code, houtlines, hbuilt⟩ := exists_built_of_build hcheck hbuild
  have hdepicts := hbuilt.depicts
  exact ⟨hdepicts.located.ascending, hdepicts.exists_order houtlines,
    fun ref statements hlists statement hstatement =>
      hdepicts.existsUnique_block houtlines hlists hstatement,
    fun block hblock => ⟨(hdepicts.holds block hblock).ne_nil, (hdepicts.holds block hblock).opens⟩⟩

/-- A conditional with another one in its first body, and behind it a call and a conditional whose
only body ends the program. -/
def nestedBodies : Program where
  nodes := #[.variable ⟨0⟩, .variable ⟨1⟩, .assign ⟨0⟩ ⟨1⟩ 0,
    .variable ⟨0⟩, .variable ⟨1⟩, .assign ⟨3⟩ ⟨4⟩ 0,
    .variable ⟨0⟩, .variable ⟨1⟩, .assign ⟨6⟩ ⟨7⟩ 0, .variable ⟨2⟩, .branch ⟨9⟩ [⟨8⟩] [],
    .variable ⟨0⟩, .variable ⟨1⟩, .assign ⟨11⟩ ⟨12⟩ 0, .variable ⟨2⟩, .branch ⟨14⟩ [⟨5⟩, ⟨10⟩]
      [⟨13⟩], .call ⟨0⟩ [] none, .variable ⟨0⟩, .variable ⟨1⟩, .assign ⟨17⟩ ⟨18⟩ 0, .variable ⟨2⟩,
    .branch ⟨20⟩ [⟨19⟩] []]
  vars := #[⟨"x", .vector .float 1, .auto⟩, ⟨"y", .vector .float 1, .input⟩,
    ⟨"c", .bool, .input⟩]
  signatures := #[⟨"f", [], .void⟩]
  body := [⟨2⟩, ⟨15⟩, ⟨16⟩, ⟨21⟩]

theorem coverage_of_build_nestedBodies :
    ∃ graph block other, nestedBodies.check = .ok () ∧ Query.Answers (build nestedBodies {}) graph ∧
    (∃ order rows, nestedBodies.preOrder = .ok order ∧
      graph.blocks.mapM (fun block => block.statements nestedBodies) = .ok rows ∧
        rows.flatten = order) ∧
    nestedBodies.Lists (.thenBody ⟨21⟩) [⟨19⟩] ∧ block ∈ graph.blocks ∧
    (∃ row, block.statements nestedBodies = .ok row ∧ row.count ⟨19⟩ = 1) ∧
    other ∈ graph.blocks ∧
    other.ranges = [⟨.root, ⟨16⟩, ⟨21⟩⟩, ⟨.thenBody ⟨21⟩, ⟨19⟩, ⟨19⟩⟩] ∧
    other.ranges.IsChain (BlockRange.Opens nestedBodies) := by
  have hcheck : nestedBodies.check = .ok () := rfl
  obtain ⟨graph, hbuild, other, hother, hranges⟩ :
    ∃ graph, Query.Answers (build nestedBodies {}) graph ∧
      ∃ other ∈ graph.blocks, other.ranges = [⟨.root, ⟨16⟩, ⟨21⟩⟩, ⟨.thenBody ⟨21⟩, ⟨19⟩, ⟨19⟩⟩] :=
    ⟨_, rfl, by decide +kernel⟩
  have hlists : nestedBodies.Lists (.thenBody ⟨21⟩) [⟨19⟩] :=
    .nested .root (by decide : (⟨21⟩ : NodeId) ∈ _) rfl (by decide) rfl
  obtain ⟨-, htext, hunique, hopens⟩ := coverage_of_build hcheck hbuild
  obtain ⟨block, ⟨hblock, hrow⟩, -⟩ := hunique _ _ hlists ⟨19⟩ (by decide)
  exact ⟨graph, block, other, hcheck, hbuild, htext, hlists, hblock, hrow, hother, hranges,
    (hopens other hother).2⟩

end Graph

end ShaderIR
