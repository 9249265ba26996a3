import ShaderIR.Proofs.Pass.Resting

/-!
Bringing a program into three-address form does so, makes a temporary for every expression that has
to move, and has nothing left to do afterwards
(`Program.inThreeAddressForm_of_hoistSubexpressions`). What is taken out of a statement nests no
deeper than it did in its operand, so the result passes the check beforehand again
(`Program.Hoisted.fitsCode`). The second run finds nothing misplaced and leaves the program alone
(`Program.Outlines.answers_hoistSubexpressions_of_misplaced`).
-/

set_option autoImplicit false

namespace ShaderIR

variable {program program' : Program} {budget : Nat}

/-! ### Heights -/

theorem Tree.height_leaf_le {id : NodeId} {node : Node} (hpos : 0 < budget) :
    height ⟨id, node, []⟩ ≤ budget := by
  rw [height]
  exact hpos

theorem Tree.height_withChildren_le {tree : Tree} {children : List Tree}
    (hchildren : ∀ child ∈ children, child.height ≤ budget) :
    (tree.withChildren children).height ≤ budget + 1 :=
  height_mk_le_iff.mpr hchildren

theorem Row.height_statement_le {row : Row} (hvalue : row.value.height ≤ budget) :
    row.statement.height ≤ budget + 1 :=
  Tree.height_mk_le_iff.mpr (List.forall_mem_cons.mpr ⟨hvalue,
      List.forall_mem_singleton.mpr (Tree.height_leaf_le (row.value.height_pos.trans_le hvalue))⟩)

/-- Neither what is taken out of the operands nor what is left of them nests deeper than they
did. -/
theorem Lifted.height_le {verdict : Verdict} {memory memory' : Temporaries} {next next' : Nat}
    {forest : List (Role × Tree)} {forest' : List Tree} {rows : List Row}
    (hlifted : Lifted verdict memory next forest forest' rows memory' next')
    (hforest : ∀ item ∈ forest, item.2.height ≤ budget) :
    (∀ tree' ∈ forest', tree'.height ≤ budget) ∧ ∀ row ∈ rows, row.value.height ≤ budget := by
  -- what stands in a tree nests one level less than the tree
  have hinside {tree : Tree} {budget : Nat} (htree : tree.height ≤ budget) :
      ∃ less, budget = less + 1 ∧ ∀ child ∈ tree.children, child.height ≤ less := by
    obtain ⟨less, rfl⟩ : ∃ less, budget = less + 1 :=
      ⟨budget - 1, by have := tree.height_pos; omega⟩
    exact ⟨less, rfl, fun child hchild => Tree.height_le_of_mem_children hchild htree⟩
  have hrows {rows : List Row} {less : Nat} (hrows : ∀ row ∈ rows, row.value.height ≤ less) :
      ∀ row ∈ rows, row.value.height ≤ less + 1 :=
        fun row hrow => (hrows row hrow).trans less.le_succ
  induction hlifted generalizing budget with
  | nil => exact ⟨by simp, by simp⟩
  | kept _ _ _ ih ih' =>
    obtain ⟨htree, hrest⟩ := List.forall_mem_cons.mp hforest
    obtain ⟨less, rfl, hchildren⟩ := hinside htree
    obtain ⟨hedited, hfirst⟩ := ih (List.forall_mem_map.mpr hchildren)
    obtain ⟨hedited', hlater⟩ := ih' hrest
    exact ⟨List.forall_mem_cons.mpr ⟨Tree.height_withChildren_le hedited, hedited'⟩,
      List.forall_mem_append.mpr ⟨hrows hfirst, hlater⟩⟩
  | reused _ _ _ ih =>
    obtain ⟨htree, hrest⟩ := List.forall_mem_cons.mp hforest
    obtain ⟨hedited, hlater⟩ := ih hrest
    exact ⟨List.forall_mem_cons.mpr
      ⟨Tree.height_leaf_le ((Tree.height_pos _).trans_le htree), hedited⟩, hlater⟩
  | stored _ _ _ _ hvalue _ ih ih' =>
    obtain ⟨htree, hrest⟩ := List.forall_mem_cons.mp hforest
    obtain ⟨less, rfl, hchildren⟩ := hinside htree
    obtain ⟨hedited, hfirst⟩ := ih (List.forall_mem_map.mpr hchildren)
    obtain ⟨hedited', hlater⟩ := ih' hrest
    exact ⟨List.forall_mem_cons.mpr ⟨Tree.height_leaf_le less.succ_pos, hedited'⟩,
      List.forall_mem_append.mpr ⟨hrows hfirst,
        List.forall_mem_cons.mpr ⟨hvalue ▸ Tree.height_withChildren_le hedited, hlater⟩⟩⟩
  | whole _ ih =>
    obtain ⟨htree, hrest⟩ := List.forall_mem_cons.mp hforest
    obtain ⟨hedited, hlater⟩ := ih hrest
    exact ⟨List.forall_mem_cons.mpr ⟨htree, hedited⟩, hlater⟩
  | field _ hparts _ _ ih ih' | index _ hparts _ _ ih ih' =>
    obtain ⟨htree, hrest⟩ := List.forall_mem_cons.mp hforest
    obtain ⟨less, rfl, hchildren⟩ := hinside htree
    obtain ⟨hedited, hfirst⟩ := ih (by simpa [hparts, and_comm] using hchildren)
    obtain ⟨hedited', hlater⟩ := ih' hrest
    exact ⟨List.forall_mem_cons.mpr
      ⟨Tree.height_withChildren_le (by simpa [and_comm] using hedited), hedited'⟩,
      List.forall_mem_append.mpr ⟨hrows hfirst, hlater⟩⟩

/-- Neither the rows in front of a statement nor what is left of its operands nest deeper than
allowed. -/
theorem Program.Sound.height_le_of_lifted {statement : Tree} {verdict : Verdict} {next next' : Nat}
    {parts' : List Tree} {rows : List Row} (hsound : program.Sound statement)
    (hlifted : Lifted verdict [] next (program.parts .root statement) parts' rows [] next')
    (hstatement : statement.height ≤ budget + 1) :
    (∀ part ∈ parts', part.height ≤ budget) ∧ ∀ row ∈ rows, row.statement.height ≤ budget + 1 := by
  obtain ⟨hparts, hrows⟩ := hlifted.height_le fun item hitem => Tree.height_le_of_mem_children
    (map_snd_parts hsound .root ▸ List.mem_map_of_mem hitem) hstatement
  exact ⟨hparts, fun row hrow => Row.height_statement_le (hrows row hrow)⟩

/-! ### Codes -/

namespace Program

theorem fitsCode_prepend {statements : List Tree} {code : Code} :
    program.FitsCode budget (code.prepend statements) ↔
      (∀ statement ∈ statements, program.Fits budget statement.id) ∧
        program.FitsCode budget code := by
  induction statements with
  | nil => simp
  | cons first rest ih => simp [FitsCode, ih, and_assoc]

/-- What has been hoisted nests no deeper than before. -/
theorem Hoisted.fitsCode {next next' : Nat} {code code' : Code}
    (hhoisted : program.Hoisted program' next code code' next')
    (hsound : ∀ statement ∈ code.statements, program.Sound statement)
    (hdraws : ∀ statement ∈ code.statements, program.Draws statement)
    (hdraws' : ∀ statement ∈ code'.statements, program'.Draws statement)
    (hfits : program.FitsCode budget code) :
    program'.FitsCode budget code' := by
  have hrowsFit {rows : List Row} {budget : Nat}
      (hdraws : ∀ statement ∈ rows.map Row.statement, program'.Draws statement)
      (hrows : ∀ row ∈ rows, row.statement.height ≤ budget) :
      ∀ statement ∈ rows.map Row.statement, program'.Fits budget statement.id := by
    rw [List.forall_mem_map] at hdraws ⊢
    exact fun row hrow => (hdraws row hrow).fits_iff.mpr (hrows row hrow)
  induction hhoisted generalizing budget with
  | nil => exact hfits
  | step _ hlifted _ _ ih =>
    obtain ⟨budget, rfl⟩ : ∃ less, budget = less + 1 := ⟨budget - 1, by have := hfits.pos; omega⟩
    rw [Code.statements_prepend] at hdraws'
    simp only [Code.statements, List.forall_mem_cons, List.forall_mem_append]
      at hsound hdraws hdraws'
    obtain ⟨hparts, hrows⟩ := hsound.1.height_le_of_lifted hlifted (hdraws.1.fits_iff.mp hfits.1)
    exact fitsCode_prepend.mpr ⟨hrowsFit hdraws'.1 hrows,
      hdraws'.2.1.fits_iff.mpr (Tree.height_withChildren_le hparts),
      ih hsound.2 hdraws.2 hdraws'.2.2 hfits.2⟩
  | @branch _ _ _ _ _ id condition condition' thenBody _ elseBody _ _ _ _ hlifted _ _ _ _ ihthen
      ihelse ih =>
    obtain ⟨budget, rfl⟩ : ∃ less, budget = less + 1 := ⟨budget - 1, by have := hfits.pos; omega⟩
    rw [Code.statements_prepend] at hdraws'
    simp only [Code.statements, List.forall_mem_cons, List.forall_mem_append]
      at hsound hdraws hdraws'
    obtain ⟨hparts, hrows⟩ := hsound.1.height_le_of_lifted hlifted (hdraws.1.fits_iff.mp hfits.1)
    exact fitsCode_prepend.mpr ⟨hrowsFit hdraws'.1 hrows,
      hdraws'.2.1.fits_iff.mpr (Tree.height_mk_le_iff.mpr hparts),
      ⟨ihthen hsound.2.1.1 hdraws.2.1.1 hdraws'.2.2.1.1 hfits.2.1.1,
        ihelse hsound.2.1.2 hdraws.2.1.2 hdraws'.2.2.1.2 hfits.2.1.2⟩,
      ih hsound.2.2 hdraws.2.2 hdraws'.2.2.2 hfits.2.2⟩
  | loop _ _ ihbody ih =>
    simp only [Code.statements, List.forall_mem_cons, List.forall_mem_append]
      at hsound hdraws hdraws'
    refine ⟨?_, ihbody hsound.2.1 hdraws.2.1 hdraws'.2.1 hfits.2.1,
      ih hsound.2.2 hdraws.2.2 hdraws'.2.2 hfits.2.2⟩
    exact hdraws'.1.fits_iff.mpr (Tree.height_leaf_le hfits.2.2.pos)

/-! ### The whole pass -/

variable {limit : Nat} {changed : Bool}

/-- Hoisting that answers has passed the check beforehand. -/
theorem answers_checkDepth_of_hoistSubexpressions
    (hhoist : Walk.Answers (hoistSubexpressions limit) program changed program') :
    Query.Answers (program.checkDepth limit) () := by
  unfold hoistSubexpressions at hhoist
  simp only [Walk.answers_bind, Walk.answers_get, Walk.answers_attempt] at hhoist
  obtain ⟨_, _, ⟨rfl, rfl⟩, outcome, _, hdepth, hhoist⟩ := hhoist
  cases outcome with
  | error failure => simp at hhoist
  | ok => exact (Walk.answers_ask.mp hdepth).1

namespace Outlines

variable {code : Code} (houtlines : program.Outlines code)

include houtlines

theorem answers_checkDepth_iff :
    Query.Answers (program.checkDepth limit) () ↔ program.FitsCode (limit + 1) code :=
  houtlines.frames.framed.answers_checkDepthWithin_iff (congrArg Except.ok houtlines.body)

/-- There is a temporary for everything that was misplaced, and nothing is misplaced afterwards. -/
theorem exists_outlines_of_hoist
    (hhoist : Walk.Answers (hoistSubexpressions limit) program changed program') :
    ∃ code', program'.Outlines code' ∧ program'.FitsCode (limit + 1) code' ∧
      (∀ statement ∈ code'.statements, statement.misplaced = []) ∧
      program'.vars.size = program.vars.size + (code.statements.flatMap Tree.misplaced).length := by
  obtain ⟨code', houtlines', hhoisted, -, -⟩ := houtlines.exists_hoisted hhoist
  obtain ⟨hsize, hnone⟩ := hhoisted.misplaced houtlines.sound fun statement hstatement =>
    (houtlines.draws.statement statement hstatement).linked
  have hfits :=
    houtlines.answers_checkDepth_iff.mp (answers_checkDepth_of_hoistSubexpressions hhoist)
  exact ⟨code', houtlines',
    hhoisted.fitsCode houtlines.sound houtlines.draws.statement houtlines'.draws.statement hfits,
    hnone, hsize⟩

end Outlines

/-- A program that has been brought into three-address form is in it. There is a temporary for each
expression of several operands that nothing stored directly, and bringing the program into
three-address form once more leaves it exactly as it is. -/
theorem inThreeAddressForm_of_hoistSubexpressions (hcheck : program.check = .ok ())
    (hhoist : (hoistSubexpressions limit).runFrom program = .ok (.ok changed, program')) :
    program'.InThreeAddressForm ∧
    (∃ moved : Finset NodeId, (∀ id, id ∈ moved ↔ program.Compound id ∧ ¬ program.Stored id) ∧
      program'.vars.size = program.vars.size + moved.card) ∧
    (hoistSubexpressions limit).runFrom program' = .ok (.ok false, program') := by
  obtain ⟨code, houtlines⟩ := exists_outlines_of_check hcheck
  obtain ⟨code', houtlines', hfits, hnone, hsize⟩ := houtlines.exists_outlines_of_hoist hhoist
  refine ⟨houtlines'.inThreeAddressForm hnone,
    ⟨((code.statements.flatMap Tree.misplaced).map Tree.id).toFinset,
    fun id => ?_, ?_⟩, houtlines'.answers_hoistSubexpressions_of_misplaced hnone
      (houtlines'.answers_checkDepth_iff.mpr hfits)⟩
  · rw [List.mem_toFinset, houtlines.mem_misplaced_iff]
  · rw [hsize, List.toFinset_card_of_nodup houtlines.nodup_misplaced, List.length_map]

theorem inThreeAddressForm_of_hoistSubexpressions_nestedOperands :
    ∃ program', nestedOperands.check = .ok () ∧
    (hoistSubexpressions 4).runFrom nestedOperands = .ok (.ok true, program') ∧
    program'.InThreeAddressForm ∧
    (∃ moved : Finset NodeId,
      (∀ id, id ∈ moved ↔ nestedOperands.Compound id ∧ ¬ nestedOperands.Stored id) ∧
      program'.vars.size = nestedOperands.vars.size + moved.card) ∧
    (hoistSubexpressions 4).runFrom program' = .ok (.ok false, program') := by
  have hcheck : nestedOperands.check = .ok () := rfl
  obtain ⟨program', hhoist⟩ := exists_hoistSubexpressions_nestedOperands
  exact ⟨program', hcheck, hhoist, inThreeAddressForm_of_hoistSubexpressions hcheck hhoist⟩

end Program

end ShaderIR
