import ShaderIR.Proofs.Pass.PipelineFlags
import ShaderIR.Proofs.Pass.SafeHoisting
import ShaderIR.Proofs.Pass.SharedTwice
import ShaderIR.Proofs.Pass.WellFormed

/-!
Three-address form and sharing, one after the other. Sharing keeps three-address form
(`Program.SharesBlocks.misplaced_eq_nil`): what it takes out of an operand is stored directly, and
what it leaves there has no more operands than before. So neither pass finds anything to do in what
the other one has made, whether sharing has succeeded or has refused the program, and a pipeline of
both changes nothing in its second round (`Pipeline.runToFixpoint_normalizer`).
-/

set_option autoImplicit false

namespace ShaderIR

/-! ### Operands -/

/-- What stands for an operand has compound expressions below itself nowhere, and is one only if the
operand was. -/
structure Tree.StaysFlat (tree tree' : Tree) : Prop where
  below : Role.root.compounds tree' = []
  whole : tree.compounds = [] → tree'.compounds = []

namespace Tree

variable {tree : Tree}

theorem isCompound_of_compounds (hnone : tree.compounds = []) : tree.node.isCompound = false := by
  rw [← Bool.not_eq_true]
  intro hcompound
  rw [compounds_of_isCompound hcompound] at hnone
  cases hnone

theorem root_compounds_of_compounds (hnone : tree.compounds = []) :
    Role.root.compounds tree = [] := by
  rwa [compounds_of_not_isCompound (isCompound_of_compounds hnone)] at hnone

theorem staysFlat_leaf (tree : Tree) (leaf : NodeId) (temporary : VarId) :
    tree.StaysFlat ⟨leaf, .variable temporary, []⟩ :=
  ⟨rfl, fun _ => compounds_variable leaf temporary⟩

theorem staysFlat_withChildren {children : List Tree} (hlinked : tree.Linked)
    (hlength : children.length = tree.children.length)
    (hchildren : children.flatMap compounds = []) :
    tree.StaysFlat (tree.withChildren children) where
  below := hchildren
  whole hnone := by
    have halike := alike_withChildren hlinked children hlength
    rw [compounds_of_not_isCompound
      (halike.isCompound_eq.symm.trans (isCompound_of_compounds hnone))]
    exact hchildren

end Tree

/-- Operands that have nothing compound below themselves are edited into such operands, and so is
what is taken out. -/
theorem Lifted.staysFlat {verdict : Verdict} {memory memory' : Temporaries} {next next' : Nat}
    {forest : List (Role × Tree)} {forest' : List Tree} {rows : List Row}
    (hlifted : Lifted verdict memory next forest forest' rows memory' next')
    (hforest : ∀ item ∈ forest, item.2.Linked ∧ Role.root.compounds item.2 = []) :
    List.Forall₂ (fun item tree' => item.2.StaysFlat tree') forest forest' ∧
      ∀ row ∈ rows, Role.root.compounds row.value = [] := by
  have hinside {trees : List Tree} (hlinked : ∀ tree ∈ trees, tree.Linked)
      (hnone : trees.flatMap Tree.compounds = []) :
      ∀ item ∈ trees.map (Role.value, ·), item.2.Linked ∧ Role.root.compounds item.2 = [] :=
    List.forall_mem_map.mpr fun tree hmem => ⟨hlinked tree hmem,
      Tree.root_compounds_of_compounds (List.flatMap_eq_nil_iff.mp hnone tree hmem)⟩
  have hedited {trees children : List Tree} (hnone : trees.flatMap Tree.compounds = [])
      (hflat : List.Forall₂ (fun item tree' => item.2.StaysFlat tree')
        (trees.map (Role.value, ·)) children) :
      children.flatMap Tree.compounds = [] := by
    refine List.flatMap_eq_nil_iff.mpr fun child hchild => ?_
    obtain ⟨item, hitem, hstays⟩ := exists_of_forall₂ hflat.flip hchild
    obtain ⟨tree, hmem, rfl⟩ := List.mem_map.mp hitem
    exact hstays.whole (List.flatMap_eq_nil_iff.mp hnone tree hmem)
  induction hlifted with
  | nil => exact ⟨.nil, by simp⟩
  | kept _ hchildren _ ih ih' =>
    obtain ⟨⟨hlinked, hnone⟩, hrest⟩ := List.forall_mem_cons.mp hforest
    obtain ⟨hflat, hrows⟩ := ih (hinside (fun _ => hlinked.child) hnone)
    obtain ⟨hflat', hrows'⟩ := ih' hrest
    exact ⟨.cons (Tree.staysFlat_withChildren hlinked (by simpa using hchildren.length_eq)
        (hedited hnone hflat)) hflat', List.forall_mem_append.mpr ⟨hrows, hrows'⟩⟩
  | reused _ _ _ ih =>
    obtain ⟨hflat, hrows⟩ := ih (List.forall_mem_cons.mp hforest).2
    exact ⟨.cons (Tree.staysFlat_leaf _ _ _) hflat, hrows⟩
  | stored _ _ _ _ hvalue _ ih ih' =>
    obtain ⟨⟨hlinked, hnone⟩, hrest⟩ := List.forall_mem_cons.mp hforest
    obtain ⟨hflat, hrows⟩ := ih (hinside (fun _ => hlinked.child) hnone)
    obtain ⟨hflat', hrows'⟩ := ih' hrest
    refine ⟨.cons (Tree.staysFlat_leaf _ _ _) hflat',
      List.forall_mem_append.mpr ⟨hrows, List.forall_mem_cons.mpr ⟨?_, hrows'⟩⟩⟩
    rw [hvalue]
    exact hedited hnone hflat
  | whole _ ih =>
    obtain ⟨hflat, hrows⟩ := ih (List.forall_mem_cons.mp hforest).2
    exact ⟨.cons (Tree.staysFlat_leaf _ _ _) hflat, hrows⟩
  | @field _ _ _ _ _ _ tree record record' _ _ _ _ _ _ hchildren _ _ ih ih' =>
    obtain ⟨⟨hlinked, hnone⟩, hrest⟩ := List.forall_mem_cons.mp hforest
    have hrecord : record.compounds = [] := by simpa [Role.compounds, hchildren] using hnone
    obtain ⟨hflat, hrows⟩ := ih (List.forall_mem_singleton.mpr
      ⟨hlinked.child (by simp [hchildren]), Tree.root_compounds_of_compounds hrecord⟩)
    obtain ⟨hflat', hrows'⟩ := ih' hrest
    refine ⟨.cons (Tree.staysFlat_withChildren hlinked (by simp [hchildren]) ?_) hflat',
      List.forall_mem_append.mpr ⟨hrows, hrows'⟩⟩
    simpa using (List.forall₂_cons.mp hflat).1.whole hrecord
  | @index _ _ _ _ _ _ tree base position base' position' _ _ _ _ _ hchildren _ _ ih ih' =>
    obtain ⟨⟨hlinked, hnone⟩, hrest⟩ := List.forall_mem_cons.mp hforest
    obtain ⟨hbase, hposition⟩ : base.compounds = [] ∧ position.compounds = [] := by
      simpa [Role.compounds, hchildren] using hnone
    obtain ⟨hflat, hrows⟩ := ih (List.forall_mem_cons.mpr
      ⟨⟨hlinked.child (by simp [hchildren]), Tree.root_compounds_of_compounds hposition⟩,
        List.forall_mem_singleton.mpr ⟨hlinked.child (by simp [hchildren]),
          Tree.root_compounds_of_compounds hbase⟩⟩)
    obtain ⟨hflat', hrows'⟩ := ih' hrest
    obtain ⟨hposition', hbase'⟩ := List.forall₂_cons.mp hflat
    refine ⟨.cons (Tree.staysFlat_withChildren hlinked (by simp [hchildren]) ?_) hflat',
      List.forall_mem_append.mpr ⟨hrows, hrows'⟩⟩
    simpa using ⟨(List.forall₂_cons.mp hbase').1.whole hbase, hposition'.whole hposition⟩

/-! ### Statements -/

namespace Program

variable {program program' : Program} {statement : Tree}

/-- Where nothing is misplaced, nothing compound stands below an operand. -/
theorem root_compounds_of_misplaced (hsound : program.Sound statement)
    (hnone : statement.misplaced = []) :
    ∀ operand ∈ statement.children, Role.root.compounds operand = [] := by
  rw [← flatMap_compounds_parts hsound, List.flatMap_eq_nil_iff] at hnone
  rw [← map_snd_parts hsound .root, List.forall_mem_map]
  rintro ⟨role, operand⟩ hitem
  have hitem := hnone _ hitem
  cases role with
  | root => exact hitem
  | _ => exact Tree.root_compounds_of_compounds hitem

theorem misplaced_of_staysFlat {parts' : List Tree} (hsound : program.Sound statement)
    (hlinked : statement.Linked) (hnone : statement.misplaced = [])
    (hflat : List.Forall₂ (fun item tree' => item.2.StaysFlat tree')
      (program.parts .value statement) parts') :
    (statement.withChildren parts').misplaced = [] := by
  have hchildren : List.Forall₂ Tree.StaysFlat statement.children parts' := by
    rwa [← map_snd_parts hsound .value, List.forall₂_map_left_iff]
  rw [← map_snd_parts hsound .root, List.forall₂_map_left_iff] at hchildren
  rw [← flatMap_compounds_parts hsound, List.flatMap_eq_nil_iff] at hnone
  refine misplaced_withChildren hsound hlinked
    (((List.forall₂_and_left _ _).mpr ⟨hnone, hchildren⟩).imp ?_)
  rintro ⟨role, operand⟩ operand' ⟨hitem, hstays⟩
  cases role with
  | root => exact hstays.below
  | _ => exact hstays.whole hitem

end Program

theorem Tree.misplaced_of_bare_eq {tree tree' : Tree}
    (hsame : tree.bare = tree'.bare) (hnone : tree.misplaced = []) :
    tree'.misplaced = [] := by
  rcases Tree.eq_or_of_bare_eq hsame
    with rfl | ⟨_, _, _, _, _, _, _, rfl, rfl⟩ | ⟨_, _, _, _, rfl, rfl⟩ <;> exact hnone

namespace SharingPlan

variable {plan : SharingPlan} {program program' : Program} {memory memory' : Temporaries}
  {next next' : Nat}

theorem misplaced_callTree {id : NodeId} {callee : SignatureId} {arguments : List Tree}
    {target : Tree} : (callTree id callee arguments target).misplaced = [] ↔
      (∀ argument ∈ arguments, argument.compounds = []) ∧ target.compounds = [] := by
  rw [Tree.misplaced_of_ne fun _ _ _ => Node.noConfusion, List.flatMap_eq_nil_iff,
    List.forall_mem_append, List.forall_mem_singleton]

theorem misplaced_copyTree {copy leaf : NodeId} {temporary : VarId}
    {target : Tree} (hnone : target.compounds = []) :
    (copyTree copy leaf temporary target).misplaced = [] := by
  simp [Tree.misplaced, hnone]

/-- Sharing in a statement in which nothing is misplaced misplaces nothing. -/
theorem Edited.misplaced_eq_nil {statement : Tree} {rows : List Row} {trees : List Tree}
    (hedited : plan.Edited program program' memory next statement rows trees memory' next')
    (hsound : program.Sound statement) (hlinked : statement.Linked)
    (hnone : statement.misplaced = []) :
    ∀ tree ∈ rows.map Row.statement ++ trees, tree.misplaced = [] := by
  have hbelow {operand : Tree} (hchild : operand ∈ statement.children) :
      operand.Linked ∧ Role.root.compounds operand = [] :=
    ⟨hlinked.child hchild, Program.root_compounds_of_misplaced hsound hnone operand hchild⟩
  have hrows {rows : List Row} (hrows : ∀ row ∈ rows, Role.root.compounds row.value = []) :
      ∀ tree ∈ rows.map Row.statement, tree.misplaced = [] :=
    List.forall_mem_map.mpr fun row hrow => Row.misplaced_statement.trans (hrows row hrow)
  cases hedited with
  | operands _ hlifted =>
    obtain ⟨hflat, htaken⟩ := hlifted.staysFlat fun item hitem =>
      hbelow (Program.map_snd_parts hsound .value ▸ List.mem_map_of_mem hitem)
    exact List.forall_mem_append.mpr ⟨hrows htaken,
      List.forall_mem_singleton.mpr (Program.misplaced_of_staysFlat hsound hlinked hnone hflat)⟩
  | dropped => simpa using hnone
  | @first _ _ _ _ _ _ _ _ arguments arguments' target target' _ _ _ _ _ _ _ hlifted =>
    obtain ⟨harguments, htarget⟩ := misplaced_callTree.mp hnone
    obtain ⟨hflat, htaken⟩ := hlifted.staysFlat (List.forall_mem_append.mpr
      ⟨List.forall_mem_map.mpr fun argument hargument => hbelow (List.mem_append_left _ hargument),
        List.forall_mem_singleton.mpr
          (hbelow (List.mem_append_right _ (List.mem_singleton_self _)))⟩)
    have hleft : ∀ tree' ∈ arguments' ++ [target'], tree'.compounds = [] := fun tree' htree' => by
      obtain ⟨item, hitem, hstays⟩ := exists_of_forall₂ hflat.flip htree'
      refine hstays.whole ?_
      rcases List.mem_append.mp hitem with hitem | hitem
      · obtain ⟨argument, hargument, rfl⟩ := List.mem_map.mp hitem
        exact harguments argument hargument
      · exact List.mem_singleton.mp hitem ▸ htarget
    rw [List.forall_mem_append, List.forall_mem_singleton] at hleft
    exact List.forall_mem_append.mpr ⟨hrows htaken, List.forall_mem_cons.mpr
      ⟨misplaced_callTree.mpr ⟨hleft.1, Tree.compounds_variable _ _⟩,
        List.forall_mem_singleton.mpr (misplaced_copyTree hleft.2)⟩⟩
  | again _ _ hlifted =>
    have htarget := (misplaced_callTree.mp hnone).2
    obtain ⟨hflat, htaken⟩ := hlifted.staysFlat (List.forall_mem_singleton.mpr
      (hbelow (List.mem_append_right _ (List.mem_singleton_self _))))
    exact List.forall_mem_append.mpr ⟨hrows htaken, List.forall_mem_singleton.mpr
        (misplaced_copyTree ((List.forall₂_cons.mp hflat).1.whole htarget))⟩

theorem EditedAll.misplaced_eq_nil {statements : List Tree} {replaced : List Replacement}
    (hedited : plan.EditedAll program program' memory next statements replaced memory' next')
    (hstatements : ∀ statement ∈ statements,
      program.Sound statement ∧ statement.Linked ∧ statement.misplaced = []) :
    ∀ tree ∈ replaced.flatMap Replacement.trees, tree.misplaced = [] := by
  induction hedited with
  | nil => simp
  | cons hfirst _ ih =>
    obtain ⟨⟨hsound, hlinked, hnone⟩, hlater⟩ := List.forall_mem_cons.mp hstatements
    rw [List.flatMap_cons]
    exact List.forall_mem_append.mpr ⟨hfirst.misplaced_eq_nil hsound hlinked hnone, ih hlater⟩

end SharingPlan

/-- Sharing keeps three-address form. -/
theorem Program.SharesBlocks.misplaced_eq_nil {program program' : Program} {config : Config}
    {code code' : Code} {graph : Graph} {row : NodeId → List NodeId} {blocks : List SharedBlock}
    (hshares : program.SharesBlocks config code graph blocks row program' code')
    (hnone : ∀ statement ∈ code.statements, statement.misplaced = []) :
    ∀ statement ∈ code'.statements, statement.misplaced = [] := by
  refine hshares.forall_statements (fun _ _ => Tree.misplaced_of_bare_eq) fun block hblock => ?_
  obtain ⟨next, next', hedited, -⟩ := hshares.exists_editedAll hblock
  have hstatements := hshares.statements_subset hblock
  exact hedited.misplaced_eq_nil fun statement hmem =>
    ⟨hshares.outlines.sound statement (hstatements hmem),
    (hshares.outlines.draws.statement statement (hstatements hmem)).linked,
    hnone statement (hstatements hmem)⟩

/-! ### Passes that rest -/

/-- A pass leaves the text of a program alone, and says so. -/
def Program.Rests (pass : Walk PassError Program Bool) (program : Program) : Prop :=
  ∃ outcome diagnostics, pass.runFrom program = .ok (outcome, program.withDiagnostics diagnostics) ∧
    outcome.toOption.getD false = false

namespace Program

variable {program program' : Program}

namespace Outlines

variable {code : Code} (houtlines : program.Outlines code)

include houtlines

theorem withDiagnostics (diagnostics : List String) :
    (program.withDiagnostics diagnostics).Outlines code :=
  ⟨⟨houtlines.draws.congr fun _ _ => rfl,
      fun statement hmem => (houtlines.sound statement hmem).congr rfl,
    fun statement hmem operand hoperand below hbelow =>
      let hnode := houtlines.operands statement hmem operand hoperand below hbelow
      ⟨hnode.operand, hnode.variable_lt, hnode.arity⟩⟩, houtlines.body, houtlines.nodup⟩

/-- Hoisting rests where nothing is misplaced, whether the program nests too deep or not. -/
theorem rests_hoistSubexpressions (hnone : ∀ statement ∈ code.statements, statement.misplaced = [])
    (limit : Nat) : program.Rests (hoistSubexpressions limit) := by
  have hreturns : Query.ReturnsUnless (program.checkDepth limit) fun _ => False :=
    returns_checkDepthWithin limit _ houtlines.draws (congrArg Except.ok houtlines.body)
  cases hchecked : (program.checkDepth limit).run with
  | error cause => exact (hreturns cause hchecked).elim
  | ok checked =>
    cases checked with
    | ok => exact ⟨_, _, houtlines.answers_hoistSubexpressions_of_misplaced hnone hchecked, rfl⟩
    | error failure =>
      have hrun := runFrom_hoistSubexpressions program limit
      rw [hchecked] at hrun
      exact ⟨_, _, hrun, rfl⟩

/-- Sharing rests where it has refused the program. -/
theorem rests_localCse_of_fails {config : Config} {failure : PassError}
    (hrun : (localCse config).runFrom program = .ok (.error failure, program')) :
    program.Rests (localCse config) ∧ program' = program.withDiagnostics program'.diagnostics := by
  have hsame := (passed_localCse hrun (Or.inl houtlines.frames.statementsOnce)).eq_withDiagnostics
  exact ⟨⟨_, program'.diagnostics, by rw [hrun, ← hsame], rfl⟩, hsame⟩

end Outlines

end Program

/-! ### The pipeline -/

namespace Pipeline

variable {program program' : Program} {changed : Bool}

/-- A round that changes nothing is the last one. -/
theorem run_runToFixpoint_of_unchanged {pipeline : Pipeline}
    (hround : pipeline.run.run program = .ok (false, program'))
    (limit : Nat) : (pipeline.runToFixpoint (limit + 1)).run program = .ok (1, program') := by
  rw [runToFixpoint]
  exact bind_eq_ok_iff.mpr ⟨_, hround, rfl⟩

/-- After a round that changes something the pipeline goes on. -/
theorem run_runToFixpoint_of_changed {pipeline : Pipeline} {limit rounds : Nat} {stop : Program}
    (hround : pipeline.run.run program = .ok (true, program'))
    (hlater : (pipeline.runToFixpoint limit).run program' = .ok (rounds, stop)) :
    (pipeline.runToFixpoint (limit + 1)).run program = .ok (rounds + 1, stop) := by
  rw [runToFixpoint]
  exact bind_eq_ok_iff.mpr ⟨_, hround, bind_eq_ok_iff.mpr ⟨_, hlater, rfl⟩⟩

/-- Brings a program into three-address form and then shares what is repeated in it, with limits of
their own. -/
def normalizer (hoisting sharing : Config) : Pipeline where
  passes := [.hoistSubexpressions hoisting, .localCse sharing]

variable {hoisting sharing : Config}

/-- One round is a run of the one pass and then of the other. -/
theorem run_normalizer_iff :
    (normalizer hoisting sharing).run.run program = .ok (changed, program') ↔
    ∃ outcome between outcome',
      (hoistSubexpressions hoisting.maxDepth).runFrom program = .ok (outcome, between) ∧
      (localCse sharing).runFrom between = .ok (outcome', program') ∧
      changed = (outcome.toOption.getD false || outcome'.toOption.getD false) := by
  have hhoist {program between : Program} {first : Bool} :
      (Pass.hoistSubexpressions hoisting).run.run program = .ok (first, between) ↔
        ∃ outcome,
          (hoistSubexpressions hoisting.maxDepth).runFrom program = .ok (outcome, between) ∧
          outcome.toOption.getD false = first := by
    rw [Pass.run, run_skipOnError_eq_ok_iff]
  have hshare {program between : Program} {first : Bool} :
      (Pass.localCse sharing).run.run program = .ok (first, between) ↔
        ∃ outcome, (localCse sharing).runFrom program = .ok (outcome, between) ∧
          outcome.toOption.getD false = first := by
    rw [Pass.run, run_skipOnError_eq_ok_iff]
  rw [run, normalizer, Pass.run_runAll_cons_iff]
  simp only [Pass.run_runAll_cons_iff, hhoist, hshare]
  constructor
  · rintro ⟨_, between, _, ⟨outcome, hhoist, rfl⟩,
      ⟨_, _, last, ⟨outcome', hshare, rfl⟩, hlast, rfl⟩, rfl⟩
    rw [Pass.runAll] at hlast
    obtain ⟨rfl, rfl⟩ := Prod.mk.inj (Except.ok.inj hlast)
    exact ⟨outcome, between, outcome', hhoist, hshare, by rw [Bool.or_false]⟩
  · rintro ⟨outcome, between, outcome', hhoist, hshare, rfl⟩
    exact ⟨_, between, _, ⟨outcome, hhoist, rfl⟩,
      ⟨_, program', false, ⟨outcome', hshare, rfl⟩, by rw [Pass.runAll]; rfl, rfl⟩,
      by rw [Bool.or_false]⟩

/-- A round changes nothing if neither pass does, whatever has been reported before. -/
theorem run_normalizer_of_rests (hhoist : program.Rests (hoistSubexpressions hoisting.maxDepth))
    (hshare : program.Rests (localCse sharing)) (diagnostics : List String) : ∃ later,
      (normalizer hoisting sharing).run.run (program.withDiagnostics diagnostics) =
        .ok (false, program.withDiagnostics later) := by
  obtain ⟨outcome, _, hhoist, hunchanged⟩ := hhoist
  obtain ⟨outcome', _, hshare, hunchanged'⟩ := hshare
  obtain ⟨between, hhoist⟩ := exists_hoistSubexpressions_withDiagnostics diagnostics hhoist
  obtain ⟨later, hshare⟩ := exists_localCse_withDiagnostics between hshare
  exact ⟨later, run_normalizer_iff.mpr ⟨outcome, _, outcome', hhoist,
      hshare, by rw [hunchanged, hunchanged']; rfl⟩⟩

/-- A pipeline that changes nothing in its second round is run no more than twice. -/
theorem exists_rounds_le_two {pipeline : Pipeline} {shared final : Program}
    (hfirst : pipeline.run.run program = .ok (changed, shared))
    (hsecond : pipeline.run.run shared = .ok (false, final)) (limit : Nat) :
    ∃ rounds stop, (pipeline.runToFixpoint limit).run program = .ok (rounds, stop) ∧
      rounds ≤ 2 := by
  cases limit with
  | zero => exact ⟨0, program, rfl, by omega⟩
  | succ limit =>
    cases changed with
    | false => exact ⟨1, shared, run_runToFixpoint_of_unchanged hfirst limit, by omega⟩
    | true =>
      cases limit with
      | zero => exact ⟨1, shared, run_runToFixpoint_of_changed hfirst rfl, by omega⟩
      | succ limit =>
        exact ⟨2, final, run_runToFixpoint_of_changed hfirst
          (run_runToFixpoint_of_unchanged hsecond limit), by omega⟩

/-- Sharing in a program in three-address form, or refusing to, keeps that form and leaves the next
round nothing to do. -/
theorem exists_idle_round {between shared : Program} {code : Code} {outcome : Except PassError Bool}
    (houtlines : between.Outlines code) (hfree : between.IndexFree)
    (hnone : ∀ statement ∈ code.statements, statement.misplaced = [])
    (hshare : (localCse sharing).runFrom between = .ok (outcome, shared)) :
    shared.InThreeAddressForm ∧
      ∃ final, (normalizer hoisting sharing).run.run shared = .ok (false, final) ∧
        shared.SameText final := by
  cases outcome with
  | ok =>
    obtain ⟨graph, blocks, row, code', hshares⟩ := houtlines.exists_sharesBlocks hshare
    have hleft := hshares.misplaced_eq_nil hnone
    have hagain := houtlines.answers_localCse_again hfree hshare
    obtain ⟨later, hround⟩ :=
      run_normalizer_of_rests (hshares.outlines'.rests_hoistSubexpressions hleft hoisting.maxDepth)
      ⟨_, shared.diagnostics, hagain, rfl⟩ shared.diagnostics
    exact ⟨hshares.outlines'.inThreeAddressForm hleft, _, hround, rfl, rfl, rfl, rfl⟩
  | error =>
    obtain ⟨hrests, hsame⟩ := houtlines.rests_localCse_of_fails hshare
    obtain ⟨later, hround⟩ := run_normalizer_of_rests
      (houtlines.rests_hoistSubexpressions hnone hoisting.maxDepth) hrests shared.diagnostics
    rw [hsame]
    exact ⟨(houtlines.withDiagnostics _).inThreeAddressForm hnone, _, hround, rfl, rfl, rfl, rfl⟩

/-- Where the pipeline comes to an end, its first round has, and so has each pass of that round. -/
theorem exists_localCse_of_run {between stop : Program}
    {outcome : Except PassError Bool} {limit rounds : Nat}
    (hhoist : (hoistSubexpressions hoisting.maxDepth).runFrom program = .ok (outcome, between))
    (hrun : ((normalizer hoisting sharing).runToFixpoint (limit + 1)).run program =
      .ok (rounds, stop)) :
    ∃ outcome' shared, (localCse sharing).runFrom between = .ok (outcome', shared) := by
  rw [runToFixpoint] at hrun
  obtain ⟨⟨first, shared⟩, hfirst, -⟩ := bind_eq_ok_iff.mp hrun
  obtain ⟨_, found, outcome', hhoist', hshare, -⟩ := run_normalizer_iff.mp hfirst
  obtain ⟨-, rfl⟩ := Prod.mk.inj (Except.ok.inj (hhoist.symm.trans hhoist'))
  exact ⟨outcome', shared, hshare⟩

variable (hoisting sharing) in
/-- When a program could be brought into three-address form, and if sharing does not crash on the
result, sharing keeps that form, the next round changes nothing any more, and the pipeline is run no
more than twice. -/
theorem runToFixpoint_normalizer {between : Program} (hcheck : program.check = .ok ())
    (hfree : program.IndexFree) (hhoist : (hoistSubexpressions hoisting.maxDepth).runFrom program =
      .ok (.ok changed, between)) :
    (∀ limit rounds stop,
      ((normalizer hoisting sharing).runToFixpoint limit).run program = .ok (rounds, stop) →
      rounds ≤ 2) ∧
    ∀ outcome shared, (localCse sharing).runFrom between = .ok (outcome, shared) →
      shared.InThreeAddressForm ∧
      (∃ final, (normalizer hoisting sharing).run.run shared = .ok (false, final) ∧
        shared.SameText final) ∧
      ∀ limit, ∃ rounds stop,
        ((normalizer hoisting sharing).runToFixpoint limit).run program = .ok (rounds, stop) ∧
        rounds ≤ 2 := by
  obtain ⟨code, houtlines⟩ := Program.exists_outlines_of_check hcheck
  obtain ⟨code', houtlines', -, hnone, -⟩ := houtlines.exists_outlines_of_hoist hhoist
  have hfree' := houtlines.indexFree_of_hoist hfree hhoist
  have hbounded :
      ∀ outcome shared, (localCse sharing).runFrom between = .ok (outcome, shared) → ∀ limit,
      ∃ rounds stop, ((normalizer hoisting sharing).runToFixpoint limit).run program =
        .ok (rounds, stop) ∧ rounds ≤ 2 := by
    intro outcome shared hshare limit
    obtain ⟨-, final, hround, -⟩ := exists_idle_round houtlines' hfree' hnone hshare
    exact exists_rounds_le_two (run_normalizer_iff.mpr ⟨_, between, outcome, hhoist, hshare, rfl⟩)
      hround limit
  refine ⟨fun limit rounds stop hrun => ?_, fun outcome shared hshare => ?_⟩
  · cases limit with
    | zero =>
      obtain ⟨rfl, -⟩ := Prod.mk.inj (Except.ok.inj hrun)
      omega
    | succ limit =>
      obtain ⟨outcome, shared, hshare⟩ := exists_localCse_of_run hhoist hrun
      obtain ⟨bounded, _, hagain, hle⟩ := hbounded outcome shared hshare (limit + 1)
      obtain ⟨rfl, -⟩ := Prod.mk.inj (Except.ok.inj (hrun.symm.trans hagain))
      exact hle
  · obtain ⟨hform, hidle⟩ := exists_idle_round houtlines' hfree' hnone hshare
    exact ⟨hform, hidle, hbounded outcome shared hshare⟩

/-- In `y = (x + x) * (x + x)` both sums are taken out, and the second one is then read from the
temporary that holds the first. -/
theorem runToFixpoint_normalizer_squaredSum :
    Program.squaredSum.check = .ok () ∧ Program.squaredSum.IndexFree ∧ ∃ between shared stop,
      (hoistSubexpressions 8).runFrom Program.squaredSum = .ok (.ok true, between) ∧
      (localCse ⟨.all, 8⟩).runFrom between = .ok (.ok true, shared) ∧ shared.InThreeAddressForm ∧
      ((normalizer ⟨.all, 8⟩ ⟨.all, 8⟩).runToFixpoint 5).run Program.squaredSum =
        .ok (2, stop) := by
  have hcheck : Program.squaredSum.check = .ok () := rfl
  have hfree : Program.squaredSum.IndexFree :=
    Program.indexFree_of_forall (by simp [Program.squaredSum])
  have hshared : ((hoistSubexpressions 8).runFrom Program.squaredSum).bind
      (fun found => ((localCse ⟨.all, 8⟩).runFrom found.2).map Prod.fst) = .ok (.ok true) := by
          decide +kernel
  obtain ⟨⟨between, hhoist⟩, -⟩ := Program.exists_passes_squaredSum
  rw [hhoist] at hshared
  obtain ⟨⟨_, shared⟩, hshare, rfl⟩ := map_eq_ok_iff.mp hshared
  obtain ⟨hform, ⟨final, hround, -⟩, -⟩ :=
    (runToFixpoint_normalizer ⟨.all, 8⟩ ⟨.all, 8⟩ hcheck hfree hhoist).2 _ shared hshare
  exact ⟨hcheck, hfree, between, shared, final, hhoist, hshare, hform,
    run_runToFixpoint_of_changed (run_normalizer_iff.mpr ⟨_, between, _, hhoist, hshare, rfl⟩)
      (run_runToFixpoint_of_unchanged hround 3)⟩

end Pipeline

end ShaderIR
