import ShaderIR.Proofs.Pass.DepthCheck
import ShaderIR.Proofs.Pass.Exactness
import ShaderIR.Proofs.Pass.HoistingRuns

/-!
Whether a pipeline has changed something. A pass that answers leaves the program as it was or makes
a variable, and says which; a pass that fails only leaves its message, unless it is sharing that
finds a program too deep in the midst of its changes (`Program.Passed`). Both go over to rows of
passes and to nested pipelines, so that the answer of a whole run is exact
(`Pipeline.changesExactly_of_run`). Since no pass reads the messages, a run that has changed nothing
can be repeated: it changes nothing again.
-/

set_option autoImplicit false

namespace ShaderIR

variable {program program' program'' : Program} {changed changed' : Bool}

/-! ### Failures -/

/-- The message that a failure leaves in the diagnostics. -/
def PassError.reported? : PassError → Option String
  | .tooDeep limit => some (PassError.tooDeep limit).message
  | .unsupported _ => none

namespace Pass

/-- A failure of a pass. -/
structure Failure where
  error : PassError
  /-- Whether sharing had numbered all blocks by then and had begun to edit them. -/
  midway : Bool

/-- What a pass has failed with, if it has. -/
def failuresOf (outcome : Except PassError Bool) (midway : Bool) : List Failure :=
  match outcome with
  | .ok _ => []
  | .error error => [⟨error, midway⟩]

mutual

/-- What the passes of a step fail with, in the order in which they run; the run itself does not
tell. -/
def failures : Pass → Program → Except Crash (List Failure)
  | .inplace _, _ => return []
  | .nested passes, program => failuresAll passes program
  | .localCse config, program => do
    let (outcome, _) ← (ShaderIR.localCse config).runFrom program
    return failuresOf outcome (program.canBeNumbered config)
  | .hoistSubexpressions config, program => do
    let (outcome, _) ← (ShaderIR.hoistSubexpressions config.maxDepth).runFrom program
    return failuresOf outcome false

/-- What the passes of a row of steps fail with. -/
def failuresAll : List Pass → Program → Except Crash (List Failure)
  | [], _ => return []
  | pass :: rest, program => do
    let found ← pass.failures program
    let (_, between) ← pass.run.run program
    return found ++ (← failuresAll rest between)

end

/-- Passes that are not functions made up by the user, and pipelines of them. -/
inductive BuiltIn : Pass → Prop
  | nested {passes : List Pass} (hpasses : ∀ pass ∈ passes, BuiltIn pass) : BuiltIn (.nested passes)
  | localCse (config : Config) : BuiltIn (.localCse config)
  | hoistSubexpressions (config : Config) : BuiltIn (.hoistSubexpressions config)

end Pass

/-! ### Runs -/

theorem Program.ChangesExactly.vars_le (hexact : program.ChangesExactly changed program') :
    program.vars.size ≤ program'.vars.size := by
  cases changed with
  | false => exact (congrArg (fun program => program.vars.size) (hexact.1 rfl)).ge
  | true => exact (hexact.2 rfl).le

/-- Two programs with the same nodes, variables, signatures and statements. -/
structure Program.SameText (program program' : Program) : Prop where
  nodes : program'.nodes = program.nodes
  vars : program'.vars = program.vars
  signatures : program'.signatures = program.signatures
  body : program'.body = program.body

/-- None of the failures comes after changes: no statement comes twice in the program, or sharing
has not failed in it once it had begun to edit. -/
def Program.Tolerates (program : Program) (failures : List Pass.Failure) : Prop :=
  program.StatementsOnce ∨ ∀ failure ∈ failures, failure.midway = false

/-- What passes with these failures, all of them tolerated, have made of a program. -/
structure Program.Passed (program : Program) (changed : Bool) (failures : List Pass.Failure)
    (program' : Program) : Prop where
  once : program.StatementsOnce → program'.StatementsOnce
  diagnostics : program'.diagnostics = program.diagnostics ++ failures.filterMap fun failure =>
    failure.error.reported?
  exact : program.ChangesExactly changed (program'.withDiagnostics program.diagnostics)

namespace Program.Passed

variable {failures failures' : List Pass.Failure}

theorem refl (program : Program) : program.Passed false [] program :=
  ⟨id, (List.append_nil _).symm, fun _ => rfl, by simp⟩

theorem trans (hfirst : program.Passed changed failures program')
    (hsecond : program'.Passed changed' failures' program'') :
    program.Passed (changed || changed') (failures ++ failures') program'' := by
  refine ⟨fun honce => hsecond.once (hfirst.once honce), ?_, fun hunchanged => ?_,
    fun hchanged => ?_⟩
  · rw [hsecond.diagnostics, hfirst.diagnostics, List.filterMap_append, List.append_assoc]
  · obtain ⟨rfl, rfl⟩ := Bool.or_eq_false_iff.mp hunchanged
    calc program''.withDiagnostics program.diagnostics
        = (program''.withDiagnostics program'.diagnostics).withDiagnostics
            program.diagnostics := rfl
      _ = program'.withDiagnostics program.diagnostics := by rw [hsecond.exact.1 rfl]
      _ = program := hfirst.exact.1 rfl
  · have hle := hfirst.exact.vars_le
    have hle' := hsecond.exact.vars_le
    rcases (Bool.or_eq_true _ _).mp hchanged with rfl | rfl
    · exact (hfirst.exact.2 rfl).trans_le hle'
    · exact hle.trans_lt (hsecond.exact.2 rfl)

/-- What has changed nothing has only reported. -/
theorem eq_withDiagnostics (hpassed : program.Passed false failures program') :
    program' = program.withDiagnostics program'.diagnostics :=
  calc program'
      = (program'.withDiagnostics program.diagnostics).withDiagnostics program'.diagnostics := rfl
    _ = program.withDiagnostics program'.diagnostics := by rw [hpassed.exact.1 rfl]

theorem changed_eq_false_iff (hpassed : program.Passed changed failures program') :
    changed = false ↔ program.SameText program' := by
  constructor
  · intro hunchanged
    have hsame : program'.withDiagnostics program.diagnostics = program :=
      hpassed.exact.1 hunchanged
    exact ⟨by rw [← hsame]; rfl, by rw [← hsame]; rfl, by rw [← hsame]; rfl, by rw [← hsame]; rfl⟩
  · intro hsame
    rw [← Bool.not_eq_true]
    intro hchanged
    exact (hpassed.exact.2 hchanged).ne (congrArg Array.size hsame.vars).symm

theorem changed_eq_true_iff (hpassed : program.Passed changed failures program') :
    changed = true ↔ program.vars.size < program'.vars.size := by
  refine ⟨hpassed.exact.2, fun hgrown => ?_⟩
  rw [← Bool.not_eq_false, hpassed.changed_eq_false_iff]
  exact fun hsame => hgrown.ne (congrArg Array.size hsame.vars).symm

end Program.Passed

/-! ### Single passes -/

/-- An answer that leaves the diagnostics alone. -/
theorem Program.passed_of_answer (honce : program.StatementsOnce → program'.StatementsOnce)
    (hdiagnostics : program'.diagnostics = program.diagnostics)
    (hexact : program.ChangesExactly changed program') : program.Passed changed [] program' := by
  refine ⟨honce, hdiagnostics.trans (List.append_nil _).symm, ?_⟩
  rw [← hdiagnostics]
  exact hexact

/-- A failure that leaves its message. -/
theorem Program.passed_of_failure (program : Program) (failure : PassError) (midway : Bool) :
    program.Passed false [⟨failure, midway⟩]
      (program.noting (.error failure : Except PassError Bool)) := by
  cases failure with
  | unsupported shape => exact ⟨id, (List.append_nil _).symm, fun _ => rfl, by simp⟩
  | tooDeep limit =>
    exact ⟨(program.statementsOnce_withDiagnostics_iff _).mpr, rfl, fun _ => rfl, by simp⟩

variable {outcome : Except PassError Bool}

theorem passed_localCse {config : Config}
    (hrun : (localCse config).runFrom program = .ok (outcome, program'))
    (htolerates : program.Tolerates (Pass.failuresOf outcome (program.canBeNumbered config))) :
    program.Passed (outcome.toOption.getD false)
      (Pass.failuresOf outcome (program.canBeNumbered config)) program' := by
  cases outcome with
  | ok changed =>
    obtain ⟨graph, numberings, workspace, hbuild, hnumberings, hwalk, rfl, -⟩ :=
      Program.exists_of_eliminateRepeated (Program.answers_localCse_iff.mp hrun)
    exact Program.passed_of_answer (fun honce =>
      (ensures_shareBlocks_of_build honce hbuild hnumberings).of_answers hwalk)
      (diagnostics_of_localCse hrun) (exact_localCse hrun)
  | error failure =>
    rw [runFrom_localCse] at hrun
    obtain ⟨⟨outcome, between⟩, heliminate, hreached⟩ := map_eq_ok_iff.mp hrun
    obtain ⟨rfl, rfl⟩ := Prod.mk.inj hreached
    -- a failure may come after changes only if a statement comes twice and all blocks have been
    -- numbered
    have hsame : between = program :=
      (ensures_eliminateRepeated.of_fails heliminate).resolve_right fun ⟨⟨hnot, hnumbered⟩, _⟩ => by
        have hunchanged := htolerates.resolve_left hnot _ (List.mem_singleton_self _)
        exact Bool.false_ne_true (hunchanged.symm.trans hnumbered)
    rw [hsame]
    exact program.passed_of_failure failure _

theorem passed_hoistSubexpressions {limit : Nat}
    (hrun : (hoistSubexpressions limit).runFrom program = .ok (outcome, program')) :
    program.Passed (outcome.toOption.getD false) (Pass.failuresOf outcome false) program' := by
  cases outcome with
  | ok changed =>
    exact Program.passed_of_answer
      (fun honce => (honce.ensures_hoistSubexpressions limit).of_answers hrun)
      (diagnostics_of_hoistSubexpressions hrun) (exact_hoistSubexpressions hrun)
  | error failure =>
    obtain ⟨rfl, rfl⟩ := Program.eq_report_of_fails_hoistSubexpressions hrun
    exact program.passed_of_failure (.tooDeep limit) false

theorem run_skipOnError_eq_ok_iff {pass : Walk PassError Program Bool} :
    (skipOnError pass).run program = .ok (changed, program') ↔
      ∃ outcome, pass.runFrom program = .ok (outcome, program') ∧
        outcome.toOption.getD false = changed := by
  have hrun : (skipOnError pass).run program =
      (pass.runFrom program).map fun reached => (reached.1.toOption.getD false, reached.2) := by
    change (pass.runFrom program >>= _) = _
    rcases pass.runFrom program with cause | ⟨_ | _, _⟩ <;> rfl
  rw [hrun, map_eq_ok_iff]
  constructor
  · rintro ⟨⟨outcome, stop⟩, hwalk, hreached⟩
    obtain ⟨rfl, rfl⟩ := Prod.mk.inj hreached
    exact ⟨outcome, hwalk, rfl⟩
  · rintro ⟨outcome, hwalk, rfl⟩
    exact ⟨_, hwalk, rfl⟩

/-! ### Rows of passes -/

namespace Pass

variable {pass : Pass} {passes : List Pass}

/-- Whatever the program, the answer of the step is exact if its failures are tolerated. -/
def Steady (pass : Pass) : Prop :=
  ∀ program changed program', pass.run.run program = .ok (changed, program') →
    ∃ failures, pass.failures program = .ok failures ∧
      (program.Tolerates failures → program.Passed changed failures program')

theorem run_runAll_cons_iff {rest : List Pass} :
    (runAll (pass :: rest)).run program = .ok (changed, program') ↔
    ∃ first between later, pass.run.run program = .ok (first, between) ∧
      (runAll rest).run between = .ok (later, program') ∧ changed = (first || later) := by
  rw [runAll]
  constructor
  · intro hrun
    obtain ⟨⟨first, between⟩, hfirst, hrun⟩ := bind_eq_ok_iff.mp hrun
    obtain ⟨⟨later, stop⟩, hlater, hpure⟩ := bind_eq_ok_iff.mp hrun
    obtain ⟨rfl, rfl⟩ := Prod.mk.inj (Except.ok.inj hpure)
    exact ⟨first, between, later, hfirst, hlater, rfl⟩
  · rintro ⟨first, between, later, hfirst, hlater, rfl⟩
    exact bind_eq_ok_iff.mpr ⟨_, hfirst, bind_eq_ok_iff.mpr ⟨_, hlater, rfl⟩⟩

/-- The answer of a row of steps is exact if those of the steps are. -/
theorem passed_runAll (hsteady : ∀ pass ∈ passes, pass.Steady)
    (hrun : (runAll passes).run program = .ok (changed, program')) :
    ∃ failures, failuresAll passes program = .ok failures ∧
      (program.Tolerates failures → program.Passed changed failures program') := by
  induction passes generalizing program changed with
  | nil =>
    rw [runAll] at hrun
    obtain ⟨rfl, rfl⟩ := Prod.mk.inj (Except.ok.inj hrun)
    exact ⟨[], by rw [failuresAll]; rfl, fun _ => .refl program⟩
  | cons pass rest ih =>
    obtain ⟨first, between, later, hfirst, hlater, rfl⟩ := run_runAll_cons_iff.mp hrun
    obtain ⟨hpass, hrest⟩ := List.forall_mem_cons.mp hsteady
    obtain ⟨failures, hfailures, hpassed⟩ := hpass _ _ _ hfirst
    obtain ⟨failures', hfailures', hpassed'⟩ := ih hrest hlater
    refine ⟨failures ++ failures', ?_, fun htolerates => ?_⟩
    · rw [failuresAll]
      exact bind_eq_ok_iff.mpr ⟨_, hfailures,
        bind_eq_ok_iff.mpr ⟨_, hfirst, bind_eq_ok_iff.mpr ⟨_, hfailures', rfl⟩⟩⟩
    · have hboth := htolerates.imp_right List.forall_mem_append.mp
      have hbetween := hpassed (hboth.imp_right And.left)
      exact hbetween.trans (hpassed' (hboth.imp hbetween.once And.right))

theorem BuiltIn.steady (hbuiltIn : pass.BuiltIn) : pass.Steady := by
  induction hbuiltIn with
  | nested _ ih =>
    intro program changed program' hrun
    rw [run] at hrun
    rw [failures]
    exact passed_runAll ih hrun
  | localCse config =>
    intro program changed program' hrun
    rw [run, run_skipOnError_eq_ok_iff] at hrun
    obtain ⟨outcome, hwalk, rfl⟩ := hrun
    exact ⟨failuresOf outcome _, by rw [failures, hwalk]; rfl, passed_localCse hwalk⟩
  | hoistSubexpressions config =>
    intro program changed program' hrun
    rw [run, run_skipOnError_eq_ok_iff] at hrun
    obtain ⟨outcome, hwalk, rfl⟩ := hrun
    exact ⟨failuresOf outcome false, by rw [failures, hwalk]; rfl,
      fun _ => passed_hoistSubexpressions hwalk⟩

/-- The step does the same whatever has been reported before. -/
def Deaf (pass : Pass) : Prop :=
  ∀ program changed program' diagnostics, pass.run.run program = .ok (changed, program') →
    ∃ later, pass.run.run (program.withDiagnostics diagnostics) =
      .ok (changed, program'.withDiagnostics later)

theorem exists_runAll_withDiagnostics (hdeaf : ∀ pass ∈ passes, pass.Deaf)
    (diagnostics : List String) (hrun : (runAll passes).run program = .ok (changed, program')) :
    ∃ later, (runAll passes).run (program.withDiagnostics diagnostics) =
      .ok (changed, program'.withDiagnostics later) := by
  induction passes generalizing program changed diagnostics with
  | nil =>
    rw [runAll] at hrun ⊢
    obtain ⟨rfl, rfl⟩ := Prod.mk.inj (Except.ok.inj hrun)
    exact ⟨diagnostics, rfl⟩
  | cons pass rest ih =>
    obtain ⟨first, between, later, hfirst, hlater, rfl⟩ := run_runAll_cons_iff.mp hrun
    obtain ⟨hpass, hrest⟩ := List.forall_mem_cons.mp hdeaf
    obtain ⟨reported, hfirst'⟩ := hpass _ _ _ diagnostics hfirst
    obtain ⟨reported', hlater'⟩ := ih hrest reported hlater
    exact ⟨reported', run_runAll_cons_iff.mpr ⟨first, _, later, hfirst', hlater', rfl⟩⟩

theorem BuiltIn.deaf (hbuiltIn : pass.BuiltIn) : pass.Deaf := by
  induction hbuiltIn with
  | nested _ ih =>
    intro program changed program' diagnostics hrun
    rw [run] at hrun ⊢
    exact exists_runAll_withDiagnostics ih diagnostics hrun
  | localCse config =>
    intro program changed program' diagnostics hrun
    rw [run, run_skipOnError_eq_ok_iff] at hrun
    obtain ⟨outcome, hwalk, rfl⟩ := hrun
    obtain ⟨later, hlater⟩ := exists_localCse_withDiagnostics diagnostics hwalk
    exact ⟨later, by rw [run]; exact run_skipOnError_eq_ok_iff.mpr ⟨outcome, hlater, rfl⟩⟩
  | hoistSubexpressions config =>
    intro program changed program' diagnostics hrun
    rw [run, run_skipOnError_eq_ok_iff] at hrun
    obtain ⟨outcome, hwalk, rfl⟩ := hrun
    obtain ⟨later, hlater⟩ := exists_hoistSubexpressions_withDiagnostics diagnostics hwalk
    exact ⟨later, by rw [run]; exact run_skipOnError_eq_ok_iff.mpr ⟨outcome, hlater, rfl⟩⟩

end Pass

/-! ### Pipelines -/

namespace Pipeline

variable {pipeline : Pipeline}

/-- A pipeline that has been repeated less often than allowed has changed nothing in its last
run. -/
theorem exists_last_run (hbuiltIn : ∀ pass ∈ pipeline.passes, pass.BuiltIn) {limit rounds : Nat}
    (hrun : (pipeline.runToFixpoint limit).run program = .ok (rounds, program'))
    (hrounds : rounds < limit) : ∃ last : Program, (program.StatementsOnce → last.StatementsOnce) ∧
      pipeline.run.run last = .ok (false, program') := by
  induction limit generalizing program rounds with
  | zero => exact absurd hrounds rounds.not_lt_zero
  | succ limit ih =>
    rw [runToFixpoint] at hrun
    obtain ⟨⟨changed, between⟩, hfirst, hrun⟩ := bind_eq_ok_iff.mp hrun
    cases changed with
    | false =>
      obtain ⟨-, rfl⟩ := Prod.mk.inj (Except.ok.inj hrun)
      exact ⟨program, id, hfirst⟩
    | true =>
      obtain ⟨⟨rounds, stop⟩, hlater, hpure⟩ := bind_eq_ok_iff.mp hrun
      obtain ⟨rfl, rfl⟩ := Prod.mk.inj (Except.ok.inj hpure)
      obtain ⟨_, -, hpassed⟩ :=
        Pass.passed_runAll (fun pass hpass => (hbuiltIn pass hpass).steady) hfirst
      obtain ⟨last, hlast, hfinal⟩ := ih hlater (Nat.lt_of_succ_lt_succ hrounds)
      exact ⟨last, fun honce => hlast ((hpassed (Or.inl honce)).once honce), hfinal⟩

/-- A run that has changed nothing changes nothing when it is repeated: what the first one has
reported is not read. -/
theorem exists_run_again (hbuiltIn : ∀ pass ∈ pipeline.passes, pass.BuiltIn)
    {failures : List Pass.Failure} (hrun : pipeline.run.run program = .ok (false, program'))
    (hpassed : program.Passed false failures program') :
    ∃ program'', pipeline.run.run program' = .ok (false, program'') ∧
      program'.SameText program'' := by
  obtain ⟨later, hagain⟩ := Pass.exists_runAll_withDiagnostics
    (fun pass hpass => (hbuiltIn pass hpass).deaf) program'.diagnostics hrun
  rw [← hpassed.eq_withDiagnostics] at hagain
  exact ⟨_, hagain, rfl, rfl, rfl, rfl⟩

/-- Unless sharing gives up in the midst of its changes on a program in which a statement comes
twice, the answer of a run is exact: nothing but the diagnostics has changed, by a message for each
pass that has found the program too deep, or a variable has been created. A pipeline that has been
repeated until it changed nothing changes nothing in one more run either. -/
theorem changesExactly_of_run (hbuiltIn : ∀ pass ∈ pipeline.passes, pass.BuiltIn)
    (program : Program) :
    (∀ changed program', pipeline.run.run program = .ok (changed, program') →
      ∃ failures, Pass.failuresAll pipeline.passes program = .ok failures ∧
        (program.Tolerates failures →
        program'.diagnostics = program.diagnostics ++
          failures.filterMap (fun failure => failure.error.reported?) ∧
        (changed = false ↔ program.SameText program') ∧
        (changed = true ↔ program.vars.size < program'.vars.size))) ∧
    ∀ limit rounds program',
      (pipeline.runToFixpoint limit).run program = .ok (rounds, program') → rounds < limit →
      ∃ last failures, (program.StatementsOnce → last.StatementsOnce) ∧
        pipeline.run.run last = .ok (false, program') ∧
        Pass.failuresAll pipeline.passes last = .ok failures ∧ (last.Tolerates failures →
          ∃ program'', pipeline.run.run program' = .ok (false, program'') ∧
            program'.SameText program'') := by
  have hsteady : ∀ pass ∈ pipeline.passes, pass.Steady :=
    fun pass hpass => (hbuiltIn pass hpass).steady
  constructor
  · intro changed program' hrun
    obtain ⟨failures, hfailures, hpassed⟩ := Pass.passed_runAll hsteady hrun
    exact ⟨failures, hfailures, fun htolerates => ⟨(hpassed htolerates).diagnostics,
      (hpassed htolerates).changed_eq_false_iff, (hpassed htolerates).changed_eq_true_iff⟩⟩
  · intro limit rounds program' hrun hrounds
    obtain ⟨last, hlast, hfinal⟩ := exists_last_run hbuiltIn hrun hrounds
    obtain ⟨failures, hfailures, hpassed⟩ := Pass.passed_runAll hsteady hfinal
    exact ⟨last, failures, hlast, hfinal, hfailures, fun htolerates =>
      exists_run_again hbuiltIn hfinal (hpassed htolerates)⟩

/-- Brings a program into three-address form and then shares what is repeated in it. -/
def normalizing : Pipeline where
  passes := [.hoistSubexpressions { maxDepth := 4 }, .nested [.localCse {}]]

theorem builtIn_of_mem_normalizing : ∀ pass ∈ normalizing.passes, pass.BuiltIn :=
  List.forall_mem_cons.mpr ⟨.hoistSubexpressions _, List.forall_mem_singleton.mpr
    (.nested (List.forall_mem_singleton.mpr (.localCse _)))⟩

theorem changesExactly_of_run_normalizing : ∃ first final again,
    normalizing.run.run Program.nestedOperands = .ok (true, first) ∧
    Program.nestedOperands.vars.size < first.vars.size ∧
    (normalizing.runToFixpoint 8).run Program.nestedOperands = .ok (2, final) ∧
    normalizing.run.run final = .ok (false, again) ∧ final.SameText again := by
  have hcheck : Program.nestedOperands.check = .ok () := rfl
  obtain ⟨code, houtlines⟩ := Program.exists_outlines_of_check hcheck
  have honce := houtlines.frames.statementsOnce
  have hexact := changesExactly_of_run builtIn_of_mem_normalizing Program.nestedOperands
  have hfirst :
      (normalizing.run.run Program.nestedOperands).map Prod.fst = .ok true := by decide +kernel
  obtain ⟨⟨changed, first⟩, hfirst, rfl⟩ := map_eq_ok_iff.mp hfirst
  have hfinal : ((normalizing.runToFixpoint 8).run Program.nestedOperands).map Prod.fst =
      .ok 2 := by decide +kernel
  obtain ⟨⟨rounds, final⟩, hfinal, rfl⟩ := map_eq_ok_iff.mp hfinal
  obtain ⟨failures, -, hrun⟩ := hexact.1 _ _ hfirst
  obtain ⟨last, failures', hlast, -, -, hlater⟩ := hexact.2 _ _ _ hfinal (by decide)
  obtain ⟨again, hagain, hsame⟩ := hlater (Or.inl (hlast honce))
  exact ⟨first, final, again, hfirst, (hrun (Or.inl honce)).2.2.mp rfl, hfinal, hagain, hsame⟩

/-- Local sharing that gives up in the middle of a statement that comes twice. -/
def givingUp : Pipeline where
  passes := [.localCse { eligible := .call, maxDepth := 1 }]

theorem run_givingUp_repeatedStatement :
    ∃ after, givingUp.run.run repeatedStatement = .ok (false, after) ∧
    repeatedStatement.nodes.size = 10 ∧ after.nodes.size = 18 ∧
    repeatedStatement.vars.size = 3 ∧ after.vars.size = 5 := by
  have hsizes : (givingUp.run.run repeatedStatement).map
      (fun reached => (reached.1, reached.2.nodes.size, reached.2.vars.size)) =
        .ok (false, 18, 5) := by
    decide +kernel
  obtain ⟨⟨changed, after⟩, hrun, hreached⟩ := map_eq_ok_iff.mp hsizes
  simp only [Prod.mk.injEq] at hreached
  obtain ⟨rfl, hnodes, hvars⟩ := hreached
  exact ⟨after, hrun, rfl, hnodes, rfl, hvars⟩

end Pipeline

end ShaderIR
