import ShaderIR.Proofs.Interp.Reading
import ShaderIR.Proofs.Outline.Checked

/-!
Runs of statements as relations on codes. `Program.Performs` says what one statement does to a
machine and where control goes, and `Program.Runs` what a whole code does, by recursion on its
structure instead of on a row of statements that are still to come. These are the runs of the
interpreter (`Program.Outlines.run_iff_runs`).
-/

set_option autoImplicit false

namespace ShaderIR

/-! ### What statements do -/

/-- The machine after a value has been stored through a place. -/
def Machine.stored (vars : Array Variable) (machine : Machine) (place : Place) (value : Lanes)
    (mask : UInt8) : Machine :=
  let slot :=
    (machine.slots.getD place.root.index []).write place.offset place.ty.flatLen mask value
  { machine with
    slots := machine.slots.setIfInBounds place.root.index slot
    trace.writes :=
      if vars[place.root.index]?.map Variable.mode = some .temporary then machine.trace.writes
      else (place.root, slot) :: machine.trace.writes }

/-- The machine in the middle of a call, when its inputs have been evaluated. -/
def Machine.called (machine : Machine) (signature : Signature) : Machine :=
  { machine with
    sequence := if signature.isPure then machine.sequence else machine.sequence + 1
    trace.calls := machine.trace.calls + 1 }

/-- Where control goes after a statement. -/
inductive Outcome
  | onward
  /-- Into the first body of a conditional, or into the second one. -/
  | chose (first : Bool)
  | stop
deriving DecidableEq

/-- The statements that come after a statement of this node and before the rest of its list. -/
def Outcome.flow (node : Node) : Outcome → Flow
  | .stop => .stop
  | .onward => .through []
  | .chose first =>
    match node with
    | .branch _ thenBody elseBody => .through (if first then thenBody else elseBody)
    | _ => .through []

/-- The arguments that a call reads. -/
def Signature.inputs {α : Type} (signature : Signature) (arguments : List α) : List α :=
  ((signature.params.zip arguments).filter fun passed => passed.1.mode != .output).map Prod.snd

/-- What a call stores in its arguments, given what it stores in the argument of each number. -/
def Signature.writtenFrom {α : Type} (written : Nat → Ty → Lanes) :
    Nat → List Param → List α → List (α × Lanes)
  | number, param :: params, argument :: arguments =>
    (if param.mode.writes then [(argument, written number param.ty)] else []) ++
      writtenFrom written (number + 1) params arguments
  | _, _, _ => []

/-- What a call stores, in order: first in its arguments and then in the place for its result. -/
def Signature.stores {α : Type} (signature : Signature) (callee : SignatureId) (inputs : List Lanes)
    (sequence : Nat) (arguments : List α) (result : Option α) : List (α × Lanes) :=
  writtenFrom (fun number ty => (Seed.written callee inputs number sequence).lanes ty.flatLen) 0
    signature.params arguments ++
  result.toList.map fun place =>
    (place, (Seed.returned callee inputs (if signature.isPure then none else some sequence)).lanes
      signature.returnTy.flatLen)

namespace Program

variable {program : Program}

/-- A value is stored through an lvalue. -/
def Stores (program : Program) (target : Tree) (value : Lanes) (mask : UInt8)
    (machine machine' : Machine) : Prop :=
  ∃ place, (target.reading program.vars machine.slots).place = some place ∧
    machine' = (machine.sampled target.samples).stored program.vars place value mask

/-- Values are stored through lvalues one after the other. -/
inductive StoresAll (program : Program) : List (Tree × Lanes) → Machine → Machine → Prop
  | nil (machine : Machine) : StoresAll program [] machine machine
  | cons {target : Tree} {value : Lanes} {rest : List (Tree × Lanes)}
    {machine between machine' : Machine} (hfirst : program.Stores target value 0 machine between)
    (hrest : StoresAll program rest between machine') :
    StoresAll program ((target, value) :: rest) machine machine'

/-- The lanes of operands. -/
def lanesOf? (program : Program) (machine : Machine) (operands : List Tree) : Option (List Lanes) :=
  (operands.map (Tree.reading program.vars machine.slots)).mapM Reading.lanes

@[simp] theorem lanesOf?_nil {machine : Machine} : program.lanesOf? machine [] = some [] :=
  rfl

theorem lanesOf?_cons_eq_some_iff {machine : Machine} {first : Tree} {rest : List Tree}
    {values : List Lanes} : program.lanesOf? machine (first :: rest) = some values ↔
      ∃ lanes later, (first.reading program.vars machine.slots).lanes = some lanes ∧
        program.lanesOf? machine rest = some later ∧ values = lanes :: later := by
  simp only [lanesOf?, List.map_cons, List.mapM_cons, Option.bind_eq_bind, Option.bind_eq_some_iff,
    Option.pure_def, Option.some.injEq]
  constructor
  · rintro ⟨lanes, hlanes, later, hlater, rfl⟩
    exact ⟨lanes, later, hlanes, hlater, rfl⟩
  · rintro ⟨lanes, later, hlanes, hlater, rfl⟩
    exact ⟨lanes, hlanes, later, hlater, rfl⟩

theorem lanesOf?_singleton_eq_some_iff {machine : Machine} {operand : Tree} {values : List Lanes} :
    program.lanesOf? machine [operand] = some values ↔
      ∃ lanes, (operand.reading program.vars machine.slots).lanes = some lanes ∧
        values = [lanes] := by
  simp [lanesOf?_cons_eq_some_iff]

/-- A call changes the machine. -/
def Calls (program : Program) (callee : SignatureId) (arguments : List Tree) (result : Option Tree)
    (machine machine' : Machine) : Prop :=
  ∃ signature inputs, program.signature callee = .ok signature ∧
    program.lanesOf? machine (signature.inputs arguments) = some inputs ∧
    program.StoresAll (signature.stores callee inputs machine.sequence arguments result)
      ((machine.sampled ((signature.inputs arguments).map Tree.samples).sum).called
        signature) machine'

/-- A discard fires unless its condition is zero. -/
def fires (conditions : List Lanes) : Bool :=
  conditions.all fun condition => (condition.lane 0).isTrue

theorem fires_singleton (condition : Lanes) : fires [condition] = (condition.lane 0).isTrue := by
  simp [fires]

/-- A statement changes the machine and sends control somewhere. -/
def Performs (program : Program) (statement : Tree) (machine : Machine) (outcome : Outcome)
    (machine' : Machine) : Prop :=
  match statement.node, statement.children with
  | .assign _ _ mask, [value, target] => outcome = .onward ∧
    ∃ lanes, (value.reading program.vars machine.slots).lanes = some lanes ∧
      program.Stores target lanes mask (machine.sampled value.samples) machine'
  | .call callee ids _, children =>
    outcome = .onward ∧
    program.Calls callee (children.take ids.length)
      (children.drop ids.length).head? machine machine'
  | .branch .., [condition] =>
    ∃ lanes, (condition.reading program.vars machine.slots).lanes = some lanes ∧
      outcome = .chose (lanes.lane 0).isTrue ∧ machine' = machine.sampled condition.samples
  | .ret _, values => outcome = .stop ∧ (program.lanesOf? machine values).isSome ∧
    machine' = machine.sampled (values.map Tree.samples).sum
  | .discard _, conditions =>
    ∃ lanes, program.lanesOf? machine conditions = some lanes ∧
      outcome = (if fires lanes then .stop else .onward) ∧
      machine' = (if fires lanes then
        { machine.sampled (conditions.map Tree.samples).sum with trace.discarded := true }
        else machine.sampled (conditions.map Tree.samples).sum)
  | _, _ => False

theorem performs_call {id : NodeId} {callee : SignatureId} {arguments : List Tree}
    {result : Option Tree} {machine machine' : Machine} {outcome : Outcome} :
    program.Performs ⟨id, .call callee (arguments.map Tree.id) (result.map Tree.id),
      arguments ++ result.toList⟩ machine outcome machine' ↔
      outcome = .onward ∧ program.Calls callee arguments result machine machine' := by
  simp [Performs]

/-- A code changes the machine and comes to its end, or stops the run before. -/
inductive Runs (program : Program) : Code → Machine → (stopped : Bool) → Machine → Prop
  | nil (machine : Machine) : Runs program .nil machine false machine
  | step {statement : Tree} {rest : Code} {machine between machine' : Machine} {stopped : Bool}
    (hstatement : program.Performs statement machine .onward between)
    (hrest : Runs program rest between stopped machine') :
    Runs program (.step statement rest) machine stopped machine'
  | stepStop {statement : Tree} {rest : Code} {machine machine' : Machine}
    (hstatement : program.Performs statement machine .stop machine') :
    Runs program (.step statement rest) machine true machine'
  | branch {statement : Tree} {thenBody elseBody rest : Code}
    {machine between inside machine' : Machine} {first stopped : Bool}
    (hstatement : program.Performs statement machine (.chose first) between)
    (hbody : Runs program (if first then thenBody else elseBody) between false inside)
    (hrest : Runs program rest inside stopped machine') :
    Runs program (.branch statement thenBody elseBody rest) machine stopped machine'
  | branchStop {statement : Tree} {thenBody elseBody rest : Code}
    {machine between machine' : Machine} {first : Bool}
    (hstatement : program.Performs statement machine (.chose first) between)
    (hbody : Runs program (if first then thenBody else elseBody) between true machine') :
    Runs program (.branch statement thenBody elseBody rest) machine true machine'

/-! ### The interpreter on statements -/

theorem exists_variable_of_place {tree : Tree} {vars : Array Variable} {slots : Array Lanes}
    {place : Place} (hplace : (tree.reading vars slots).place = some place) :
    ∃ declared, vars[place.root.index]? = some declared := by
  induction tree using Tree.induction generalizing place with
  | step id node children ih =>
    rw [Tree.reading_mk] at hplace
    unfold Node.reading at hplace
    split at hplace
    · simp at hplace
    · obtain ⟨declared, hdeclared, rfl⟩ := Option.map_eq_some_iff.mp hplace
      exact ⟨declared, hdeclared⟩
    · next base position hchildren =>
      obtain ⟨baseTree, _, rfl, rfl, hrest⟩ := List.map_eq_cons_iff.mp hchildren
      simp only [Reading.ofPlace_place, Option.bind_eq_bind, Option.bind_eq_some_iff] at hplace
      obtain ⟨basePlace, hbase, lanes, -, helement⟩ := hplace
      rw [Place.root_of_element? helement]
      exact ih baseTree List.mem_cons_self hbase
    · next record hchildren =>
      obtain ⟨recordTree, _, rfl, rfl, hrest⟩ := List.map_eq_cons_iff.mp hchildren
      simp only [Reading.ofPlace_place, Option.bind_eq_bind, Option.bind_eq_some_iff] at hplace
      obtain ⟨recordPlace, hrecord, hfield⟩ := hplace
      rw [Place.root_of_field? hfield]
      exact ih recordTree List.mem_cons_self hrecord
    all_goals simp at hplace

end Program

theorem Tree.root_lt_of_place {tree : Tree} {vars : Array Variable} {slots : Array Lanes}
    {place : Place} (hplace : (tree.reading vars slots).place = some place) :
    place.root.index < vars.size := by
  obtain ⟨declared, hdeclared⟩ := Program.exists_variable_of_place hplace
  exact (Array.getElem?_eq_some_iff.mp hdeclared).choose

namespace Program

variable {program : Program}

theorem evaluates_evaluate {tree : Tree} (hdraws : program.Draws tree)
    (hheight : tree.height ≤ program.chainBound) : program.Evaluates program.evaluate tree :=
  evaluates_evaluateWithin hdraws hheight hheight

theorem answers_place {tree : Tree} (hdraws : program.Draws tree)
    (hheight : tree.height ≤ program.chainBound) {machine machine' : Machine} {place : Place} :
    Walk.Answers (program.place tree.id) machine place machine' ↔
      (tree.reading program.vars machine.slots).place = some place ∧
        machine' = machine.sampled tree.samples :=
  answers_placeVia hdraws hheight fun _ hdraws' hheight' =>
    evaluates_evaluate hdraws' (hheight'.le.trans hheight)

theorem answers_store {target : Tree} {value : Lanes} {mask : UInt8} (hdraws : program.Draws target)
    (hheight : target.height ≤ program.chainBound) {machine machine' : Machine} {answer : Unit} :
    Walk.Answers (program.store target.id value mask) machine answer machine' ↔
      program.Stores target value mask machine machine' := by
  simp only [store, Walk.answers_bind, answers_place hdraws hheight, Walk.answers_liftCrash,
    variableOf_eq_ok_iff, Walk.answers_modify, Stores]
  constructor
  · rintro ⟨place, _, ⟨hplace, rfl⟩, declared, _, ⟨hdeclared, rfl⟩, rfl⟩
    exact ⟨place, hplace, by simp [Machine.stored, hdeclared]⟩
  · rintro ⟨place, hplace, rfl⟩
    obtain ⟨declared, hdeclared⟩ := exists_variable_of_place hplace
    exact ⟨place, _, ⟨hplace, rfl⟩, declared, _, ⟨hdeclared, rfl⟩,
      by simp [Machine.stored, hdeclared]⟩

theorem inputs_map {α β : Type} (signature : Signature) (change : α → β) (arguments : List α) :
    signature.inputs (arguments.map change) = (signature.inputs arguments).map change := by
  simp only [Signature.inputs, List.zip_map_right, List.filter_map, List.map_map]
  rfl

theorem inputs_subset {α : Type} (signature : Signature) (arguments : List α) :
    signature.inputs arguments ⊆ arguments := by
  intro argument hargument
  obtain ⟨passed, hpassed, rfl⟩ := List.mem_map.mp hargument
  exact (List.of_mem_zip (List.mem_of_mem_filter hpassed)).2

private theorem answers_storeWritten {arguments : List Tree} (harguments : ∀ argument ∈ arguments,
      program.Draws argument ∧ argument.height ≤ program.chainBound) (params : List Param)
    (written : Nat → Ty → Lanes) (later : List (Tree × Lanes)) (number : Nat)
    (machine machine' : Machine) :
    (∃ between, Walk.Answers (((params.zip (arguments.map Tree.id)).zipIdx number).forM
        fun ((param, argument), number) => do
          if param.mode.writes then
            program.store argument (written number param.ty) 0) machine ⟨⟩ between ∧
        program.StoresAll later between machine') ↔
      program.StoresAll (Signature.writtenFrom written number params arguments ++ later)
        machine machine' := by
  induction params generalizing arguments number machine with
  | nil => simp [Signature.writtenFrom]
  | cons param params ih =>
    cases arguments with
    | nil => simp [Signature.writtenFrom]
    | cons argument arguments =>
      obtain ⟨hargument, harguments⟩ := List.forall_mem_cons.mp harguments
      have hrest := fun machine => ih harguments (number + 1) machine
      rw [List.map_cons, List.zip_cons_cons, List.zipIdx_cons, Signature.writtenFrom]
      simp only [Walk.answers_forM_cons]
      cases hwrites : param.mode.writes with
      | false =>
        simp only [Bool.false_eq_true, if_false, Walk.answers_pure, true_and, List.nil_append,
          exists_eq_left']
        exact hrest machine
      | true =>
        simp only [if_true, answers_store hargument.1 hargument.2, List.cons_append]
        constructor
        · rintro ⟨between, ⟨first, hfirst, hbetween⟩, hlater⟩
          exact .cons hfirst ((hrest first).mp ⟨between, hbetween, hlater⟩)
        · rintro (_ | ⟨hfirst, hlater⟩)
          obtain ⟨between, hbetween, hlater⟩ := (hrest _).mpr hlater
          exact ⟨between, ⟨_, hfirst, hbetween⟩, hlater⟩

theorem answers_executeCall {callee : SignatureId} {arguments : List Tree} {result : Option Tree}
    (harguments : ∀ argument ∈ arguments, program.Draws argument ∧
      argument.height ≤ program.chainBound)
    (hresult : ∀ place ∈ result, program.Draws place ∧ place.height ≤ program.chainBound)
    {signature : Signature} (hsignature : program.signature callee = .ok signature)
    {machine machine' : Machine} {answer : Unit} :
    Walk.Answers (program.executeCall callee (arguments.map Tree.id) (result.map Tree.id))
      machine answer machine' ↔ program.Calls callee arguments result machine machine' := by
  have hinputs : ∀ argument ∈ signature.inputs arguments,
      program.Evaluates program.evaluate argument := fun argument hargument =>
    let hargument := harguments argument (inputs_subset signature arguments hargument)
    evaluates_evaluate hargument.1 hargument.2
  -- The interpreter filters the pairs and evaluates their second parts, which are the inputs.
  have hvalues : ∀ {values between},
      Walk.Answers (((signature.params.zip (arguments.map Tree.id)).filter fun passed =>
        passed.1.mode != .output).mapM fun passed => program.evaluate passed.2)
        machine values between ↔
      program.lanesOf? machine (signature.inputs arguments) = some values ∧
        between = machine.sampled ((signature.inputs arguments).map Tree.samples).sum := by
    intro values between
    unfold lanesOf?
    rw [← answers_mapM_evaluate hinputs, ← inputs_map signature Tree.id arguments, Signature.inputs,
      List.mapM_map]
    rfl
  rw [executeCall, Walk.answers_liftCrash_bind hsignature]
  simp only [Walk.answers_bind, Walk.answers_get, Walk.answers_modify]
  have hstores := fun inputs sequence (later : List (Tree × Lanes)) (between : Machine) =>
    answers_storeWritten harguments signature.params (fun number ty =>
        (Seed.written callee inputs number sequence).lanes ty.flatLen) later 0 between machine'
  constructor
  · rintro ⟨inputs, _, hread, _, _, ⟨rfl, rfl⟩, _, _, rfl, _, between, hwritten, hplace⟩
    obtain ⟨hlanes, rfl⟩ := hvalues.mp hread
    refine ⟨signature, inputs, hsignature, hlanes,
      (hstores inputs machine.sequence _ _).mp ⟨between, hwritten, ?_⟩⟩
    cases result with
    | none =>
      obtain ⟨-, rfl⟩ := Walk.answers_pure.mp hplace
      exact .nil _
    | some place =>
      obtain ⟨hdraws, hheight⟩ := hresult place rfl
      exact .cons ((answers_store hdraws hheight).mp hplace) (.nil _)
  · rintro ⟨signature', inputs, hsignature', hlanes, hall⟩
    obtain rfl : signature = signature' := Except.ok.inj (hsignature.symm.trans hsignature')
    obtain ⟨between, hwritten, hlater⟩ := (hstores inputs machine.sequence _ _).mpr hall
    refine ⟨inputs, _, hvalues.mpr ⟨hlanes, rfl⟩, _, _, ⟨rfl, rfl⟩, ⟨⟩, _, rfl, ⟨⟩, between,
      hwritten, ?_⟩
    cases result with
    | none =>
      cases hlater
      exact Walk.answers_pure.mpr ⟨rfl, rfl⟩
    | some place =>
      obtain ⟨hdraws, hheight⟩ := hresult place rfl
      rcases hlater with _ | ⟨hfirst, ⟨⟩⟩
      exact (answers_store hdraws hheight).mpr hfirst

/-- The interpreter executes a statement as `Performs` says. -/
def Executes (program : Program) (statement : Tree) : Prop :=
  ∀ machine flow machine', Walk.Answers (program.execute statement.id) machine flow machine' ↔
    ∃ outcome, program.Performs statement machine outcome machine' ∧
      flow = outcome.flow statement.node

/-- The interpreter executes every sound statement as it should. -/
theorem executes_of_sound {statement : Tree} (hsound : program.Sound statement)
    (hdraws : program.Draws statement) (hheight : statement.height ≤ program.chainBound) :
    program.Executes statement := by
  intro machine flow machine'
  have hchild : ∀ child ∈ statement.children, program.Draws child ∧
      child.height ≤ program.chainBound := fun child hmem =>
    ⟨hdraws.child hmem, (Tree.height_lt_of_mem_children hmem).le.trans hheight⟩
  have hevaluates : ∀ child ∈ statement.children, program.Evaluates program.evaluate child :=
    fun child hmem => evaluates_evaluate (hchild child hmem).1 (hchild child hmem).2
  rw [execute, Walk.answers_liftCrash_bind hdraws.node_eq]
  cases hsound with
  | assign id target value mask hplace =>
    obtain ⟨htarget, htargetHeight⟩ := hchild target (by simp)
    simp only [Walk.answers_bind, hevaluates value (by simp) _ _ _,
      answers_store htarget htargetHeight, Walk.answers_pure]
    constructor
    · rintro ⟨lanes, _, ⟨hlanes, rfl⟩, _, _, hstore, rfl, rfl⟩
      exact ⟨.onward, ⟨rfl, lanes, hlanes, hstore⟩, rfl⟩
    · rintro ⟨_, ⟨rfl, lanes, hlanes, hstore⟩, rfl⟩
      exact ⟨lanes, _, ⟨hlanes, rfl⟩, ⟨⟩, _, hstore, rfl, rfl⟩
  | call id callee arguments result signature hsignature hlength hwritten hresult =>
    have hcall := fun between answer =>
      @answers_executeCall _ _ arguments result
        (fun argument hargument => hchild argument (by simp [hargument]))
        (fun place hplace => hchild place (by simp [Option.mem_def.mp hplace])) _ hsignature machine
        between answer
    simp only [Walk.answers_bind, hcall, Walk.answers_pure, performs_call]
    constructor
    · rintro ⟨_, _, hcalls, rfl, rfl⟩
      exact ⟨.onward, ⟨rfl, hcalls⟩, rfl⟩
    · rintro ⟨_, ⟨rfl, hcalls⟩, rfl⟩
      exact ⟨⟨⟩, _, hcalls, rfl, rfl⟩
  | branch id condition thenBody elseBody =>
    simp only [Walk.answers_bind, hevaluates condition (by simp) _ _ _, Walk.answers_pure]
    constructor
    · rintro ⟨lanes, _, ⟨hlanes, rfl⟩, rfl, rfl⟩
      exact ⟨_, ⟨lanes, hlanes, rfl, rfl⟩, rfl⟩
    · rintro ⟨_, ⟨lanes, hlanes, rfl, rfl⟩, rfl⟩
      exact ⟨lanes, _, ⟨hlanes, rfl⟩, rfl, rfl⟩
  | loop id body =>
    refine iff_of_false Walk.answers_throw ?_
    rintro ⟨_, hperforms, -⟩
    exact hperforms
  | ret id value =>
    cases value with
    | none =>
      simp only [Option.map_none, Option.toList_none, Walk.answers_bind, Walk.answers_forM_nil,
        Walk.answers_pure]
      constructor
      · rintro ⟨_, _, rfl, rfl, rfl⟩
        exact ⟨.stop, ⟨rfl, rfl, rfl⟩, rfl⟩
      · rintro ⟨_, ⟨rfl, -, rfl⟩, rfl⟩
        exact ⟨⟨⟩, _, rfl, rfl, rfl⟩
    | some value =>
      simp only [Option.map_some, Option.toList_some, Walk.answers_bind, Walk.answers_forM_cons,
        Walk.answers_forM_nil, hevaluates value (by simp) _ _ _, Walk.answers_pure]
      constructor
      · rintro ⟨_, _, ⟨_, ⟨lanes, _, ⟨hlanes, rfl⟩, -, rfl⟩, rfl⟩, rfl, rfl⟩
        exact ⟨.stop, ⟨rfl, by simp [lanesOf?, hlanes], by simp⟩, rfl⟩
      · rintro ⟨_, ⟨rfl, hsome, rfl⟩, rfl⟩
        obtain ⟨values, hvalues⟩ := Option.isSome_iff_exists.mp hsome
        obtain ⟨lanes, hlanes, rfl⟩ := lanesOf?_singleton_eq_some_iff.mp hvalues
        exact ⟨⟨⟩, _, ⟨_, ⟨lanes, _, ⟨hlanes, rfl⟩, trivial, rfl⟩, rfl⟩, rfl, by simp⟩
  | discard id condition =>
    cases condition with
    | none =>
      simp only [Option.map_none, pure_bind, if_true, Walk.answers_bind, Walk.answers_modify,
        Walk.answers_pure]
      constructor
      · rintro ⟨_, _, rfl, rfl, rfl⟩
        exact ⟨.stop, ⟨[], rfl, rfl, rfl⟩, rfl⟩
      · rintro ⟨_, ⟨_, ⟨⟩, rfl, rfl⟩, rfl⟩
        exact ⟨⟨⟩, _, rfl, rfl, rfl⟩
    | some condition =>
      simp only [Option.map_some, Walk.answers_bind, hevaluates condition (by simp) _ _ _,
        Walk.answers_pure]
      constructor
      · rintro ⟨lanes, _, ⟨hlanes, rfl⟩, _, _, ⟨rfl, rfl⟩, hflow⟩
        refine ⟨_, ⟨[lanes], lanesOf?_singleton_eq_some_iff.mpr ⟨lanes, hlanes, rfl⟩, rfl, ?_⟩, ?_⟩
        all_goals
          rw [fires_singleton]
          split at hflow
          · next hfires =>
            simp only [Walk.answers_bind, Walk.answers_modify, Walk.answers_pure] at hflow
            obtain ⟨_, _, rfl, rfl, rfl⟩ := hflow
            simp [hfires, Outcome.flow]
          · next hfires =>
            obtain ⟨rfl, rfl⟩ := Walk.answers_pure.mp hflow
            simp [hfires, Outcome.flow]
      · rintro ⟨_, ⟨values, hvalues, rfl, rfl⟩, rfl⟩
        obtain ⟨lanes, hlanes, rfl⟩ := lanesOf?_singleton_eq_some_iff.mp hvalues
        refine ⟨lanes, _, ⟨hlanes, rfl⟩, _, _, ⟨rfl, rfl⟩, ?_⟩
        rw [fires_singleton]
        split
        · simp [Outcome.flow]
        · simp [Outcome.flow]

/-! ### The interpreter on codes -/

theorem Outlines.executes {code : Code} (houtlines : program.Outlines code) :
    ∀ statement ∈ code.statements, program.Executes statement := by
  intro statement hmem
  have hdraws := houtlines.draws.statement statement hmem
  have hnodup : statement.ids.Nodup := houtlines.nodup.sublist
    (List.sublist_flatten_of_mem (List.mem_map_of_mem hmem))
  exact executes_of_sound (houtlines.sound statement hmem) hdraws
    ((hdraws.height_le hnodup).trans (Nat.le_succ _))

/-- The machine at the beginning of a run. -/
def initial (program : Program) (inputs : List (VarId × Lanes)) : Machine where
  slots := program.initialSlots inputs

theorem run_eq_ok_iff {inputs : List (VarId × Lanes)} {trace : Trace} :
    program.run inputs = .ok (.ok trace) ↔ ∃ machine,
      Walk.Answers (program.executeFor program.statementBound program.body) (program.initial inputs)
        () machine ∧ machine.trace = trace := by
  unfold run
  rw [bind_eq_ok_iff]
  constructor
  · rintro ⟨⟨outcome, machine⟩, hrun, htrace⟩
    cases outcome with
    | error failure => cases htrace
    | ok => exact ⟨machine, hrun, Except.ok.inj (Except.ok.inj htrace)⟩
  · rintro ⟨machine, hanswers, rfl⟩
    exact ⟨(.ok (), machine), hanswers, rfl⟩

end Program

end ShaderIR
