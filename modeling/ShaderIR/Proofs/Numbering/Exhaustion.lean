import ShaderIR.Proofs.Numbering.Keys
import ShaderIR.Proofs.Numbering.Safety

/-!
When numbering runs out of ids. As a relation (`NumbersStatements`) numbering does not ask whether
there are numbers left, so that sound statements which nest no deeper than the limit can always be
numbered. The walk makes the same numbering and ends with it, unless it has handed out more numbers
by then than there are (`NumberingWalk.Reaches`, `Program.exists_numbersStatements`).
-/

set_option autoImplicit false

namespace ShaderIR

/-! ### Walks that hand out numbers -/

namespace NumberingWalk

variable {α β : Type} {walk : NumberingWalk α} {start between stop : Numberer}

/-- The walk gives this answer and stops in this state, unless there are not enough numbers. -/
structure Reaches (walk : NumberingWalk α) (start : Numberer) (answer : α) (stop : Numberer) :
    Prop where
  allocated_le : start.numbering.allocated ≤ stop.numbering.allocated
  runFrom_eq : start.numbering.allocated ≤ IdAllocator.last → walk.runFrom start =
    if IdAllocator.last < stop.numbering.allocated then .error .idsExhausted
    else .ok (.ok answer, stop)

/-- A walk that hands out no numbers. -/
theorem reaches_of_answers {answer : α}
    (hsame : stop.numbering.allocated = start.numbering.allocated)
    (hanswers : Walk.Answers walk start answer stop) : Reaches walk start answer stop where
  allocated_le := hsame.ge
  runFrom_eq hlast := by
    rw [if_neg (Nat.not_lt.mpr (hsame.trans_le hlast))]
    exact hanswers

theorem reaches_pure (value : α) : Reaches (pure value) start value start :=
  reaches_of_answers rfl (Walk.answers_pure.mpr ⟨rfl, rfl⟩)

theorem reaches_liftCrash {request : Except Crash α}
    {answer : α} (hrequest : request = .ok answer) :
    Reaches (liftM request) start answer start :=
  reaches_of_answers rfl (Walk.answers_liftCrash.mpr ⟨hrequest, rfl⟩)

theorem reaches_modify {change : Numberer → Numberer}
    (hsame : (change start).numbering.allocated = start.numbering.allocated) :
    Reaches (modify change) start () (change start) :=
  reaches_of_answers hsame (Walk.answers_modify.mpr rfl)

theorem reaches_handOut {step : Numberer → α × Numberer}
    (hadvances : start.Advances (step start).2) :
    Reaches (handOut step) start (step start).1 (step start).2 :=
  ⟨hadvances.allocated_le, fun _ => runFrom_handOut⟩

/-- What has run out stays so. -/
theorem Reaches.bind {next : α → NumberingWalk β} {middle : α} {answer : β}
    (hwalk : Reaches walk start middle between)
    (hnext : Reaches (next middle) between answer stop) :
    Reaches (walk >>= next) start answer stop where
  allocated_le := hwalk.allocated_le.trans hnext.allocated_le
  runFrom_eq hlast := by
    change walk.runFrom start >>=
      (fun reached => (ExceptT.bindCont next reached.1).run reached.2) = _
    rw [hwalk.runFrom_eq hlast]
    by_cases hover : IdAllocator.last < between.numbering.allocated
    · rw [if_pos hover, if_pos (hover.trans_le hnext.allocated_le)]
      rfl
    · rw [if_neg hover]
      exact hnext.runFrom_eq (Nat.not_lt.mp hover)

theorem Reaches.forM_cons {item : α} {rest : List α} {step : α → NumberingWalk PUnit}
    (hfirst : Reaches (step item) start ⟨⟩ between)
    (hrest : Reaches (rest.forM step) between ⟨⟩ stop) :
    Reaches ((item :: rest).forM step) start ⟨⟩ stop :=
  hfirst.bind hrest

theorem Reaches.mapM_cons {item : α} {rest : List α} {step : α → NumberingWalk β} {first : β}
    {others : List β} (hfirst : Reaches (step item) start first between)
    (hrest : Reaches (rest.mapM step) between others stop) :
    Reaches ((item :: rest).mapM step) start (first :: others) stop := by
  rw [List.mapM_cons]
  exact hfirst.bind (hrest.bind (reaches_pure _))

end NumberingWalk

theorem Overwrites.append {program : Program} {eligible : NodeKinds} {start between stop : Numberer}
    {first more : List Tree} (hfirst : Overwrites program eligible start first between)
    (hmore : Overwrites program eligible between more stop) :
    Overwrites program eligible start (first ++ more) stop := by
  induction hfirst with
  | nil => exact hmore
  | cons hindices hroot hpart _ ih => exact .cons hindices hroot hpart (ih hmore)

namespace Program

open NumberingWalk

variable {program : Program} {config : Config} {eligible : NodeKinds} {budget : Nat} {tree : Tree}

/-! ### Operands -/

/-- An operand that nests no deeper than the budget. -/
structure Shallow (program : Program) (budget : Nat) (tree : Tree) : Prop where
  draws : program.Draws tree
  sound : program.SoundOperand tree
  height_le : tree.height ≤ budget

theorem Shallow.child (hshallow : program.Shallow (budget + 1) tree) {child : Tree}
    (hchild : child ∈ tree.children) : program.Shallow budget child where
  draws := hshallow.draws.child hchild
  sound := Lifted.soundOperand_of_mem_children hshallow.sound hchild
  height_le :=
    Nat.le_of_lt_succ ((Tree.height_lt_of_mem_children hchild).trans_le hshallow.height_le)

theorem not_shallow_zero : ¬ program.Shallow 0 tree :=
  fun hshallow => absurd hshallow.height_le (Nat.not_le.mpr tree.height_pos)

/-- A row of operands can be numbered if each of them can. -/
theorem exists_numbers_of_forall {step : NodeId → NumberingWalk Value} {trees : List Tree}
    (hstep : ∀ tree ∈ trees, ∀ start, ∃ value stop, Numbers eligible start [tree] [value] stop ∧
      Reaches (step tree.id) start value stop) (start : Numberer) :
    ∃ values stop, Numbers eligible start trees values stop ∧
      Reaches ((trees.map Tree.id).mapM step) start values stop := by
  induction trees generalizing start with
  | nil => exact ⟨[], start, .nil _, reaches_pure []⟩
  | cons tree trees ih =>
    obtain ⟨hfirst, hlater⟩ := List.forall_mem_cons.mp hstep
    obtain ⟨value, between, hvalue, hreaches⟩ := hfirst start
    obtain ⟨values, stop, hvalues, hrest⟩ := ih hlater between
    exact ⟨value :: values, stop, hvalue.append hvalues, hreaches.mapM_cons hrest⟩

theorem reaches_numberOf (key : Key) (start : Numberer) :
    Reaches (handOut fun numberer => numberer.numberOf key) start (start.numberOf key).1
      (start.numberOf key).2 :=
  ⟨(Numberer.Advances.numberOf start key).allocated_le, fun _ => runFrom_handOut⟩

theorem reaches_recordNumber (tree : Tree) (number : ValueNumber) (start : Numberer) :
    Reaches (recordNumber eligible tree.id tree.node number) start [number]
      (start.noted eligible tree number) := by
  refine reaches_of_answers ?_ ((answers_recordNumber tree).mpr ⟨rfl, rfl⟩)
  unfold Numberer.noted
  split <;> rfl

/-- Numbering an expression. -/
theorem exists_numbers (hshallow : program.Shallow budget tree) (start : Numberer) :
    ∃ value stop, Numbers eligible start [tree] [value] stop ∧
      Reaches (program.numberExpression eligible budget tree.id) start value stop := by
  induction budget generalizing tree start with
  | zero => exact absurd hshallow not_shallow_zero
  | succ budget ih =>
    have hoperand := (hshallow.sound tree tree.mem_subtrees_self).operand
    have hnode := hshallow.draws.node_eq
    have hids := hshallow.draws.children_eq
    have hchild : ∀ child ∈ tree.children, ∀ start, ∃ value stop,
        Numbers eligible start [child] [value] stop ∧
          Reaches (program.numberExpression eligible budget child.id) start value stop :=
      fun child hmem => ih (hshallow.child hmem)
    obtain ⟨id, node, children⟩ := tree
    have hfinish (key : Key) (hhead : node.head? = some key.head) {between : Numberer}
        (hnumbers : Numbers eligible start children key.operands between) :
        Numbers eligible start [⟨id, node, children⟩] [[(between.numberOf key).1]]
          ((between.numberOf key).2.noted eligible ⟨id, node, children⟩ (between.numberOf key).1) :=
      .compute key hhead hoperand hnumbers (.nil _)
    have hreaches (key : Key) (between : Numberer) : Reaches (do
        let number ← handOut fun numberer => numberer.numberOf key
        recordNumber eligible id node number) between _ _ :=
      (reaches_numberOf key between).bind (reaches_recordNumber ⟨id, node, children⟩ _ _)
    unfold numberExpression
    cases node with
    | constant value =>
      obtain rfl := Tree.eq_nil_of_ids hids
      exact ⟨_, _, hfinish (.constant value) rfl (.nil _),
        (reaches_liftCrash hnode).bind (hreaches _ _)⟩
    | «variable» read =>
      refine ⟨_, _, .read (.nil _), (reaches_liftCrash hnode).bind ?_⟩
      exact (reaches_handOut (.read start read)).bind ((reaches_modify rfl).bind (reaches_pure _))
    | index base place =>
      obtain ⟨base, place, rfl, rfl, rfl⟩ := Tree.exists_pair_of_ids hids
      obtain ⟨first, between, hbase, hreached⟩ := hchild base (by simp) start
      obtain ⟨second, stop, hplace, hreached'⟩ := hchild place (by simp) between
      exact ⟨_, _, hfinish (.index first second) rfl (hbase.append hplace),
        (reaches_liftCrash hnode).bind (hreached.bind (hreached'.bind (hreaches _ _)))⟩
    | field record number =>
      obtain ⟨record, rfl, rfl⟩ := Tree.exists_single_of_ids hids
      obtain ⟨value, between, hrecord, hreached⟩ := hchild record (by simp) start
      exact ⟨_, _, hfinish (.field value number) rfl hrecord,
        (reaches_liftCrash hnode).bind (hreached.bind (hreaches _ _))⟩
    | swizzle inner mask =>
      obtain ⟨inner, rfl, rfl⟩ := Tree.exists_single_of_ids hids
      obtain ⟨value, between, hinner, hreached⟩ := hchild inner (by simp) start
      exact ⟨_, _, hfinish (.swizzle value mask) rfl hinner,
        (reaches_liftCrash hnode).bind (hreached.bind (hreaches _ _))⟩
    | apply op operands ty =>
      obtain ⟨values, between, hvalues, hreached⟩ := exists_numbers_of_forall hchild start
      rw [← hids] at hreached
      exact ⟨_, _, hfinish (.apply op values) rfl hvalues,
        (reaches_liftCrash hnode).bind (hreached.bind (hreaches _ _))⟩
    | texture op channel operands ty =>
      obtain ⟨values, between, hvalues, hreached⟩ := exists_numbers_of_forall hchild start
      rw [← hids] at hreached
      exact ⟨_, _, hfinish (.texture ⟨op, channel, operands.packedShape, values⟩) rfl hvalues,
        (reaches_liftCrash hnode).bind (hreached.bind (hreaches _ _))⟩
    | _ => cases hoperand

/-- Numbering the indices in a place. -/
theorem exists_indices (hshallow : program.Shallow budget tree) (hplace : tree.isPlace = true)
    (start : Numberer) : ∃ values stop root, Numbers eligible start tree.indices values stop ∧
      tree.root? = some root ∧
      Reaches (program.numberPlace eligible budget tree.id) start root stop := by
  induction budget generalizing tree start with
  | zero => exact absurd hshallow not_shallow_zero
  | succ budget ih =>
    have hnode := hshallow.draws.node_eq
    have hids := hshallow.draws.children_eq
    have hbelow : ∀ child ∈ tree.children, program.Shallow budget child := fun _ => hshallow.child
    obtain ⟨id, node, children⟩ := tree
    unfold numberPlace
    rw [Tree.isPlace, Tree.fold_mk, ← Tree.isPlace] at hplace
    rw [Tree.root?, Tree.fold_mk, ← Tree.root?]
    cases node with
    | «variable» written =>
      refine ⟨[], start, written, ?_, rfl, (reaches_liftCrash hnode).bind (reaches_pure _)⟩
      rw [Tree.indices]
      · exact .nil _
      all_goals simp
    | index base place =>
      obtain ⟨base, place, rfl, rfl, rfl⟩ := Tree.exists_pair_of_ids hids
      obtain ⟨value, between, hvalue, hreached⟩ := exists_numbers (hbelow place (by simp)) start
      obtain ⟨values, stop, root, hindices, hroot, hreached'⟩ :=
        ih (hbelow base (by simp)) hplace between
      exact ⟨_, stop, root, hvalue.append hindices, hroot,
        (reaches_liftCrash hnode).bind (hreached.bind hreached')⟩
    | field record number =>
      obtain ⟨record, rfl, rfl⟩ := Tree.exists_single_of_ids hids
      obtain ⟨values, stop, root, hindices, hroot, hreached⟩ :=
        ih (hbelow record (by simp)) hplace start
      exact ⟨values, stop, root, hindices, hroot, (reaches_liftCrash hnode).bind hreached⟩
    | _ => cases hplace

/-- Storing a value through a place. -/
theorem exists_stored {target : Tree} (hshallow : program.Shallow config.maxDepth target)
    (hplace : target.isPlace = true) (mask : UInt8) (start : Numberer) :
    ∃ indices between root part, Numbers config.eligible start target.indices indices between ∧
      target.root? = some root ∧ program.isPartialWrite target.id mask = .ok part ∧
      ∀ value, Reaches (program.numberStore config target.id mask value) start ()
        (between.write part root value) := by
  obtain ⟨indices, between, root, hindices, hroot, hreached⟩ := exists_indices hshallow hplace start
  obtain ⟨part, hpart⟩ := exists_isPartialWrite hshallow.draws hshallow.sound mask
  refine ⟨indices, between, root, part, hindices, hroot, hpart, fun value => ?_⟩
  unfold numberStore Numberer.write
  refine hreached.bind ((reaches_liftCrash hpart).bind ?_)
  split
  · have hadvances : between.Advances (between.writePart root value) :=
      .write between true root value
    exact reaches_handOut hadvances
  · exact reaches_modify rfl

/-! ### Statements -/

/-- Storing new values through places. -/
theorem exists_overwrites {target : Tree} (hshallow : program.Shallow config.maxDepth target)
    (hplace : target.isPlace = true) (start : Numberer) :
    ∃ stop, Overwrites program config.eligible start [target] stop ∧ Reaches (do
      let number ← handOut Numberer.fresh
      program.numberStore config target.id 0 [number]) start () stop := by
  obtain ⟨indices, between, root, part, hindices, hroot, hpart, hreached⟩ :=
    exists_stored hshallow hplace 0 start.fresh.2
  exact ⟨_, .cons hindices hroot hpart (.nil _), (reaches_handOut (.fresh start)).bind (hreached _)⟩

/-- Numbering the arguments that a call reads. -/
theorem exists_inputs {passed : List (Param × Tree)}
    (hpassed : ∀ argument ∈ passed, program.Shallow config.maxDepth argument.2) (start : Numberer) :
    ∃ values stop, Numbers config.eligible start
        ((passed.filter fun argument => argument.1.mode = .input).map Prod.snd) values stop ∧
      Reaches ((passed.map fun argument => (argument.1, argument.2.id)).forM
        fun (param, argument) => do
          if param.mode = .input then
            let _ ← program.numberExpression config.eligible config.maxDepth argument)
        start () stop := by
  induction passed generalizing start with
  | nil => exact ⟨[], start, .nil _, reaches_pure _⟩
  | cons first rest ih =>
    obtain ⟨hfirst, hlater⟩ := List.forall_mem_cons.mp hpassed
    obtain ⟨param, argument⟩ := first
    by_cases hmode : param.mode = .input
    · obtain ⟨value, between, hvalue, hreached⟩ := exists_numbers hfirst start
      obtain ⟨values, stop, hvalues, hrest⟩ := ih hlater between
      refine ⟨value :: values, stop, ?_, .forM_cons ?_ hrest⟩
      · rw [List.filter_cons_of_pos (by simpa using hmode), List.map_cons]
        exact hvalue.append hvalues
      · dsimp only
        rw [if_pos hmode]
        exact hreached.bind (reaches_pure _)
    · obtain ⟨values, stop, hvalues, hrest⟩ := ih hlater start
      refine ⟨values, stop, ?_, .forM_cons ?_ hrest⟩
      · rwa [List.filter_cons_of_neg (by simpa using hmode)]
      · dsimp only
        rw [if_neg hmode]
        exact reaches_pure _

/-- Storing new values through the arguments that a call writes. -/
theorem exists_outputs {passed : List (Param × Tree)}
    (hpassed : ∀ argument ∈ passed, program.Shallow config.maxDepth argument.2 ∧
      (argument.1.mode.writes = true → argument.2.isPlace = true)) (start : Numberer) :
    ∃ stop, Overwrites program config.eligible start
        ((passed.filter fun argument => argument.1.mode.writes).map Prod.snd) stop ∧
      Reaches ((passed.map fun argument => (argument.1, argument.2.id)).forM
        fun (param, argument) => do
          if param.mode.writes then
            let number ← handOut Numberer.fresh
            program.numberStore config argument 0 [number]) start () stop := by
  induction passed generalizing start with
  | nil => exact ⟨start, .nil _, reaches_pure _⟩
  | cons first rest ih =>
    obtain ⟨⟨hfirst, hplace⟩, hlater⟩ := List.forall_mem_cons.mp hpassed
    obtain ⟨param, argument⟩ := first
    by_cases hmode : param.mode.writes = true
    · obtain ⟨between, hwrites, hreached⟩ := exists_overwrites hfirst (hplace hmode) start
      obtain ⟨stop, hlater, hrest⟩ := ih hlater between
      refine ⟨stop, ?_, .forM_cons ?_ hrest⟩
      · rw [List.filter_cons_of_pos (by simpa using hmode), List.map_cons]
        exact hwrites.append hlater
      · dsimp only
        rw [if_pos hmode]
        exact hreached
    · obtain ⟨stop, hlater, hrest⟩ := ih hlater start
      refine ⟨stop, ?_, .forM_cons ?_ hrest⟩
      · rwa [List.filter_cons_of_neg (by simpa using hmode)]
      · dsimp only
        rw [if_neg hmode]
        exact reaches_pure _

/-- A call that leaves its arguments alone. -/
theorem exists_pureCall {id : NodeId} {callee : SignatureId} {signature : Signature}
    {arguments : List Tree} {result : Option Tree}
    (hsignature : program.signature callee = .ok signature) (hpure : signature.isPure = true)
    (harguments : ∀ argument ∈ arguments, program.Shallow config.maxDepth argument)
    (hresult : ∀ target ∈ result, program.Shallow config.maxDepth target ∧ target.isPlace = true)
    (start : Numberer) : ∃ stop, NumbersStatement program config.eligible start
        ⟨id, .call callee (arguments.map Tree.id) (result.map Tree.id), arguments ++ result.toList⟩
        stop ∧
      Reaches (program.numberPureCall config id
        (.call callee (arguments.map Tree.id) (result.map Tree.id)) callee (arguments.map Tree.id)
        (result.map Tree.id)) start () stop := by
  obtain ⟨values, called, hvalues, hreached⟩ :=
    exists_numbers_of_forall (fun argument hmem => exists_numbers (harguments argument hmem)) start
  have hcounted := reaches_numberOf (.call callee values) called
  unfold numberPureCall
  cases result with
  | none =>
    have hdropped : NumbersStatement program config.eligible start
        ⟨id, .call callee (arguments.map Tree.id) none, arguments⟩ _ :=
      .dropped hsignature hpure hvalues
    exact ⟨_, by simpa using hdropped, hreached.bind (hcounted.bind (reaches_modify rfl))⟩
  | some target =>
    obtain ⟨htarget, hplace⟩ := hresult target rfl
    obtain ⟨indices, between, root, part, hindices, hroot, hpart, hstored⟩ :=
      exists_stored htarget hplace 0 ((called.numberOf (.call callee values)).2.noted
        config.eligible ⟨id, .call callee (arguments.map Tree.id) (some target.id),
          arguments ++ [target]⟩ (called.numberOf (.call callee values)).1)
    exact ⟨_, .stored hsignature hpure hvalues hindices hroot hpart, hreached.bind
      (hcounted.bind ((reaches_recordNumber ⟨id, _, _⟩ _ _).bind (hstored _)))⟩

/-- A call that writes some of its arguments. -/
theorem exists_effectfulCall {id : NodeId} {callee : SignatureId} {signature : Signature}
    {arguments : List Tree} {result : Option Tree}
    (hsignature : program.signature callee = .ok signature) (hpure : signature.isPure = false)
    (hpassed : ∀ passed ∈ signature.params.zip arguments, program.Shallow config.maxDepth passed.2 ∧
      (passed.1.mode.writes = true → passed.2.isPlace = true))
    (hresult : ∀ target ∈ result, program.Shallow config.maxDepth target ∧ target.isPlace = true)
    (start : Numberer) : ∃ stop, NumbersStatement program config.eligible start
        ⟨id, .call callee (arguments.map Tree.id) (result.map Tree.id), arguments ++ result.toList⟩
        stop ∧
      Reaches (program.numberEffectfulCall config id (signature.params.zip (arguments.map Tree.id))
        (result.map Tree.id)) start () stop := by
  have hzip : signature.params.zip (arguments.map Tree.id) =
      (signature.params.zip arguments).map fun passed => (passed.1, passed.2.id) := by
    rw [List.zip_map_right]
    rfl
  obtain ⟨values, called, hinputs, hread⟩ :=
    exists_inputs (fun passed hmem => (hpassed passed hmem).1) start
  obtain ⟨overwritten, houtputs, hwritten⟩ := exists_outputs hpassed called
  unfold numberEffectfulCall
  rw [hzip]
  cases result with
  | none =>
    exact ⟨_, .effectful hsignature hpure hinputs houtputs (.nil _), hread.bind (hwritten.bind
      ((reaches_handOut (.fresh overwritten)).bind ((reaches_modify rfl).bind (reaches_pure _))))⟩
  | some target =>
    obtain ⟨htarget, hplace⟩ := hresult target rfl
    obtain ⟨stop, hstored, hreached⟩ := exists_overwrites htarget hplace
      (overwritten.fresh.2.setValue id [overwritten.fresh.1])
    exact ⟨stop, .effectful hsignature hpure hinputs houtputs hstored, hread.bind (hwritten.bind
      ((reaches_handOut (.fresh overwritten)).bind ((reaches_modify rfl).bind hreached)))⟩

/-- Numbering a statement. -/
theorem exists_numbersStatement {statement : Tree} (hdraws : program.Draws statement)
    (hsound : program.Sound statement)
    (hoperands : ∀ operand ∈ statement.children, program.Shallow config.maxDepth operand)
    (start : Numberer) : ∃ stop, NumbersStatement program config.eligible start statement stop ∧
      Reaches (program.numberStatement config statement.id) start () stop := by
  have hnode := hdraws.node_eq
  have hreads {operand : Tree} (hshallow : program.Shallow config.maxDepth operand) :
      ∃ value stop, Numbers config.eligible start [operand] [value] stop ∧ Reaches (do
        let _ ← program.numberExpression config.eligible config.maxDepth operand.id) start
            () stop := by
    obtain ⟨value, stop, hvalue, hreached⟩ := exists_numbers hshallow start
    exact ⟨value, stop, hvalue, hreached.bind (reaches_pure _)⟩
  unfold numberStatement
  cases hsound with
  | assign id target value mask hplace =>
    obtain ⟨stored, valued, hvalue, hreached⟩ := exists_numbers (hoperands value (by simp)) start
    obtain ⟨indices, between, root, part, hindices, hroot, hpart, hstored⟩ :=
      exists_stored (hoperands target (by simp)) hplace mask valued
    exact ⟨_, .assign hvalue hindices hroot hpart,
      (reaches_liftCrash hnode).bind (hreached.bind (hstored _))⟩
  | call id callee arguments result signature hsignature hlength hwritten hresult =>
    have hstored :
        ∀ target ∈ result, program.Shallow config.maxDepth target ∧ target.isPlace = true :=
      fun target hmem => ⟨hoperands target (List.mem_append_right _ (Option.mem_toList.mpr hmem)),
        hresult target hmem⟩
    have harguments : ∀ argument ∈ arguments, program.Shallow config.maxDepth argument :=
      fun argument hmem => hoperands argument (List.mem_append_left _ hmem)
    cases hpure : signature.isPure with
    | true =>
      obtain ⟨stop, hcall, hreached⟩ := exists_pureCall hsignature hpure harguments hstored start
      refine ⟨stop, hcall, (reaches_liftCrash hnode).bind ((reaches_liftCrash hsignature).bind ?_)⟩
      rw [if_pos hpure]
      exact hreached
    | false =>
      obtain ⟨stop, hcall, hreached⟩ := exists_effectfulCall hsignature hpure (fun passed hmem =>
        ⟨harguments passed.2 (List.of_mem_zip hmem).2,
          hwritten passed.1 passed.2 hmem⟩) hstored start
      refine ⟨stop, hcall, (reaches_liftCrash hnode).bind ((reaches_liftCrash hsignature).bind ?_)⟩
      rw [hpure, if_neg Bool.false_ne_true]
      exact hreached
  | branch id condition thenBody elseBody =>
    obtain ⟨value, stop, hvalue, hreached⟩ := hreads (hoperands condition (by simp))
    exact ⟨stop, .operands (by simp [Node.kind]) hvalue, (reaches_liftCrash hnode).bind hreached⟩
  | loop id body =>
    exact ⟨start, .operands (by simp [Node.kind]) (.nil _),
      (reaches_liftCrash hnode).bind (reaches_pure _)⟩
  | ret id operand | discard id operand =>
    cases operand with
    | none =>
      exact ⟨start, .operands (by simp [Node.kind]) (.nil _),
        (reaches_liftCrash hnode).bind (reaches_pure _)⟩
    | some operand =>
      obtain ⟨value, stop, hvalue, hreached⟩ := hreads (hoperands operand (by simp))
      have hrow : Reaches ([operand.id].forM fun operand => do
          let _ ← program.numberExpression config.eligible config.maxDepth operand) start () stop :=
        .forM_cons hreached (reaches_pure _)
      exact ⟨stop, .operands (by simp [Node.kind]) hvalue, (reaches_liftCrash hnode).bind hrow⟩

/-! ### Blocks -/

variable {statements : List Tree}

/-- Sound statements whose operands are not too high are numbered if the numbers last. If not, the
walk runs out of them. -/
theorem exists_numbersStatements (hdraws : ∀ statement ∈ statements, program.Draws statement)
    (hsound : ∀ statement ∈ statements, program.Sound statement)
    (hoperands : ∀ statement ∈ statements, ∀ operand ∈ statement.children,
      program.Shallow config.maxDepth operand) (start : Numberer) :
    ∃ stop, NumbersStatements program config.eligible start statements stop ∧
      Reaches ((statements.map Tree.id).forM (program.numberStatement config)) start () stop := by
  induction statements generalizing start with
  | nil => exact ⟨start, .nil _, reaches_pure _⟩
  | cons statement rest ih =>
    rw [List.forall_mem_cons] at hdraws hsound hoperands
    obtain ⟨between, hfirst, hreached⟩ :=
      exists_numbersStatement hdraws.1 hsound.1 hoperands.1 start
    obtain ⟨stop, hrest, hreached'⟩ := ih hdraws.2 hsound.2 hoperands.2 between
    exact ⟨stop, .cons hfirst hrest, hreached.forM_cons hreached'⟩

theorem exists_numbersStatements_of_height_le
    (hdraws : ∀ statement ∈ statements, program.Draws statement)
    (hsound : ∀ statement ∈ statements, program.Sound statement)
    (hoperands : ∀ statement ∈ statements, ∀ operand ∈ statement.children,
      program.SoundOperand operand)
    (hfits : ∀ statement ∈ statements, ∀ operand ∈ statement.children,
      operand.height ≤ config.maxDepth) : ∃ final,
        NumbersStatements program config.eligible {} statements final ∧
        (program.numberStatements (statements.map Tree.id) config).run =
          if IdAllocator.last < final.numbering.allocated then .error .idsExhausted
          else .ok (.ok final.numbering) := by
  obtain ⟨final, hnumbers, hreached⟩ := exists_numbersStatements hdraws hsound
    (fun statement hmem operand hchild => ⟨(hdraws statement hmem).child hchild,
      hoperands statement hmem operand hchild, hfits statement hmem operand hchild⟩) {}
  refine ⟨final, hnumbers, ?_⟩
  unfold numberStatements
  dsimp only
  rw [hreached.runFrom_eq (Nat.zero_le _)]
  split <;> rfl

end Program

end ShaderIR
