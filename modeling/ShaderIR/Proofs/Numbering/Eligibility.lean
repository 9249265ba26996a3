import ShaderIR.Proofs.Numbering.Depth
import ShaderIR.Proofs.Numbering.Keys

/-!
Which kinds of nodes may be shared has no influence on numbering. A walk mirrors another one
(`Walk.Mirrors`) if it does from what is seen of a state whatever the other one does from the state
itself. With one set of kinds every part of numbering mirrors the same part with all kinds, as far
as the occurrences of other kinds are left out of sight (`Program.mirrors_numberStatement`). So two
sets of kinds lead to the same numbering but for the occurrences, which are the same for a number
whose nodes are of a kind in both sets (`Program.eligibility_of_numberStatements`).
-/

set_option autoImplicit false

namespace ShaderIR

variable {ε σ α β : Type}

/-! ### Walks that mirror others -/

namespace Walk

/-- The second walk does from what is seen of the state what the first one does from the state
itself, which keeps an invariant however it ends. -/
def Mirrors (view : σ → σ) (invariant : σ → Prop) (start : σ) (walk walk' : Walk ε σ α) : Prop :=
  walk'.runFrom (view start) = (walk.runFrom start).map
    (fun reached => (reached.1, view reached.2)) ∧
    Ensures walk start (fun _ => invariant) fun _ => invariant

variable {view : σ → σ} {invariant : σ → Prop} {start : σ} {walk walk' : Walk ε σ α}

theorem mirrors_pure {value : α} (hstart : invariant start) :
    Mirrors view invariant start (pure value : Walk ε σ α) (pure value) :=
  ⟨rfl, hstart⟩

theorem mirrors_throw {failure : ε} (hstart : invariant start) :
    Mirrors view invariant start (throw failure : Walk ε σ α) (throw failure) :=
  ⟨rfl, hstart⟩

theorem mirrors_modify {change change' : σ → σ} (hview : change' (view start) = view (change start))
    (hkept : invariant (change start)) :
    Mirrors view invariant start (modify change : Walk ε σ PUnit) (modify change') := by
  refine ⟨?_, hkept⟩
  change (Except.ok (Except.ok PUnit.unit, change' (view start)) : Except Crash
    (Except ε PUnit × σ)) = _
  rw [hview]
  rfl

theorem mirrors_liftCrash {request : Except Crash α} (hstart : invariant start) :
    Mirrors view invariant start (liftM request : Walk ε σ α) (liftM request) := by
  cases request with
  | error cause => exact ⟨rfl, trivial⟩
  | ok answer => exact ⟨rfl, hstart⟩

theorem Mirrors.bind {next next' : α → Walk ε σ β} (hwalk : Mirrors view invariant start walk walk')
    (hnext : ∀ answer between, Answers walk start answer between → invariant between →
      Mirrors view invariant between (next answer) (next' answer)) :
    Mirrors view invariant start (walk >>= next) (walk' >>= next') := by
  obtain ⟨hrun, hkept⟩ := hwalk
  have hafter : ∀ answer between, Answers walk start answer between →
      Mirrors view invariant between (next answer) (next' answer) :=
    fun answer between hanswers => hnext answer between hanswers (hkept.of_answers hanswers)
  refine ⟨?_, ensures_bind.mpr (ensures_iff.mpr ⟨fun answer between hanswers =>
        (hafter answer between hanswers).2, fun failure stop hfails => hkept.of_fails hfails⟩)⟩
  change walk'.runFrom (view start) >>=
    (fun reached => (ExceptT.bindCont next' reached.1).run reached.2) =
    (walk.runFrom start >>= fun reached => (ExceptT.bindCont next reached.1).run reached.2).map
      fun reached => (reached.1, view reached.2)
  rw [hrun]
  cases hfirst : walk.runFrom start with
  | error cause => rfl
  | ok reached =>
    obtain ⟨_ | answer, between⟩ := reached
    · rfl
    · exact (hafter answer between hfirst).1

/-! ### Rows -/

theorem mirrors_mapM {step step' : α → Walk ε σ β}
    (hstep : ∀ item state, invariant state → Mirrors view invariant state (step item) (step' item))
    (items : List α) (hstart : invariant start) :
    Mirrors view invariant start (items.mapM step) (items.mapM step') := by
  induction items generalizing start with
  | nil => exact mirrors_pure hstart
  | cons first rest ih =>
    rw [List.mapM_cons, List.mapM_cons]
    exact (hstep first start hstart).bind fun _ between _ hbetween =>
      (ih hbetween).bind fun _ _ _ hstop => mirrors_pure hstop

theorem mirrors_forM {step step' : α → Walk ε σ PUnit}
    (hstep : ∀ item state, invariant state → Mirrors view invariant state (step item) (step' item))
    (items : List α) (hstart : invariant start) :
    Mirrors view invariant start (items.forM step) (items.forM step') := by
  induction items generalizing start with
  | nil => exact mirrors_pure hstart
  | cons first rest ih => exact (hstep first start hstart).bind fun _ _ _ hbetween => ih hbetween

end Walk

/-! ### Occurrences of some kinds -/

/-- Whatever is in a set of kinds is in the set of all of them. -/
theorem NodeKinds.contains_all {kinds : NodeKinds}
    {kind : NodeKind} (hkind : kinds.contains kind = true) :
    all.contains kind = true := by
  cases kind <;> first | rfl | cases hkind

/-- Whether a node is of one of these kinds. -/
def Program.admits (program : Program) (kinds : NodeKinds) (id : NodeId) : Bool :=
  match program.node id with
  | .ok node => kinds.contains node.kind
  | .error _ => false

theorem Program.admits_of_node {program : Program} {kinds : NodeKinds} {id : NodeId} {node : Node}
    (hnode : program.node id = .ok node) : program.admits kinds id = kinds.contains node.kind := by
  rw [admits, hnode]

/-- The numbering without the occurrences of other kinds. -/
def Numbering.restrict (numbering : Numbering) (program : Program) (kinds : NodeKinds) :
    Numbering :=
  { numbering with occurrences :=
    numbering.occurrences.filter fun occurrence => program.admits kinds occurrence.1 }

/-- The kind of the nodes that compute a key. -/
def Key.kind : Key → NodeKind
  | .constant _ => .constant
  | .index .. | .field .. => .deref
  | .swizzle .. => .swizzle
  | .apply .. => .expression
  | .texture .. => .texture
  | .call .. => .call

namespace Numberer

variable {program : Program} {kinds : NodeKinds} {state stop : Numberer}

/-- What is seen of a state when the occurrences of other kinds are left out. -/
def restrict (program : Program) (kinds : NodeKinds) (numberer : Numberer) : Numberer :=
  { numberer with numbering := numberer.numbering.restrict program kinds }

/-- Every occurrence is of the kind that the key of its number says. -/
structure Sorted (program : Program) (numberer : Numberer) : Prop where
  keyed : numberer.Keyed
  sorted : ∀ id number, (id, number) ∈ numberer.numbering.occurrences →
    ∃ key node, (key, number) ∈ numberer.table ∧ program.node id = .ok node ∧ node.kind = key.kind

theorem sorted_nil : Sorted program {} :=
  ⟨keyed_nil, fun _ _ hmem => (List.not_mem_nil hmem).elim⟩

/-- A step that notes no node keeps the occurrences sorted. -/
theorem Sorted.of_advances (hsorted : state.Sorted program) (hadvances : state.Advances stop)
    (hsame : stop.numbering.occurrences = state.numbering.occurrences) : stop.Sorted program where
  keyed := hadvances.keyed hsorted.keyed
  sorted id number hmem := by
    rw [hsame] at hmem
    obtain ⟨key, node, hentry, hnode, hkind⟩ := hsorted.sorted id number hmem
    exact ⟨key, node, hadvances.table_subset hentry, hnode, hkind⟩

/-- Occurrences of one number are of one kind. -/
theorem Sorted.kind_eq (hsorted : state.Sorted program) {id id' : NodeId} {number : ValueNumber}
    (hmem : (id, number) ∈ state.numbering.occurrences)
    (hmem' : (id', number) ∈ state.numbering.occurrences)
    (kinds : NodeKinds) : program.admits kinds id = program.admits kinds id' := by
  obtain ⟨key, node, hentry, hnode, hkind⟩ := hsorted.sorted id number hmem
  obtain ⟨key', node', hentry', hnode', hkind'⟩ := hsorted.sorted id' number hmem'
  obtain rfl := hsorted.keyed.injective key key' number hentry hentry'
  rw [Program.admits_of_node hnode, Program.admits_of_node hnode', hkind, hkind']

/-! What is out of sight has no part in handing out numbers. -/

theorem numberOf_restrict (state : Numberer) (key : Key) :
    (state.restrict program kinds).numberOf key =
      ((state.numberOf key).1, (state.numberOf key).2.restrict program kinds) := by
  unfold numberOf
  cases hlookup : state.tables.lookup key with
  | none => simp only [restrict, hlookup]; rfl
  | some number => simp only [restrict, hlookup]

theorem history_restrict (state : Numberer) (id : VarId) :
    (state.restrict program kinds).history id =
      ((state.history id).1, (state.history id).2.restrict program kinds) := by
  unfold history
  rcases hlookup :
    state.histories.lookup id with _ | _ | _ <;> simp only [restrict, hlookup] <;> rfl

theorem read_restrict (state : Numberer) (id : VarId) : (state.restrict program kinds).read id =
    ((state.read id).1, (state.read id).2.restrict program kinds) := by
  rw [read, history_restrict]
  rfl

theorem writePart_restrict (state : Numberer) (id : VarId) (value : Value) :
    (state.restrict program kinds).writePart id value =
      (state.writePart id value).restrict program kinds := by
  rw [writePart_eq, writePart_eq]
  change (((state.taint value).restrict program kinds).history id).2.addLayer id
    (((state.taint value).restrict program kinds).history id).1 = _
  rw [history_restrict]
  rfl

end Numberer

/-! ### Numbering under a set of kinds -/

namespace Program

open Numberer NumberingWalk

variable {program : Program} {kinds : NodeKinds} {limit budget : Nat} {id : NodeId} {node : Node}
  {state : Numberer}

/-- The occurrences of other kinds are out of sight. -/
abbrev Restricts {α : Type} (program : Program) (kinds : NodeKinds) (start : Numberer)
    (walk walk' : NumberingWalk α) : Prop :=
  Walk.Mirrors (Numberer.restrict program kinds) (Sorted program) start walk walk'

/-- Occurrences are not needed to hand out numbers. -/
theorem mirrors_handOut {α : Type} {step : Numberer → α × Numberer}
    (hview : step (state.restrict program kinds) =
      ((step state).1, (step state).2.restrict program kinds))
    (hkept : (step state).2.Sorted program) :
    program.Restricts kinds state (handOut step) (handOut step) := by
  refine ⟨?_, ensures_handOut.mpr fun _ => hkept⟩
  rw [runFrom_handOut, runFrom_handOut, hview]
  change (if IdAllocator.last < (step state).2.numbering.allocated then _ else _) = _
  split <;> rfl

theorem recordNumber_eq (eligible : NodeKinds) (id : NodeId) (node : Node) (number : ValueNumber) :
    recordNumber eligible id node number = (do
      modify fun numberer =>
        (if eligible.contains node.kind then numberer.addOccurrence id number
          else numberer).setValue id [number]
      return [number]) := by
  unfold recordNumber
  split <;> rfl

/-- A node of the kind of a key gets the number of the key. -/
theorem mirrors_recordNumber {key : Key} {number : ValueNumber} (hnode : program.node id = .ok node)
    (hkind : node.kind = key.kind) (hentry : (key, number) ∈ state.table)
    (hstate : state.Sorted program) :
    program.Restricts kinds state (recordNumber .all id node number)
      (recordNumber kinds id node number) := by
  rw [recordNumber_eq, recordNumber_eq]
  refine Walk.Mirrors.bind (Walk.mirrors_modify ?_ ?_) fun _ _ _ hstop => Walk.mirrors_pure hstop
  · have hadmits : program.admits kinds id = kinds.contains node.kind := admits_of_node hnode
    cases hcontains : kinds.contains node.kind with
    | true =>
      rw [if_pos rfl, if_pos (NodeKinds.contains_all hcontains)]
      simp [restrict, Numbering.restrict, addOccurrence, setValue, hadmits, hcontains]
    | false =>
      rw [if_neg Bool.false_ne_true]
      split <;> simp [restrict, Numbering.restrict, addOccurrence, setValue, hadmits, hcontains]
  · refine Sorted.of_advances ?_ (.setValue _ id [number]) rfl
    split
    · have hadvances : state.Advances (state.addOccurrence id number) :=
        .of_table le_rfl rfl (List.subset_append_left _ _)
      refine ⟨hadvances.keyed hstate.keyed, fun other found hmem => ?_⟩
      rcases List.mem_append.mp hmem with hold | hnew
      · exact hstate.sorted other found hold
      · obtain ⟨rfl, rfl⟩ := Prod.mk.inj (List.mem_singleton.mp hnew)
        exact ⟨key, node, hentry, hnode, hkind⟩
    · exact hstate

/-- A node is numbered by its key. -/
theorem mirrors_finish {key : Key} (hnode : program.node id = .ok node)
    (hkind : node.kind = key.kind)
    (hstate : state.Sorted program) : program.Restricts kinds state
      (do let number ← handOut fun numberer => numberer.numberOf key
          recordNumber .all id node number)
      (do let number ← handOut fun numberer => numberer.numberOf key
          recordNumber kinds id node number) := by
  refine Walk.Mirrors.bind (mirrors_handOut (numberOf_restrict state key) ?_)
    fun number between hnumber hbetween => ?_
  · exact hstate.of_advances (.numberOf _ _) (occurrences_numberOf key)
  · obtain ⟨rfl, rfl⟩ := Prod.mk.inj (answers_handOut.mp hnumber).1
    exact mirrors_recordNumber hnode hkind (state.numberOf_mem key) hbetween

theorem mirrors_numberExpression (hstate : state.Sorted program) : program.Restricts kinds state
    (program.numberExpression .all budget id) (program.numberExpression kinds budget id) := by
  induction budget generalizing id state with
  | zero => exact Walk.mirrors_throw hstate
  | succ budget ih =>
    unfold numberExpression
    refine Walk.Mirrors.bind (Walk.mirrors_liftCrash hstate) fun node between hfound hstate => ?_
    obtain ⟨hnode, rfl⟩ := Walk.answers_liftCrash.mp hfound
    have hstep (operand : NodeId) (state : Numberer) (hstate : state.Sorted program) :=
      @ih operand state hstate
    cases node with
    | constant value => exact mirrors_finish hnode rfl hstate
    | «variable» read =>
      refine Walk.Mirrors.bind (mirrors_handOut (read_restrict state read) ?_)
        fun value between _ hstate => ?_
      · exact hstate.of_advances (.read _ _) (occurrences_read read)
      · refine Walk.Mirrors.bind (Walk.mirrors_modify ?_ ?_) fun _ _ _ hstop =>
          Walk.mirrors_pure hstop
        · rfl
        · exact hstate.of_advances (.setValue _ _ _) rfl
    | index base place =>
      exact (ih hstate).bind fun _ _ _ hstate => (ih hstate).bind fun _ _ _ hstate =>
        mirrors_finish hnode rfl hstate
    | field | swizzle => exact (ih hstate).bind fun _ _ _ hstate => mirrors_finish hnode rfl hstate
    | apply op operands ty =>
      exact (Walk.mirrors_mapM hstep operands hstate).bind fun _ _ _ hstate =>
        mirrors_finish hnode rfl hstate
    | texture op channel operands ty =>
      exact (Walk.mirrors_mapM hstep operands.toList hstate).bind fun _ _ _ hstate =>
        mirrors_finish hnode rfl hstate
    | _ => exact Walk.mirrors_throw hstate

theorem mirrors_numberPlace (hstate : state.Sorted program) : program.Restricts kinds state
    (program.numberPlace .all budget id) (program.numberPlace kinds budget id) := by
  induction budget generalizing id state with
  | zero => exact Walk.mirrors_throw hstate
  | succ budget ih =>
    unfold numberPlace
    refine Walk.Mirrors.bind (Walk.mirrors_liftCrash hstate) fun node _ _ hstate => ?_
    cases node with
    | «variable» written => exact Walk.mirrors_pure hstate
    | index base place => exact (mirrors_numberExpression hstate).bind fun _ _ _ hstate => ih hstate
    | field record number => exact ih hstate
    | _ => exact Walk.mirrors_throw hstate

theorem mirrors_numberStore {target : NodeId} {mask : UInt8}
    {value : Value} (hstate : state.Sorted program) :
    program.Restricts kinds state (program.numberStore ⟨.all, limit⟩ target mask value)
      (program.numberStore ⟨kinds, limit⟩ target mask value) := by
  refine (mirrors_numberPlace hstate).bind fun written _ _ hstate => ?_
  refine (Walk.mirrors_liftCrash hstate).bind fun part between _ hstate => ?_
  split
  · exact mirrors_handOut (congrArg (Prod.mk ()) (writePart_restrict between written value))
      (hstate.of_advances (.write between true written value) (occurrences_writePart written value))
  · refine Walk.mirrors_modify ?_ ?_
    · rfl
    · exact hstate.of_advances (.write between false written value) rfl

/-! ### Statements -/

/-- A new number is stored. -/
theorem mirrors_storeFresh {target : NodeId} (hstate : state.Sorted program) :
    program.Restricts kinds state
      (do let number ← handOut Numberer.fresh; program.numberStore ⟨.all, limit⟩ target 0 [number])
      (do let number ← handOut Numberer.fresh; program.numberStore ⟨kinds,
        limit⟩ target 0 [number]) := by
  refine Walk.Mirrors.bind (mirrors_handOut ?_ ?_) fun number _ _ hstate =>
    mirrors_numberStore hstate
  · rfl
  · exact hstate.of_advances (.fresh _) occurrences_fresh

theorem mirrors_numberEffectfulCall (passed : List (Param × NodeId)) (result : Option NodeId)
    (hstate : state.Sorted program) : program.Restricts kinds state
      (program.numberEffectfulCall ⟨.all, limit⟩ id passed result)
      (program.numberEffectfulCall ⟨kinds, limit⟩ id passed result) := by
  unfold numberEffectfulCall
  refine Walk.Mirrors.bind (Walk.mirrors_forM (fun argument state hstate => ?_) passed hstate)
    fun _ _ _ hstate => ?_
  · dsimp only
    split
    · exact (mirrors_numberExpression hstate).bind fun _ _ _ hstop => Walk.mirrors_pure hstop
    · exact Walk.mirrors_pure hstate
  refine Walk.Mirrors.bind (Walk.mirrors_forM (fun argument state hstate => ?_) passed hstate)
    fun _ _ _ hstate => ?_
  · dsimp only
    split
    · exact mirrors_storeFresh hstate
    · exact Walk.mirrors_pure hstate
  refine Walk.Mirrors.bind (mirrors_handOut ?_ ?_) fun number _ _ hstate => ?_
  · rfl
  · exact hstate.of_advances (.fresh _) occurrences_fresh
  refine Walk.Mirrors.bind (Walk.mirrors_modify ?_ ?_) fun _ _ _ hstate => ?_
  · rfl
  · exact hstate.of_advances (.setValue _ _ _) rfl
  cases result with
  | none => exact Walk.mirrors_pure hstate
  | some target => exact mirrors_storeFresh hstate

theorem mirrors_numberPureCall {callee : SignatureId} {arguments : List NodeId}
    {result : Option NodeId} (hnode : program.node id = .ok (.call callee arguments result))
    (hstate : state.Sorted program) :
    program.Restricts kinds state (program.numberPureCall ⟨.all, limit⟩ id
        (.call callee arguments result) callee arguments result) (program.numberPureCall
        ⟨kinds, limit⟩ id (.call callee arguments result) callee arguments result) := by
  unfold numberPureCall
  refine Walk.Mirrors.bind (Walk.mirrors_mapM (fun _ _ => mirrors_numberExpression) arguments
    hstate) fun values between _ hstate => ?_
  refine Walk.Mirrors.bind (mirrors_handOut (numberOf_restrict between (.call callee values)) ?_)
    fun number called hnumber hstate => ?_
  · exact hstate.of_advances (.numberOf _ _) (occurrences_numberOf _)
  obtain ⟨rfl, rfl⟩ := Prod.mk.inj (answers_handOut.mp hnumber).1
  cases result with
  | none =>
    refine Walk.mirrors_modify ?_ ?_
    · rfl
    · exact hstate.of_advances (.setValue _ _ _) rfl
  | some target =>
    exact (mirrors_recordNumber hnode rfl (between.numberOf_mem _) hstate).bind fun _ _ _ hstate =>
      mirrors_numberStore hstate

theorem mirrors_numberStatement (hstate : state.Sorted program) : program.Restricts kinds state
    (program.numberStatement ⟨.all, limit⟩ id) (program.numberStatement ⟨kinds, limit⟩ id) := by
  have hexpression {operand : NodeId} {state : Numberer} (hstate : state.Sorted program) :
      program.Restricts kinds state (do let _ ← program.numberExpression .all limit operand)
        (do let _ ← program.numberExpression kinds limit operand) :=
    (mirrors_numberExpression hstate).bind fun _ _ _ hstop => Walk.mirrors_pure hstop
  unfold numberStatement
  refine Walk.Mirrors.bind (Walk.mirrors_liftCrash hstate) fun node between hfound hstate => ?_
  obtain ⟨hnode, rfl⟩ := Walk.answers_liftCrash.mp hfound
  cases node with
  | assign target value mask =>
    exact (mirrors_numberExpression hstate).bind fun _ _ _ hstate => mirrors_numberStore hstate
  | call callee arguments result =>
    refine Walk.Mirrors.bind (Walk.mirrors_liftCrash hstate) fun signature _ _ hstate => ?_
    split
    · exact mirrors_numberPureCall hnode hstate
    · exact mirrors_numberEffectfulCall _ result hstate
  | branch condition thenBody elseBody => exact hexpression hstate
  | ret operand | discard operand =>
    exact Walk.mirrors_forM (fun _ _ hstate => hexpression hstate) operand.toList hstate
  | loop body => exact Walk.mirrors_pure hstate
  | _ => exact Walk.mirrors_throw hstate

/-! ### Blocks -/

variable {statements : List NodeId} {whole : Numbering}

theorem mirrors_numberStatements (program : Program)
    (statements : List NodeId) (limit : Nat) (kinds : NodeKinds) :
    program.Restricts kinds {} (statements.forM (program.numberStatement ⟨.all, limit⟩))
      (statements.forM (program.numberStatement ⟨kinds, limit⟩)) :=
  Walk.mirrors_forM (fun _ _ => mirrors_numberStatement) statements sorted_nil

/-- Numbering under a set of kinds is numbering under all kinds without the occurrences of other
kinds. -/
theorem numberStatements_restrict (program : Program) (statements : List NodeId) (limit : Nat)
    (kinds : NodeKinds) : (program.numberStatements statements ⟨kinds, limit⟩).run =
      (program.numberStatements statements ⟨.all, limit⟩).run.map
        (Except.map fun whole => whole.restrict program kinds) := by
  have hmirrors := (mirrors_numberStatements program statements limit kinds).1
  have hstart : Numberer.restrict program kinds {} = {} := rfl
  rw [hstart] at hmirrors
  unfold numberStatements
  dsimp only
  rw [hmirrors]
  rcases (statements.forM (program.numberStatement ⟨.all, limit⟩)).runFrom {} with
    cause | ⟨(_ | _) | ⟨⟩, numberer⟩ <;> rfl

/-- Numbering crashes under a set of kinds just as it does under all kinds. -/
theorem crashes_numberStatements_iff {cause : Crash} :
    (program.numberStatements statements ⟨kinds, limit⟩).run = .error cause ↔
      (program.numberStatements statements ⟨.all, limit⟩).run = .error cause := by
  rw [numberStatements_restrict]
  rcases (program.numberStatements statements ⟨.all, limit⟩).run
    with _ | _ | _ <;> simp [Except.map]

theorem fails_numberStatements_iff {failure : PassError} :
    Query.Fails (program.numberStatements statements ⟨kinds, limit⟩) failure ↔
      Query.Fails (program.numberStatements statements ⟨.all, limit⟩) failure := by
  unfold Query.Fails
  rw [numberStatements_restrict]
  rcases (program.numberStatements statements ⟨.all, limit⟩).run
    with _ | _ | _ <;> simp [Except.map]

theorem answers_numberStatements_iff {numbering : Numbering} :
    Query.Answers (program.numberStatements statements ⟨kinds, limit⟩) numbering ↔
      ∃ whole, Query.Answers (program.numberStatements statements ⟨.all, limit⟩) whole ∧
        whole.restrict program kinds = numbering := by
  unfold Query.Answers
  rw [numberStatements_restrict]
  rcases (program.numberStatements statements ⟨.all, limit⟩).run
    with _ | _ | _ <;> simp [Except.map]

/-- Occurrences of one number are of one kind. -/
theorem admits_eq_of_numberStatements
    (hwhole : Query.Answers (program.numberStatements statements ⟨.all, limit⟩) whole)
    {id id' : NodeId} {number : ValueNumber} (hmem : (id, number) ∈ whole.occurrences)
    (hmem' : (id', number) ∈ whole.occurrences) :
    program.admits kinds id = program.admits kinds id' := by
  have hkept := (mirrors_numberStatements program statements limit kinds).2
  unfold numberStatements at hwhole
  obtain ⟨⟨outcome, numberer⟩, hwalk, hanswer⟩ := Query.answers_bind.mp hwhole
  replace hwalk := Query.answers_liftCrash.mp hwalk
  rcases outcome with (_ | malformed) | _
  · exact (Query.answers_throw hanswer).elim
  · obtain rfl := Query.answers_pure.mp hanswer
    exact (hkept.of_fails hwalk).kind_eq hmem hmem' kinds
  · obtain rfl := Query.answers_pure.mp hanswer
    exact (hkept.of_answers hwalk).kind_eq hmem hmem' kinds

/-- Leaving out other kinds takes nothing from a number whose nodes are of one of the kinds. -/
theorem redundancy_restrict
    (hwhole : Query.Answers (program.numberStatements statements ⟨.all, limit⟩) whole)
    {number : ValueNumber} (hmem : (id, number) ∈ whole.occurrences)
    (hadmits : program.admits kinds id = true) :
    (whole.restrict program kinds).redundancy number = whole.redundancy number := by
  have hcount :
      (whole.occurrences.filter fun occurrence => program.admits kinds occurrence.1).countP
      (fun occurrence => occurrence.2 == number) =
        whole.occurrences.countP fun occurrence => occurrence.2 == number := by
    rw [List.countP_filter]
    refine List.countP_congr fun occurrence hoccurrence => ?_
    obtain ⟨other, found⟩ := occurrence
    rw [Bool.and_eq_true, beq_iff_eq]
    refine and_iff_left_of_imp fun hfound => ?_
    obtain rfl : found = number := hfound
    rw [admits_eq_of_numberStatements hwhole hoccurrence hmem, hadmits]
  unfold Numbering.redundancy
  rw [show (whole.restrict program kinds).isPartial number = whole.isPartial number from rfl,
    show (whole.restrict program kinds).occurrences =
      whole.occurrences.filter fun occurrence => program.admits kinds occurrence.1 from rfl, hcount]

/-- Two sets of kinds make numbering crash alike and fail alike. If it succeeds, it gives the same
values, partial tags and number of numbers and is poisoned alike, and it notes those occurrences
under all kinds that are of a kind in the set. So a number occurs as often under one set as under
the other if its nodes are of a kind in both. -/
theorem eligibility_of_numberStatements (program : Program) (statements : List NodeId) (limit : Nat)
    (kinds kinds' : NodeKinds) :
    (∀ cause, (program.numberStatements statements ⟨kinds, limit⟩).run = .error cause ↔
      (program.numberStatements statements ⟨kinds', limit⟩).run = .error cause) ∧
    (∀ failure, Query.Fails (program.numberStatements statements ⟨kinds, limit⟩) failure ↔
      Query.Fails (program.numberStatements statements ⟨kinds', limit⟩) failure) ∧
    ((∃ numbering, Query.Answers (program.numberStatements statements ⟨kinds, limit⟩) numbering) ↔
      ∃ numbering',
      Query.Answers (program.numberStatements statements ⟨kinds', limit⟩) numbering') ∧
    ∀ numbering numbering',
      Query.Answers (program.numberStatements statements ⟨kinds, limit⟩) numbering →
      Query.Answers (program.numberStatements statements ⟨kinds', limit⟩) numbering' →
      numbering.values = numbering'.values ∧ numbering.partials = numbering'.partials ∧
      numbering.allocated = numbering'.allocated ∧ numbering.poisoned = numbering'.poisoned ∧
      ∃ whole, Query.Answers (program.numberStatements statements ⟨.all, limit⟩) whole ∧
        numbering.occurrences =
          whole.occurrences.filter (fun occurrence => program.admits kinds occurrence.1) ∧
        numbering'.occurrences =
          whole.occurrences.filter (fun occurrence => program.admits kinds' occurrence.1) ∧
        ∀ id number, (id, number) ∈ whole.occurrences → program.admits kinds id = true →
          program.admits kinds' id = true →
          numbering.redundancy number = whole.redundancy number ∧
          numbering'.redundancy number = whole.redundancy number := by
  refine ⟨fun cause => crashes_numberStatements_iff.trans crashes_numberStatements_iff.symm,
    fun failure => fails_numberStatements_iff.trans fails_numberStatements_iff.symm, ?_, ?_⟩
  · have hall (kinds : NodeKinds) :
        (∃ numbering,
          Query.Answers (program.numberStatements statements ⟨kinds, limit⟩) numbering) ↔
          ∃ whole, Query.Answers (program.numberStatements statements ⟨.all, limit⟩) whole := by
      constructor
      · rintro ⟨numbering, hnumbering⟩
        obtain ⟨whole, hwhole, -⟩ := answers_numberStatements_iff.mp hnumbering
        exact ⟨whole, hwhole⟩
      · rintro ⟨whole, hwhole⟩
        exact ⟨_, answers_numberStatements_iff.mpr ⟨whole, hwhole, rfl⟩⟩
    exact (hall kinds).trans (hall kinds').symm
  · intro numbering numbering' hnumbering hnumbering'
    obtain ⟨whole, hwhole, rfl⟩ := answers_numberStatements_iff.mp hnumbering
    obtain ⟨whole', hwhole', rfl⟩ := answers_numberStatements_iff.mp hnumbering'
    obtain rfl := Query.Answers.unique hwhole hwhole'
    exact ⟨rfl, rfl, rfl, rfl, whole, hwhole, rfl, rfl, fun id number hmem hadmits hadmits' =>
      ⟨redundancy_restrict hwhole hmem hadmits, redundancy_restrict hwhole hmem hadmits'⟩⟩

/-- `y = x + x; z = f(x + x)`: a sum that is stored once and passed once. -/
def sumStoredAndPassed : Program where
  nodes := #[.variable ⟨0⟩, .variable ⟨0⟩, .apply .add [⟨0⟩, ⟨1⟩] .float, .variable ⟨1⟩,
    .assign ⟨3⟩ ⟨2⟩ 0, .variable ⟨0⟩, .variable ⟨0⟩, .apply .add [⟨5⟩, ⟨6⟩] .float, .variable ⟨2⟩,
    .call ⟨0⟩ [⟨7⟩] (some ⟨8⟩)]
  vars := #[⟨"x", .float, .input⟩, ⟨"y", .float, .auto⟩, ⟨"z", .float, .auto⟩]
  signatures := #[⟨"f", [⟨.float, .input⟩], .float⟩]
  body := [⟨4⟩, ⟨9⟩]

/-- What is known of the statements of `sumStoredAndPassed` with all kinds; both sums have one
number. -/
def sumStoredAndPassedNumbering : Numbering where
  values := [(⟨9⟩, [⟨2⟩]), (⟨7⟩, [⟨1⟩]), (⟨6⟩, [⟨0⟩]), (⟨5⟩, [⟨0⟩]), (⟨2⟩, [⟨1⟩]), (⟨1⟩, [⟨0⟩]),
    (⟨0⟩, [⟨0⟩])]
  occurrences := [(⟨2⟩, ⟨1⟩), (⟨7⟩, ⟨1⟩), (⟨9⟩, ⟨2⟩)]
  allocated := 3

/-- With or without calls among the kinds the sum occurs twice. -/
theorem eligibility_of_numberStatements_sumStoredAndPassed : ∃ numbering numbering' whole,
    Query.Answers (sumStoredAndPassed.numberStatements [⟨4⟩, ⟨9⟩] ⟨.expression, 4⟩) numbering ∧
    Query.Answers (sumStoredAndPassed.numberStatements [⟨4⟩, ⟨9⟩] ⟨.expression ||| .call, 4⟩)
      numbering' ∧
    Query.Answers (sumStoredAndPassed.numberStatements [⟨4⟩, ⟨9⟩] ⟨.all, 4⟩) whole ∧
    numbering.occurrences = [(⟨2⟩, ⟨1⟩), (⟨7⟩, ⟨1⟩)] ∧
    numbering'.occurrences = [(⟨2⟩, ⟨1⟩), (⟨7⟩, ⟨1⟩), (⟨9⟩, ⟨2⟩)] ∧
    numbering.redundancy ⟨1⟩ = whole.redundancy ⟨1⟩ ∧
    numbering'.redundancy ⟨1⟩ = whole.redundancy ⟨1⟩ ∧
    numbering.values = numbering'.values := by
  have hall : Query.Answers (sumStoredAndPassed.numberStatements [⟨4⟩, ⟨9⟩] ⟨.all, 4⟩)
      sumStoredAndPassedNumbering := by
    change _ = _
    decide +kernel
  have hnumbering (kinds : NodeKinds) :
      Query.Answers (sumStoredAndPassed.numberStatements [⟨4⟩, ⟨9⟩] ⟨kinds, 4⟩)
      (sumStoredAndPassedNumbering.restrict sumStoredAndPassed kinds) :=
    answers_numberStatements_iff.mpr ⟨_, hall, rfl⟩
  obtain ⟨-, -, -, hsame⟩ := eligibility_of_numberStatements sumStoredAndPassed
    [⟨4⟩, ⟨9⟩] 4 .expression (.expression ||| .call)
  obtain ⟨hvalues, -, -, -, whole, hwhole, -, -, hredundancy⟩ :=
    hsame _ _ (hnumbering _) (hnumbering _)
  obtain rfl := Query.Answers.unique hall hwhole
  have hmem : (⟨2⟩, ⟨1⟩) ∈ sumStoredAndPassedNumbering.occurrences := by decide
  obtain ⟨hcount, hcount'⟩ := hredundancy ⟨2⟩ ⟨1⟩ hmem rfl rfl
  exact ⟨_, _, _, hnumbering _, hnumbering _, hwhole, rfl, rfl, hcount, hcount', hvalues⟩

end Program

end ShaderIR
