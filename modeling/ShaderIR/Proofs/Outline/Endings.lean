import ShaderIR.Proofs.Outline.Laws

/-!
When the structural check comes to an end. What it claims bounds how far it goes on, so it only
follows references for ever where it looks at nodes that have not been claimed: when it asks whether
an operand of a statement is a place or for the type of one, or words what is no statement. If these
look-ups end then so does the check (`Program.LooksUp.ends_check`), and they do if no reachable node
leads back to itself (`Program.looksUp_of_acyclic`). What leads back to itself is never accepted.
-/

set_option autoImplicit false

namespace ShaderIR

open Relation

variable {α β : Type}

/-! ### Requests and checks that end -/

/-- The request is not one that follows references for ever; it may crash for other reasons. -/
def Ends (request : Except Crash α) : Prop :=
  request ≠ .error .endless

theorem ends_ok (answer : α) : Ends (.ok answer) :=
  nofun

theorem ends_error {crash : Crash} (hcrash : crash ≠ .endless) :
    Ends (.error crash : Except Crash α) :=
  fun hends => hcrash (Except.error.inj hends)

theorem ends_fetch (items : Array α) (index : Nat) : Ends (fetch items index) := by
  unfold fetch
  split <;> simp [Ends]

theorem Ends.bind {request : Except Crash α} {next : α → Except Crash β} (hrequest : Ends request)
    (hnext : ∀ answer, request = .ok answer → Ends (next answer)) : Ends (request >>= next) := by
  cases request with
  | error cause =>
    exact fun hendless => hrequest (congrArg Except.error (Except.error.inj hendless))
  | ok answer => exact hnext answer rfl

theorem ends_mapM {step : α → Except Crash β} {items : List α}
    (hstep : ∀ item ∈ items, Ends (step item)) :
    Ends (items.mapM step) := by
  induction items with
  | nil => exact ends_ok []
  | cons first rest ih =>
    obtain ⟨hfirst, hrest⟩ := List.forall_mem_cons.mp hstep
    rw [List.mapM_cons]
    exact hfirst.bind fun _ _ => (ih hrest).bind fun _ _ => ends_ok _

namespace Checker

/-- The check ends, either with a good answer or with a rejection. -/
def Ends (checker : Checker α) (start : List NodeId) (good : α → List NodeId → Prop) : Prop :=
  match checker.run start with
  | .ok (answer, stop) => good answer stop
  | .error rejection => rejection ≠ .crash .endless

variable {start : List NodeId} {good : α → List NodeId → Prop}

theorem ends_broken (violation : Violation) :
    Ends (throw (.broken violation) : Checker α) start good :=
  nofun

theorem Ends.bind {checker : Checker α} {next : α → Checker β} {good' : β → List NodeId → Prop}
    (hchecker : Ends checker start good)
    (hnext : ∀ answer stop, good answer stop → Ends (next answer) stop good') :
    Ends (checker >>= next) start good' := by
  have hrun : (checker >>= next).run start = checker.run start >>= fun reached =>
      (next reached.1).run reached.2 := rfl
  unfold Ends at hchecker ⊢
  rw [hrun]
  cases hreached : checker.run start with
  | error rejection => rwa [hreached] at hchecker
  | ok reached =>
    rw [hreached] at hchecker
    exact hnext reached.1 reached.2 hchecker

theorem Ends.mono {checker : Checker α} {good' : α → List NodeId → Prop}
    (hchecker : Ends checker start good)
    (hgood : ∀ answer stop, good answer stop → good' answer stop) : Ends checker start good' := by
  unfold Ends at hchecker ⊢
  split at hchecker <;> simp_all

theorem ends_get_bind {next : List NodeId → Checker α} (hnext : Ends (next start) start good) :
    Ends (get >>= next) start good :=
  hnext

/-- A check that goes on from a request claims nothing for it. -/
theorem ends_ask_bind {request : Except Crash β}
    {next : β → Checker α} (hrequest : ShaderIR.Ends request)
    (hnext : ∀ answer, request = .ok answer → Ends (next answer) start good) :
    Ends (ask request >>= next) start good := by
  cases request with
  | error cause =>
    exact fun hendless => hrequest (congrArg Except.error (Rejection.crash.inj hendless))
  | ok answer => exact hnext answer rfl

theorem ends_require_bind {condition : Bool} {violation : Violation} {next : Unit → Checker α}
    (hnext : condition = true → Ends (next ()) start good) :
    Ends (require condition violation >>= next) start good := by
  cases condition with
  | false => exact nofun
  | true => exact hnext rfl

theorem ends_forM {step : α → Checker PUnit} {items : List α} (invariant : List NodeId → Prop)
    (hstep : ∀ item ∈ items, ∀ claimed, invariant claimed → Ends (step item) claimed fun _ =>
      invariant) (hstart : invariant start) : Ends (items.forM step) start fun _ => invariant := by
  induction items generalizing start with
  | nil => exact hstart
  | cons first rest ih =>
    obtain ⟨hfirst, hrest⟩ := List.forall_mem_cons.mp hstep
    exact (hfirst start hstart).bind fun _ between hbetween => ih hrest hbetween

end Checker

namespace Program

variable {program : Program} {id child : NodeId} {start stop : List NodeId} {steps : Nat}

/-! ### What has been claimed -/

/-- Different nodes of the arena have been claimed, at least as many as so far. -/
structure Claims (program : Program) (count : Nat) (claimed : List NodeId) : Prop where
  nodup : claimed.Nodup
  inside : ∀ id ∈ claimed, id.index < program.nodes.size
  count_le : count ≤ claimed.length

theorem Claims.length_le {count : Nat} (hclaims : program.Claims count start) :
    start.length ≤ program.nodes.size :=
  length_le_size_of_nodup hclaims.nodup hclaims.inside

theorem Claims.mono {count count' : Nat}
    (hclaims : program.Claims count start) (hle : count' ≤ count) :
    program.Claims count' start :=
  ⟨hclaims.nodup, hclaims.inside, hle.trans hclaims.count_le⟩

theorem ends_claim {count : Nat} (hclaims : program.Claims count start) :
    Checker.Ends (program.claim id) start fun _ => program.Claims (count + 1) := by
  unfold claim
  refine Checker.ends_require_bind fun hinside =>
    Checker.ends_get_bind (Checker.ends_require_bind fun hfresh => ?_)
  exact ⟨List.nodup_cons.mpr ⟨of_decide_eq_true hfresh, hclaims.nodup⟩,
    List.forall_mem_cons.mpr ⟨of_decide_eq_true hinside, hclaims.inside⟩,
    Nat.succ_le_succ hclaims.count_le⟩

theorem ends_checkExpressionWithin {count : Nat} (hclaims : program.Claims count start)
    (hroom : program.nodes.size < steps + count) :
    Checker.Ends (program.checkExpressionWithin steps id) start fun _ => program.Claims count := by
  induction steps generalizing id start count with
  | zero =>
    have hlength := hclaims.length_le
    have hcount := hclaims.count_le
    omega
  | succ steps ih =>
    unfold checkExpressionWithin
    refine (ends_claim hclaims).bind fun _ claimed hclaimed => ?_
    refine Checker.ends_ask_bind (ends_fetch _ _) fun node _ =>
      Checker.ends_require_bind fun _ => ?_
    have hchildren : Checker.Ends (node.children.forM (program.checkExpressionWithin steps)) claimed
        fun _ => program.Claims count :=
      (Checker.ends_forM _ (fun child _ _ hclaims => ih hclaims (by omega)) hclaimed).mono
        fun _ _ hstop => hstop.mono (Nat.le_succ count)
    cases node with
    | «variable» | apply => exact Checker.ends_require_bind fun _ => hchildren
    | _ => exact hchildren

theorem ends_checkExpression {count : Nat} (hclaims : program.Claims count start) :
    Checker.Ends (program.checkExpression id) start fun _ => program.Claims count :=
  ends_checkExpressionWithin hclaims (by unfold chainBound; omega)

/-! ### Look-ups -/

theorem ends_list (ref : ListRef) : Ends (program.list ref) := by
  cases ref with
  | root => exact ends_ok _
  | thenBody | elseBody | loopBody =>
    refine (ends_fetch _ _).bind fun node _ => ?_
    cases node <;> simp [Ends]

theorem ends_nestedLists (id : NodeId) : Ends (program.nestedLists id) :=
  (ends_fetch _ _).bind fun _ _ => ends_ok _

/-- A node stands in a list that can be reached. -/
def Listed (program : Program) (id : NodeId) : Prop :=
  ∃ ref place, program.Refers id (.listed ref place)

/-- What the check looks up before it claims it comes to an end: whether the target of an
assignment, a written argument or the result of a call is a place, the types of masked targets and
of conditions, and the text of what is no statement. -/
structure LooksUp (program : Program) : Prop where
  target : ∀ id target value mask,
    program.Listed id → program.node id = .ok (.assign target value mask) →
    Ends (program.isPlace target)
  masked : ∀ id target value mask, program.Listed id →
    program.node id = .ok (.assign target value mask) → mask ≠ 0 →
    Ends (program.typeOf target)
  argument : ∀ id callee arguments result signature param argument, program.Listed id →
    program.node id = .ok (.call callee arguments result) →
      program.signature callee = .ok signature →
    (param, argument) ∈ signature.params.zip arguments → param.mode.writes = true →
      Ends (program.isPlace argument)
  result : ∀ id callee arguments place, program.Listed id →
    program.node id = .ok (.call callee arguments (some place)) → Ends (program.isPlace place)
  condition : ∀ id condition thenBody elseBody, program.Listed id →
    program.node id = .ok (.branch condition thenBody elseBody) → Ends (program.typeOf condition)
  text : ∀ id node, program.Listed id → program.node id = .ok node → node.isStatement = false →
    Ends (program.nodeText id)

namespace LooksUp

variable (hlooks : program.LooksUp)

include hlooks

theorem ends_checkStatement {count : Nat} (hlisted : program.Listed id)
    (hclaims : program.Claims count start) :
    Checker.Ends (program.checkStatement id) start fun _ => program.Claims count := by
  unfold checkStatement
  refine Checker.ends_ask_bind (ends_fetch _ _) fun node hnode => ?_
  cases node with
  | assign target value mask =>
    have hoperands :
        Checker.Ends (do program.checkExpression value; program.checkExpression target) start
        fun _ => program.Claims count :=
      (ends_checkExpression hclaims).bind fun _ _ hvalue => ends_checkExpression hvalue
    refine Checker.ends_ask_bind (hlooks.target id target value mask hlisted hnode) fun _ _ =>
      Checker.ends_require_bind fun _ => ?_
    split
    · next hmask =>
      exact Checker.ends_ask_bind (hlooks.masked id target value mask hlisted hnode hmask)
        fun _ _ =>
        Checker.ends_require_bind fun _ => hoperands
    · exact hoperands
  | call callee arguments result =>
    refine Checker.ends_require_bind fun _ => Checker.ends_ask_bind (ends_fetch _ _)
      fun signature hsignature =>
      Checker.ends_require_bind fun _ => ?_
    refine Checker.Ends.bind (Checker.ends_forM (program.Claims count)
      (fun passed hpassed claimed hclaimed => ?_) hclaims) fun _ between hbetween => ?_
    · obtain ⟨param, argument⟩ := passed
      dsimp only
      unfold checkArgument
      split
      · next hwrites =>
        exact Checker.ends_ask_bind (hlooks.argument id callee arguments result
          signature param argument hlisted hnode hsignature hpassed hwrites) fun _ _ =>
          Checker.ends_require_bind fun _ => ends_checkExpression hclaimed
      · exact ends_checkExpression hclaimed
    · cases result with
      | none => exact hbetween
      | some place =>
        exact Checker.ends_ask_bind (hlooks.result id callee arguments place hlisted hnode)
          fun _ _ =>
          Checker.ends_require_bind fun _ => Checker.ends_require_bind fun _ =>
            ends_checkExpression hbetween
  | branch condition thenBody elseBody =>
    exact Checker.ends_ask_bind (hlooks.condition id condition thenBody elseBody hlisted hnode)
      fun _ _ =>
      Checker.ends_require_bind fun _ => ends_checkExpression hclaims
  | loop => exact hclaims
  | ret operand | discard operand =>
    exact Checker.ends_forM _ (fun _ _ _ hclaimed => ends_checkExpression hclaimed) hclaims
  | _ =>
    exact Checker.ends_ask_bind (hlooks.text id _ hlisted hnode rfl) fun _ _ =>
      Checker.ends_broken _

theorem ends_checkListWithin {count : Nat} {ref : ListRef}
    (howner : ∀ owner ∈ ref.owner?, program.Reachable owner)
    (hclaims : program.Claims count start) (hroom : program.nodes.size < steps + count) :
    Checker.Ends (program.checkListWithin steps ref) start fun _ => program.Claims count := by
  induction steps generalizing ref start count with
  | zero =>
    have hlength := hclaims.length_le
    have hcount := hclaims.count_le
    omega
  | succ steps ih =>
    unfold checkListWithin
    refine Checker.ends_ask_bind (ends_list ref) fun statements hlist => ?_
    refine Checker.ends_forM _ (fun statement hstatement claimed hclaimed => ?_) hclaims
    obtain ⟨place, hplace⟩ := List.mem_iff_getElem?.mp hstatement
    have hrefers : program.Refers statement (.listed ref place) :=
      .of_place place howner hlist hplace
    refine (ends_claim hclaimed).bind fun _ _ hclaimed => ?_
    refine (hlooks.ends_checkStatement ⟨ref, place, hrefers⟩ hclaimed).bind fun _ _ hclaimed => ?_
    refine Checker.ends_ask_bind (ends_nestedLists statement) fun refs hrefs => ?_
    obtain ⟨node, hnode, hlists⟩ := bind_eq_ok_iff.mp hrefs
    obtain rfl := Except.ok.inj hlists
    refine (Checker.ends_forM _ (fun inner hinner _ hclaimed => ih (fun owner howner => ?_)
        hclaimed (by omega)) hclaimed).mono fun _ _ hstop => hstop.mono (Nat.le_succ count)
    obtain rfl := Option.some.inj ((ListRef.owner?_of_mem_lists hinner).symm.trans howner)
    exact hrefers.target

/-- If the look-ups end then so does the check. -/
theorem ends_check : program.check ≠ .error (.crash .endless) := by
  have hends : Checker.Ends (program.checkListWithin program.chainBound .root) []
      fun _ => program.Claims 0 :=
    hlooks.ends_checkListWithin (by simp [ListRef.owner?]) ⟨List.nodup_nil, by simp, le_rfl⟩
      (by unfold chainBound; omega)
  unfold Checker.Ends at hends
  rw [check, StateT.run'_eq]
  cases hrun : (program.checkListWithin program.chainBound .root).run [] with
  | error rejection =>
    rw [hrun] at hends
    exact fun hendless => hends (Except.error.inj hendless)
  | ok reached => simp

end LooksUp

/-! ### Look-ups where nothing leads back to itself -/

/-- A look-up has come to a node through other ones, and it can take enough steps from it. -/
structure Room (program : Program) (above : List NodeId) (steps : Nat) (id : NodeId) : Prop where
  reachable : program.Reachable id
  nodup : above.Nodup
  inside : ∀ node ∈ above, node.index < program.nodes.size
  leads : ∀ node ∈ above, TransGen program.LeadsTo node id
  enough : program.nodes.size < steps + above.length

variable {above : List NodeId}

theorem Room.of_reachable (hreachable : program.Reachable id) :
    program.Room [] program.chainBound id :=
  ⟨hreachable, List.nodup_nil, by simp, by simp, Nat.lt_succ_self _⟩

theorem not_room_zero : ¬ program.Room above 0 id := fun hroom => by
  have hlength := length_le_size_of_nodup hroom.nodup hroom.inside
  have henough := hroom.enough
  omega

section

variable (hacyclic : ∀ id, program.Reachable id → ¬ TransGen program.LeadsTo id id)

include hacyclic

theorem Room.step {node : Node} (hroom : program.Room above (steps + 1) id)
    (hnode : program.node id = .ok node) (hleads : program.LeadsTo id child) :
    program.Room (id :: above) steps child where
  reachable := hroom.reachable.leadsTo hleads
  nodup := List.nodup_cons.mpr ⟨fun hmem => hacyclic id hroom.reachable (hroom.leads id hmem),
    hroom.nodup⟩
  inside := List.forall_mem_cons.mpr ⟨lt_size_of_node hnode, hroom.inside⟩
  leads :=
    List.forall_mem_cons.mpr ⟨.single hleads, fun node hmem => (hroom.leads node hmem).tail hleads⟩
  enough := by
    have henough := hroom.enough
    rw [List.length_cons]
    omega

theorem Room.of_child {node : Node} (hroom : program.Room above (steps + 1) id)
    (hnode : program.node id = .ok node) (hchild : child ∈ node.children) :
    program.Room (id :: above) steps child :=
  hroom.step hacyclic hnode (.of_child hnode hchild)

theorem ends_placeWithin (hroom : program.Room above steps id) :
    Ends (program.placeWithin steps id) := by
  induction steps generalizing above id with
  | zero => exact (not_room_zero hroom).elim
  | succ steps ih =>
    unfold placeWithin
    refine (ends_fetch _ _).bind fun node hnode => ?_
    cases node with
    | index => exact ih (hroom.of_child hacyclic hnode (by simp [Node.children]))
    | field => exact ih (hroom.of_child hacyclic hnode (by simp [Node.children]))
    | _ => exact ends_ok _

theorem ends_typeWithin (hroom : program.Room above steps id) :
    Ends (program.typeWithin steps id) := by
  induction steps generalizing above id with
  | zero => exact (not_room_zero hroom).elim
  | succ steps ih =>
    unfold typeWithin
    refine (ends_fetch _ _).bind fun node hnode => ?_
    cases node with
    | «variable» | call => exact (ends_fetch _ _).bind fun _ _ => ends_ok _
    | index | field =>
      refine Ends.bind (ih (hroom.of_child hacyclic hnode (by simp [Node.children]))) fun _ _ => ?_
      split
      · exact ends_ok _
      · exact ends_error (by simp)
    | swizzle value mask =>
      refine Ends.bind (ih (hroom.of_child hacyclic hnode (by simp [Node.children]))) fun _ _ => ?_
      split
      · unfold Ty.vectorOf
        split
        · exact ends_ok _
        · exact ends_error (by simp)
      · exact ends_error (by simp)
    | _ => exact ends_ok _

theorem ends_typeOf (hreachable : program.Reachable id) : Ends (program.typeOf id) :=
  ends_typeWithin hacyclic (.of_reachable hreachable)

/-! ### Texts -/

theorem ends_expressionWithin {nested : Bool} (hroom : program.Room above steps id) :
    Ends (program.expressionWithin steps nested id) := by
  induction steps generalizing above id nested with
  | zero => exact (not_room_zero hroom).elim
  | succ steps ih =>
    unfold expressionWithin
    refine (ends_fetch _ _).bind fun node hnode => ?_
    have hchild {operand : NodeId} (nested : Bool) (hoperand : operand ∈ node.children) :
        Ends (program.expressionWithin steps nested operand) :=
          ih (hroom.of_child hacyclic hnode hoperand)
    cases node with
    | «variable» => exact (ends_fetch _ _).bind fun _ _ => ends_ok _
    | index =>
      exact (hchild true (by simp [Node.children])).bind fun _ _ =>
        (hchild false (by simp [Node.children])).bind fun _ _ => ends_ok _
    | field record number =>
      refine (hchild true (by simp [Node.children])).bind fun _ _ =>
        Ends.bind (ends_typeOf hacyclic ?_) fun _ _ => ?_
      · exact hroom.reachable.leadsTo (.of_child hnode (by simp [Node.children]))
      · split <;> exact ends_ok _
    | swizzle => exact (hchild true (by simp [Node.children])).bind fun _ _ => ends_ok _
    | apply op operands ty =>
      dsimp only
      split
      · exact (hchild true (by simp [Node.children])).bind fun _ _ =>
          (hchild true (by simp [Node.children])).bind fun _ _ => ends_ok _
      · exact (ends_mapM fun operand hoperand => hchild false hoperand).bind fun _ _ => ends_ok _
    | texture op channel operands ty =>
      refine Ends.bind (ends_mapM fun labelled hlabelled => ?_) fun _ _ => ends_ok _
      refine Ends.bind (hchild false ?_) fun _ _ => ends_ok _
      change labelled.2 ∈ operands.toList
      rw [← operands.labelled_map_snd]
      exact List.mem_map_of_mem hlabelled
    | _ => exact ends_ok _

/-- The look-ups end if nothing leads back to itself. -/
theorem looksUp_of_acyclic : program.LooksUp := by
  have hroom {id child : NodeId} {node : Node} (hlisted : program.Listed id)
      (hnode : program.node id = .ok node) (hchild : child ∈ node.children) :
        program.Reachable child := by
    obtain ⟨_, _, hrefers⟩ := hlisted
    exact hrefers.target.leadsTo (.of_child hnode hchild)
  have hplace {child : NodeId} (hreachable : program.Reachable child) :
      Ends (program.isPlace child) :=
    ends_placeWithin hacyclic (.of_reachable hreachable)
  constructor
  case target =>
    exact fun id target value mask hlisted hnode =>
      hplace (hroom hlisted hnode (by simp [Node.children]))
  case masked =>
    exact fun id target value mask hlisted hnode _ =>
      ends_typeOf hacyclic (hroom hlisted hnode (by simp [Node.children]))
  case argument =>
    exact fun id callee arguments result signature param argument hlisted hnode _ hpassed _ =>
      hplace (hroom hlisted hnode (List.mem_append_left _ (List.of_mem_zip hpassed).2))
  case result =>
    exact fun id callee arguments place hlisted hnode =>
      hplace (hroom hlisted hnode (by simp [Node.children]))
  case condition =>
    exact fun id condition thenBody elseBody hlisted hnode =>
      ends_typeOf hacyclic (hroom hlisted hnode (by simp [Node.children]))
  case text =>
    rintro id node ⟨_, _, hrefers⟩ hnode hoperand
    refine (ends_fetch _ _).bind fun found hfound => ?_
    obtain rfl := Except.ok.inj (hnode.symm.trans hfound)
    rw [hoperand]
    exact ends_expressionWithin hacyclic (.of_reachable hrefers.target)

end

/-! ### Where the check ends -/

/-- The check ends if its look-ups do, and they do if nothing reachable leads back to itself. A
program in which something does is never accepted. -/
theorem check_of_cycles (program : Program) :
    (program.LooksUp → program.check ≠ .error (.crash .endless)) ∧
      ((∀ id, program.Reachable id → ¬ TransGen program.LeadsTo id id) → program.LooksUp) ∧
      ∀ id, program.Reachable id → TransGen program.LeadsTo id id → program.check ≠ .ok () := by
  refine ⟨fun hlooks => hlooks.ends_check, looksUp_of_acyclic,
    fun id hreachable hcycle hcheck => ?_⟩
  exact ((accepts_lawful_forests program).1 hcheck).1.acyclic id hreachable hcycle

/-- `x = -n`, where `n` is the negation itself. -/
def negatedItself : Program where
  nodes := #[.apply .neg [⟨0⟩] .float, .variable ⟨0⟩, .assign ⟨1⟩ ⟨0⟩ 0]
  vars := #[⟨"x", .float, .auto⟩]
  body := [⟨2⟩]

/-- The cycle is found when the negation is claimed again. -/
theorem check_of_cycles_negatedItself :
    negatedItself.LooksUp ∧ negatedItself.check ≠ .error (.crash .endless) ∧
    negatedItself.check ≠ .ok () := by
  obtain ⟨hends, -, hrefuses⟩ := check_of_cycles negatedItself
  have hassign : negatedItself.node ⟨2⟩ = .ok (.assign ⟨1⟩ ⟨0⟩ 0) := rfl
  have hreachable : negatedItself.Reachable ⟨0⟩ :=
    .child (.root (List.mem_singleton_self _)) hassign (by decide)
  have hnegation : negatedItself.node ⟨0⟩ = .ok (.apply .neg [⟨0⟩] .float) := rfl
  have honly {id : NodeId} {node : Node} (hlisted : negatedItself.Listed id)
      (hnode : negatedItself.node id = .ok node) : node = .assign ⟨1⟩ ⟨0⟩ 0 := by
    obtain ⟨ref, place, -, hlist, hid⟩ := hlisted
    rcases exists_owner_of_list hlist with ⟨rfl, rfl⟩ | ⟨owner, found, hfound, href, -⟩
    · obtain rfl := List.mem_singleton.mp (List.mem_of_getElem? hid)
      exact Except.ok.inj (hnode.symm.trans hassign)
    · have hmem := Array.mem_of_getElem? (node_eq_ok_iff.mp hfound)
      simp only [negatedItself, List.mem_toArray, List.mem_cons, List.not_mem_nil, or_false] at hmem
      rcases hmem with rfl | rfl | rfl <;> cases href
  have hlooks : negatedItself.LooksUp := by
    constructor
    case target =>
      intro id target value mask hlisted hnode
      obtain ⟨rfl, -, -⟩ := Node.assign.inj (honly hlisted hnode)
      exact ends_ok true
    case masked =>
      intro id target value mask hlisted hnode
      obtain ⟨rfl, -, -⟩ := Node.assign.inj (honly hlisted hnode)
      exact fun _ => ends_ok Ty.float
    case argument =>
      exact fun _ _ _ _ _ _ _ hlisted hnode => nomatch honly hlisted hnode
    case result => exact fun _ _ _ _ hlisted hnode => nomatch honly hlisted hnode
    case condition => exact fun _ _ _ _ hlisted hnode => nomatch honly hlisted hnode
    case text =>
      intro id node hlisted hnode hoperand
      rw [honly hlisted hnode] at hoperand
      cases hoperand
  exact ⟨hlooks, hends hlooks, hrefuses ⟨0⟩ hreachable (.single (.of_child hnegation (by decide)))⟩

/-- `x[…] = x`, where the left side is an element of itself. -/
def indexedItself : Program where
  nodes := #[.index ⟨0⟩ ⟨1⟩, .variable ⟨0⟩, .variable ⟨0⟩, .assign ⟨0⟩ ⟨2⟩ 0]
  vars := #[⟨"x", .float, .auto⟩]
  body := [⟨3⟩]

/-- The check follows the left side for ever before it claims it. -/
theorem endless_indexedItself : (∀ id ∈ indexedItself.body, id.index < indexedItself.nodes.size) ∧
    (∀ node ∈ indexedItself.nodes, ∀ id ∈ node.children, id.index < indexedItself.nodes.size) ∧
    indexedItself.Reachable ⟨0⟩ ∧ TransGen indexedItself.LeadsTo ⟨0⟩ ⟨0⟩ ∧
    indexedItself.check = .error (.crash .endless) := by
  have hassign : indexedItself.node ⟨3⟩ = .ok (.assign ⟨0⟩ ⟨2⟩ 0) := rfl
  have hindex : indexedItself.node ⟨0⟩ = .ok (.index ⟨0⟩ ⟨1⟩) := rfl
  exact ⟨by decide, by decide, .child (.root (List.mem_singleton_self _)) hassign (by decide),
    .single (.of_child hindex (by decide)), rfl⟩

end Program

end ShaderIR
