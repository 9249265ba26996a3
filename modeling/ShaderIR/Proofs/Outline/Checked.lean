import ShaderIR.Program.WellFormed
import ShaderIR.Proofs.Answers
import ShaderIR.Proofs.Outline.Basic

/-!
What the structural check makes sure of. `Program.Outlines` says that a code is the whole program
and that no node occurs twice in it, with operands that can stand where they do
(`Program.SoundOperand`) and statements that write to places only (`Program.Sound`). A program that
passes the check has such a code (`Program.exists_outlines_of_check`), and every statement and
operand of it can be reached from the root list (`Program.Outlines.reachable`).
-/

set_option autoImplicit false

namespace ShaderIR

variable {α β : Type}

/-! ### Checks that pass -/

/-- The check passes and answers, with these nodes claimed before and after it. -/
def Checker.Passes (checker : Checker α) (start : List NodeId) (answer : α) (stop : List NodeId) :
    Prop :=
  checker.run start = .ok (answer, stop)

namespace Checker

@[simp] theorem passes_pure {value answer : α} {start stop : List NodeId} :
    Passes (pure value) start answer stop ↔ value = answer ∧ start = stop := by
  change (Except.ok (value, start) : Except Rejection _) = .ok (answer, stop) ↔ _
  simp

@[simp] theorem passes_bind {checker : Checker α} {next : α → Checker β} {start stop : List NodeId}
    {answer : β} : Passes (checker >>= next) start answer stop ↔
      ∃ middle between, Passes checker start middle between ∧
        Passes (next middle) between answer stop := by
  change StateT.bind checker next start = .ok (answer, stop) ↔ _
  unfold StateT.bind
  rw [bind_eq_ok_iff]
  constructor
  · rintro ⟨⟨middle, between⟩, hchecker, hnext⟩
    exact ⟨middle, between, hchecker, hnext⟩
  · rintro ⟨middle, between, hchecker, hnext⟩
    exact ⟨(middle, between), hchecker, hnext⟩

@[simp] theorem passes_throw {rejection : Rejection} {answer : α} {start stop : List NodeId} :
    ¬ Passes (throw rejection) start answer stop := by
  change ¬ (Except.error rejection : Except Rejection _) = .ok (answer, stop)
  simp

@[simp] theorem passes_get {start answer stop : List NodeId} :
    Passes get start answer stop ↔ start = answer ∧ start = stop := by
  change (Except.ok (start, start) : Except Rejection _) = .ok (answer, stop) ↔ _
  simp

@[simp] theorem passes_modify {change : List NodeId → List NodeId} {start stop : List NodeId}
    {answer : PUnit} : Passes (modify change) start answer stop ↔ change start = stop := by
  change (Except.ok (PUnit.unit, change start) : Except Rejection _) = .ok (answer, stop) ↔ _
  simp

@[simp] theorem passes_ask {request : Except Crash α} {answer : α} {start stop : List NodeId} :
    Passes (ask request) start answer stop ↔ request = .ok answer ∧ start = stop := by
  cases request with
  | error cause => exact iff_of_false passes_throw (by simp)
  | ok value => exact passes_pure.trans (by simp)

@[simp] theorem passes_require {condition : Bool} {violation : Violation} {answer : Unit}
    {start stop : List NodeId} :
    Passes (require condition violation) start answer stop ↔ condition = true ∧ start = stop := by
  unfold require
  cases condition with
  | false => exact iff_of_false passes_throw (by simp)
  | true => exact passes_pure.trans (by simp)

@[simp] theorem passes_forM_nil {step : α → Checker PUnit} {start stop : List NodeId}
    {answer : PUnit} : Passes ([].forM step) start answer stop ↔ start = stop := by
  change Passes (pure ⟨⟩) start answer stop ↔ _
  simp

theorem passes_forM_cons {step : α → Checker PUnit} {first : α} {rest : List α}
    {start stop : List NodeId} {answer : PUnit} :
    Passes ((first :: rest).forM step) start answer stop ↔
      ∃ between, Passes (step first) start ⟨⟩ between ∧
        Passes (rest.forM step) between answer stop := by
  change Passes (step first >>= fun _ => rest.forM step) start answer stop ↔ _
  rw [passes_bind]
  constructor
  · rintro ⟨⟨⟩, between, hfirst, hrest⟩
    exact ⟨between, hfirst, hrest⟩
  · rintro ⟨between, hfirst, hrest⟩
    exact ⟨⟨⟩, between, hfirst, hrest⟩

/-- When each step of a row claims one tree, the row claims their trees one after the other. -/
theorem exists_trees_of_forM {step : α → Checker PUnit} (root : α → NodeId) (good : Tree → Prop)
    {items : List α} (hstep : ∀ item ∈ items, ∀ start stop answer,
      Passes (step item) start answer stop → ∃ tree, tree.id = root item ∧ good tree ∧
        stop = tree.ids.reverse ++ start ∧ (start.Nodup → stop.Nodup)) :
    ∀ {start stop : List NodeId} {answer : PUnit}, Passes (items.forM step) start answer stop →
      ∃ trees : List Tree, trees.map Tree.id = items.map root ∧ (∀ tree ∈ trees, good tree) ∧
        stop = (trees.flatMap Tree.ids).reverse ++ start ∧ (start.Nodup → stop.Nodup) := by
  induction items with
  | nil =>
    intro start stop answer hpasses
    obtain rfl := passes_forM_nil.mp hpasses
    exact ⟨[], rfl, by simp, rfl, id⟩
  | cons first rest ih =>
    intro start stop answer hpasses
    obtain ⟨between, hfirst, hrest⟩ := passes_forM_cons.mp hpasses
    obtain ⟨tree, hroot, hgood, rfl, hnodup⟩ := hstep first List.mem_cons_self _ _ _ hfirst
    obtain ⟨trees, hroots, hall, rfl, hnodup'⟩ :=
      ih (fun item hitem => hstep item (List.mem_cons_of_mem _ hitem)) hrest
    refine ⟨tree :: trees, by simp [hroot, hroots], by simpa using ⟨hgood, hall⟩, by simp, ?_⟩
    exact fun hstart => hnodup' (hnodup hstart)

theorem exists_passes_of_forM {step : α → Checker PUnit} {items : List α} {start stop : List NodeId}
    {answer : PUnit} (hpasses : Passes (items.forM step) start answer stop) :
    ∀ item ∈ items, ∃ before after, Passes (step item) before ⟨⟩ after := by
  induction items generalizing start with
  | nil => simp
  | cons first rest ih =>
    obtain ⟨between, hfirst, hrest⟩ := passes_forM_cons.mp hpasses
    rintro item (_ | ⟨_, hitem⟩)
    · exact ⟨start, between, hfirst⟩
    · exact ih hrest item hitem

end Checker

/-! ### Sound operands and statements -/

/-- Whether a tree is a variable or a part of one. -/
def Tree.isPlace : Tree → Bool :=
  Tree.fold fun node children =>
    match node, children with
    | .variable _, _ => true
    | .index .., base :: _ => base
    | .field .., record :: _ => record
    | _, _ => false

namespace Program

variable {program : Program}

/-- The node of a tree can stand in an operand. -/
structure SoundNode (program : Program) (tree : Tree) : Prop where
  operand : tree.node.isStatement = false
  variable_lt : ∀ read, tree.node = .variable read → read.index < program.vars.size
  arity : ∀ op operands ty, tree.node = .apply op operands ty → op.arity = operands.length

/-- All nodes of a tree can stand in an operand. -/
def SoundOperand (program : Program) (tree : Tree) : Prop :=
  ∀ below ∈ tree.subtrees, program.SoundNode below

/-- The operands of a statement stand where they may, and it writes to places. -/
inductive Sound (program : Program) : Tree → Prop
  | assign (id : NodeId) (target value : Tree) (mask : UInt8) (hplace : target.isPlace = true) :
    Sound program ⟨id, .assign target.id value.id mask, [value, target]⟩
  | call (id : NodeId) (callee : SignatureId) (arguments : List Tree) (result : Option Tree)
    (signature : Signature) (hsignature : program.signature callee = .ok signature)
    (hlength : signature.params.length = arguments.length)
    (hwritten : ∀ param argument, (param, argument) ∈ signature.params.zip arguments →
      param.mode.writes = true → argument.isPlace = true)
    (hresult : ∀ place ∈ result, place.isPlace = true) :
    Sound program ⟨id, .call callee (arguments.map Tree.id) (result.map Tree.id),
      arguments ++ result.toList⟩
  | branch (id : NodeId) (condition : Tree) (thenBody elseBody : List NodeId) :
    Sound program ⟨id, .branch condition.id thenBody elseBody, [condition]⟩
  | loop (id : NodeId) (body : List NodeId) : Sound program ⟨id, .loop body, []⟩
  | ret (id : NodeId) (value : Option Tree) :
    Sound program ⟨id, .ret (value.map Tree.id), value.toList⟩
  | discard (id : NodeId) (condition : Option Tree) :
    Sound program ⟨id, .discard (condition.map Tree.id), condition.toList⟩

theorem Sound.isStatement {statement : Tree} (hsound : program.Sound statement) :
    statement.node.isStatement = true := by
  cases hsound <;> rfl

theorem signature_congr {program other : Program}
    (hsignatures : other.signatures = program.signatures)
    (callee : SignatureId) : other.signature callee = program.signature callee := by
  rw [Program.signature, Program.signature, hsignatures]

/-- A statement depends on its program through the signatures only. -/
theorem Sound.congr {program other : Program} {statement : Tree} (hsound : program.Sound statement)
    (hsignatures : other.signatures = program.signatures) : other.Sound statement := by
  cases hsound with
  | assign id target value mask hplace => exact .assign id target value mask hplace
  | call id callee arguments result signature hsignature hlength hwritten hresult =>
    exact .call id callee arguments result signature
      ((signature_congr hsignatures callee).trans hsignature) hlength hwritten hresult
  | branch id condition thenBody elseBody => exact .branch id condition thenBody elseBody
  | loop id body => exact .loop id body
  | ret id value => exact .ret id value
  | discard id condition => exact .discard id condition

/-- A sound call has as many arguments as its function, and its result is a place. -/
theorem Sound.of_call {id : NodeId} {callee : SignatureId}
    {arguments : List Tree} {result : Option Tree} {signature : Signature}
    (hsound : program.Sound ⟨id, .call callee (arguments.map Tree.id) (result.map Tree.id),
        arguments ++ result.toList⟩) (hsignature : program.signature callee = .ok signature) :
    signature.params.length = arguments.length ∧ ∀ place ∈ result, place.isPlace = true := by
  generalize htree : (⟨id, .call callee (arguments.map Tree.id) (result.map Tree.id),
      arguments ++ result.toList⟩ : Tree) = tree at hsound
  cases hsound with
  | call id' callee' arguments' result' found hfound hlength hwritten hresult =>
    obtain ⟨rfl, hnode, hchildren⟩ := Tree.mk.inj htree
    obtain ⟨rfl, hids, -⟩ := Node.call.inj hnode
    have hcount : arguments.length = arguments'.length := by simpa using congrArg List.length hids
    obtain ⟨rfl, hplaces⟩ := List.append_inj hchildren hcount
    obtain rfl := Except.ok.inj (hsignature.symm.trans hfound)
    exact ⟨hlength, fun place hplace => hresult place
      (Option.mem_toList.mp (hplaces ▸ Option.mem_toList.mpr hplace))⟩
  | _ => cases htree

/-- The arena holds a code, and all of it is sound. -/
structure SoundCode (program : Program) (code : Code) : Prop where
  draws : program.DrawsCode code
  sound : ∀ statement ∈ code.statements, program.Sound statement
  operands : ∀ statement ∈ code.statements, ∀ operand ∈ statement.children,
    program.SoundOperand operand

/-- A code is the whole program, and no node occurs in it twice. -/
structure Outlines (program : Program) (code : Code) : Prop extends program.SoundCode code where
  body : program.body = code.heads
  nodup : code.ids.Nodup

/-! ### Operands that pass -/

theorem isPlace_of_placeWithin {tree : Tree} {steps : Nat} (hdraws : program.Draws tree)
    (hplace : program.placeWithin steps tree.id = .ok true) : tree.isPlace = true := by
  induction steps generalizing tree with
  | zero => cases hplace
  | succ steps ih =>
    obtain ⟨id, node, children⟩ := tree
    rw [placeWithin, hdraws.node_eq] at hplace
    have hchildren := hdraws.children_eq
    rw [Tree.isPlace, Tree.fold_mk]
    cases node with
    | «variable» => rfl
    | index base place =>
      obtain ⟨first, rest, rfl, hfirst, -⟩ := List.map_eq_cons_iff.mp hchildren.symm
      exact ih (hdraws.child List.mem_cons_self) (by rw [hfirst]; exact hplace)
    | field record number =>
      obtain ⟨first, rest, rfl, hfirst, -⟩ := List.map_eq_cons_iff.mp hchildren.symm
      exact ih (hdraws.child List.mem_cons_self) (by rw [hfirst]; exact hplace)
    | _ => cases hplace

theorem passes_claim {id : NodeId} {start stop : List NodeId} {answer : Unit}
    (hpasses : Checker.Passes (program.claim id) start answer stop) :
    stop = id :: start ∧ (start.Nodup → stop.Nodup) := by
  simp only [claim, Checker.passes_bind, Checker.passes_require, Checker.passes_get,
    Checker.passes_modify, decide_eq_true_eq] at hpasses
  obtain ⟨_, _, ⟨_, rfl⟩, seen, _, ⟨rfl, rfl⟩, _, _, ⟨hfresh, rfl⟩, rfl⟩ := hpasses
  exact ⟨rfl, fun hnodup => List.nodup_cons.mpr ⟨hfresh, hnodup⟩⟩

/-- An operand that passes is a tree of nodes not claimed before. -/
theorem exists_tree_of_checkExpressionWithin {steps : Nat} {id : NodeId} {start stop : List NodeId}
    {answer : Unit}
    (hpasses : Checker.Passes (program.checkExpressionWithin steps id) start answer stop) :
    ∃ tree, (tree.id = id ∧ program.Draws tree ∧ program.SoundOperand tree) ∧
      stop = tree.ids.reverse ++ start ∧ (start.Nodup → stop.Nodup) := by
  induction steps generalizing id start stop with
  | zero => exact absurd hpasses Checker.passes_throw
  | succ steps ih =>
    simp only [checkExpressionWithin, Checker.passes_bind, Checker.passes_ask,
      Checker.passes_require] at hpasses
    obtain ⟨_, claimed, hclaim, node, _, ⟨hnode, rfl⟩, _, _, ⟨hoperand, rfl⟩, hlocal⟩ := hpasses
    obtain ⟨rfl, hnodup⟩ := passes_claim hclaim
    obtain ⟨hroot, hchildren⟩ : (∀ children, program.SoundNode ⟨id, node, children⟩) ∧
        Checker.Passes (node.children.forM (program.checkExpressionWithin steps)) (id :: start)
          answer stop := by
      cases node with
      | «variable» read =>
        simp only [Checker.passes_bind, Checker.passes_require, decide_eq_true_eq] at hlocal
        obtain ⟨_, _, ⟨hread, rfl⟩, hchildren⟩ := hlocal
        exact ⟨fun _ => ⟨rfl, fun _ hsame => by cases hsame; exact hread, by simp⟩, hchildren⟩
      | apply op operands ty =>
        simp only [Checker.passes_bind, Checker.passes_require, beq_iff_eq] at hlocal
        obtain ⟨_, _, ⟨harity, rfl⟩, hchildren⟩ := hlocal
        exact ⟨fun _ => ⟨rfl, by simp, fun _ _ _ hsame => by cases hsame; exact harity⟩, hchildren⟩
      | _ => exact ⟨fun _ => ⟨by simpa using hoperand, by simp, by simp⟩, hlocal⟩
    obtain ⟨children, hroots, hgood, rfl, hnodup'⟩ := Checker.exists_trees_of_forM
      (fun child => child) (fun tree => program.Draws tree ∧ program.SoundOperand tree)
      (fun child _ _ _ _ hchild => by
        obtain ⟨tree, ⟨hroot, hdraws, hsound⟩, hstop⟩ := ih hchild
        exact ⟨tree, hroot, ⟨hdraws, hsound⟩, hstop⟩) hchildren
    refine ⟨⟨id, node, children⟩, ⟨rfl, .intro hnode ?_ fun child hchild => (hgood child hchild).1,
      ?_⟩, by simp, fun hstart => hnodup' (hnodup hstart)⟩
    · simpa using hroots.symm
    · exact Tree.forall_subtrees_mk.mpr ⟨hroot _, fun child hchild => (hgood child hchild).2⟩

theorem exists_tree_of_checkExpression {id : NodeId} {start stop : List NodeId} {answer : Unit}
    (hpasses : Checker.Passes (program.checkExpression id) start answer stop) :
    ∃ tree, tree.id = id ∧ (program.Draws tree ∧ program.SoundOperand tree) ∧
      stop = tree.ids.reverse ++ start ∧ (start.Nodup → stop.Nodup) := by
  obtain ⟨tree, ⟨hroot, hdraws, hsound⟩, hstop⟩ := exists_tree_of_checkExpressionWithin hpasses
  exact ⟨tree, hroot, ⟨hdraws, hsound⟩, hstop⟩

/-! ### Statements that pass -/

/-- An argument that passes is an expression, and a place if the callee writes it. -/
theorem passes_of_checkArgument {param : Param} {argument : NodeId} {start stop : List NodeId}
    {answer : Unit}
    (hpasses : Checker.Passes (program.checkArgument param argument) start answer stop) :
    (param.mode.writes = true → program.isPlace argument = .ok true) ∧
      Checker.Passes (program.checkExpression argument) start answer stop := by
  unfold checkArgument at hpasses
  split at hpasses
  · simp only [Checker.passes_bind, Checker.passes_ask, Checker.passes_require] at hpasses
    obtain ⟨_, _, ⟨hplace, rfl⟩, _, _, ⟨rfl, rfl⟩, hpasses⟩ := hpasses
    exact ⟨fun _ => hplace, hpasses⟩
  · next hreads => exact ⟨fun hwrites => absurd hwrites hreads, hpasses⟩

/-- Arguments that pass are trees of nodes not claimed before, places where the callee writes
them. -/
theorem exists_trees_of_checkArguments {params : List Param} {arguments : List NodeId}
    {start stop : List NodeId} {answer : Unit} (hlength : params.length = arguments.length)
    (hpasses : Checker.Passes ((params.zip arguments).forM fun (param, argument) =>
      program.checkArgument param argument) start answer stop) :
    ∃ trees : List Tree, trees.map Tree.id = arguments ∧
      (∀ tree ∈ trees, program.Draws tree ∧ program.SoundOperand tree) ∧
      stop = (trees.flatMap Tree.ids).reverse ++ start ∧ (start.Nodup → stop.Nodup) ∧
      ∀ param argument, (param, argument) ∈ params.zip trees → param.mode.writes = true →
        argument.isPlace = true := by
  have hplaces : ∀ passed ∈ params.zip arguments,
      passed.1.mode.writes = true → program.isPlace passed.2 = .ok true := by
    intro passed hpassed
    obtain ⟨before, after, hpasses⟩ := Checker.exists_passes_of_forM hpasses passed hpassed
    exact (passes_of_checkArgument hpasses).1
  obtain ⟨trees, hroots, hgood, rfl, hnodup⟩ := Checker.exists_trees_of_forM
    Prod.snd (fun tree => program.Draws tree ∧ program.SoundOperand tree)
    (fun _ _ _ _ _ hpasses => exists_tree_of_checkExpression (passes_of_checkArgument hpasses).2)
    hpasses
  rw [List.map_snd_zip hlength.ge] at hroots
  subst hroots
  refine ⟨trees, rfl, hgood, rfl, hnodup, fun param argument hmem hwrites => ?_⟩
  have hids : (param, argument.id) ∈ params.zip (trees.map Tree.id) := by
    rw [List.zip_map_right]
    exact List.mem_map_of_mem hmem
  exact isPlace_of_placeWithin (hgood argument (List.of_mem_zip hmem).2).1 (hplaces _ hids hwrites)

/-- The operands of a statement that passes are trees of nodes not claimed before. -/
theorem exists_children_of_checkStatement {id : NodeId} {start stop : List NodeId} {answer : Unit}
    (hpasses : Checker.Passes (program.checkStatement id) start answer stop) :
    ∃ node children, program.node id = .ok node ∧ program.Sound ⟨id, node, children⟩ ∧
      (∀ child ∈ children, program.Draws child ∧ program.SoundOperand child) ∧
      stop = (children.flatMap Tree.ids).reverse ++ start ∧ (start.Nodup → stop.Nodup) := by
  simp only [checkStatement, Checker.passes_bind, Checker.passes_ask] at hpasses
  obtain ⟨node, _, ⟨hnode, rfl⟩, hpasses⟩ := hpasses
  cases node with
  | assign target value mask =>
    simp only [Checker.passes_bind, Checker.passes_ask, Checker.passes_require] at hpasses
    obtain ⟨_, _, ⟨hplace, rfl⟩, _, _, ⟨rfl, rfl⟩, hpasses⟩ := hpasses
    obtain ⟨_, hvalue, htarget⟩ : ∃ between,
        Checker.Passes (program.checkExpression value) start ⟨⟩ between ∧
          Checker.Passes (program.checkExpression target) between answer stop := by
      split at hpasses
      · simp only [Checker.passes_bind, Checker.passes_ask, Checker.passes_require] at hpasses
        obtain ⟨_, _, ⟨-, rfl⟩, _, _, ⟨-, rfl⟩, _, between, hvalue, htarget⟩ := hpasses
        exact ⟨between, hvalue, htarget⟩
      · simp only [Checker.passes_bind] at hpasses
        obtain ⟨_, between, hvalue, htarget⟩ := hpasses
        exact ⟨between, hvalue, htarget⟩
    obtain ⟨value, rfl, hgood, rfl, hnodup⟩ := exists_tree_of_checkExpression hvalue
    obtain ⟨target, rfl, hgood', rfl, hnodup'⟩ := exists_tree_of_checkExpression htarget
    refine ⟨_, [value, target], hnode, .assign _ _ _ _ (isPlace_of_placeWithin hgood'.1 hplace), ?_,
      by simp, fun hstart => hnodup' (hnodup hstart)⟩
    simpa using ⟨hgood, hgood'⟩
  | call callee arguments result =>
    simp only [Checker.passes_bind, Checker.passes_ask, Checker.passes_require, beq_iff_eq]
      at hpasses
    obtain ⟨_, _, ⟨-, rfl⟩, signature, _, ⟨hsignature, rfl⟩, _, _, ⟨hlength, rfl⟩, _, between,
      harguments, hresult⟩ := hpasses
    obtain ⟨trees, rfl, hgood, rfl, hnodup, hwritten⟩ :=
      exists_trees_of_checkArguments hlength harguments
    rw [List.length_map] at hlength
    cases result with
    | none =>
      obtain ⟨-, rfl⟩ := Checker.passes_pure.mp hresult
      refine ⟨_, trees, hnode, ?_, hgood, rfl, hnodup⟩
      simpa using Sound.call id callee trees none signature hsignature hlength hwritten (by simp)
    | some place =>
      simp only [Checker.passes_bind, Checker.passes_ask, Checker.passes_require] at hresult
      obtain ⟨_, _, ⟨hplace, rfl⟩, _, _, ⟨rfl, rfl⟩, _, _, ⟨-, rfl⟩, hresult⟩ := hresult
      obtain ⟨place, rfl, hgood', rfl, hnodup'⟩ := exists_tree_of_checkExpression hresult
      refine ⟨_, trees ++ [place], hnode, ?_, ?_, by simp, fun hstart => hnodup' (hnodup hstart)⟩
      · simpa using Sound.call id callee trees (some place) signature hsignature hlength hwritten
          (by simpa using isPlace_of_placeWithin hgood'.1 hplace)
      · intro child hchild
        rcases List.mem_append.mp hchild with hchild | hchild
        · exact hgood child hchild
        · rw [List.mem_singleton.mp hchild]
          exact hgood'
  | branch condition thenBody elseBody =>
    simp only [Checker.passes_bind, Checker.passes_ask, Checker.passes_require] at hpasses
    obtain ⟨_, _, ⟨-, rfl⟩, _, _, ⟨-, rfl⟩, hpasses⟩ := hpasses
    obtain ⟨condition, rfl, hgood, rfl, hnodup⟩ := exists_tree_of_checkExpression hpasses
    exact ⟨_, [condition], hnode, .branch .., by simpa using hgood, by simp, hnodup⟩
  | loop body =>
    obtain ⟨-, rfl⟩ := Checker.passes_pure.mp hpasses
    exact ⟨_, [], hnode, .loop .., by simp, rfl, fun hstart => hstart⟩
  | ret operand | discard operand =>
    obtain ⟨trees, hroots, hgood, rfl, hnodup⟩ := Checker.exists_trees_of_forM
      (fun operand => operand) (fun tree => program.Draws tree ∧ program.SoundOperand tree)
      (fun _ _ _ _ _ hpasses => exists_tree_of_checkExpression hpasses) hpasses
    rw [List.map_id'] at hroots
    cases operand with
    | none =>
      obtain rfl := List.map_eq_nil_iff.mp hroots
      first
      | exact ⟨_, [], hnode, .ret _ none, hgood, rfl, hnodup⟩
      | exact ⟨_, [], hnode, .discard _ none, hgood, rfl, hnodup⟩
    | some operand =>
      obtain ⟨tree, _, rfl, rfl, hrest⟩ := List.map_eq_cons_iff.mp hroots
      obtain rfl := List.map_eq_nil_iff.mp hrest
      first
      | exact ⟨_, [tree], hnode, .ret _ (some tree), hgood, rfl, hnodup⟩
      | exact ⟨_, [tree], hnode, .discard _ (some tree), hgood, rfl, hnodup⟩
  | _ =>
    simp only [Checker.passes_bind, Checker.passes_ask, Checker.passes_throw] at hpasses
    obtain ⟨_, _, _, hthrow⟩ := hpasses
    exact hthrow.elim

/-! ### Lists that pass -/

/-- What the check of one list tells: which statements it holds, and which nodes it claims. -/
def ClaimsList (program : Program) (ref : ListRef) (start stop : List NodeId) : Prop :=
  ∃ code, program.list ref = .ok code.heads ∧ program.SoundCode code ∧
    stop = code.ids.reverse ++ start ∧ (start.Nodup → stop.Nodup)

private theorem exists_code_of_forM {steps : Nat} (hnested : ∀ ref start stop answer,
      Checker.Passes (program.checkListWithin steps ref) start answer stop →
        program.ClaimsList ref start stop) {statements : List NodeId} {start stop : List NodeId}
    {answer : Unit} (hpasses : Checker.Passes (statements.forM fun statement => do
      program.claim statement
      program.checkStatement statement
      (← Checker.ask (program.nestedLists statement)).forM (program.checkListWithin steps))
        start answer stop) :
    ∃ code, code.heads = statements ∧ program.SoundCode code ∧ stop = code.ids.reverse ++ start ∧
      (start.Nodup → stop.Nodup) := by
  induction statements generalizing start with
  | nil =>
    obtain rfl := Checker.passes_forM_nil.mp hpasses
    exact ⟨.nil, rfl, ⟨.nil, by simp [Code.statements], by simp [Code.statements]⟩, rfl, id⟩
  | cons id statements ih =>
    obtain ⟨between, hfirst, hrest⟩ := Checker.passes_forM_cons.mp hpasses
    simp only [Checker.passes_bind, Checker.passes_ask] at hfirst
    obtain ⟨_, claimed, hclaim, _, checked, hstatement, refs, _, ⟨hrefs, rfl⟩, hbodies⟩ := hfirst
    obtain ⟨rfl, hnodup₁⟩ := passes_claim hclaim
    obtain ⟨node, children, hnode, hsound, hchildren, rfl, hnodup₂⟩ :=
      exists_children_of_checkStatement hstatement
    obtain ⟨rest, rfl, hrestSound, rfl, hnodup₃⟩ := ih hrest
    have hdraws : program.Draws ⟨id, node, children⟩ := by
      refine .intro hnode ?_ fun child hchild => (hchildren child hchild).1
      cases hsound <;> simp [Node.children]
      · rename_i result _ _ _ _ _
        cases result <;> rfl
      · rename_i value
        cases value <;> rfl
      · rename_i condition
        cases condition <;> rfl
    have hoperands : ∀ child ∈ children, program.SoundOperand child :=
      fun child hchild => (hchildren child hchild).2
    obtain rfl : node.lists id = refs := by
      rw [nestedLists, hnode] at hrefs
      exact Except.ok.inj hrefs
    cases node with
    | branch condition thenBody elseBody =>
      obtain ⟨_, hthen, hbodies⟩ := Checker.passes_forM_cons.mp hbodies
      obtain ⟨_, helse, hnil⟩ := Checker.passes_forM_cons.mp hbodies
      obtain rfl := Checker.passes_forM_nil.mp hnil
      obtain ⟨thenCode, hthenBody, hthenSound, rfl, hnodup₄⟩ := hnested _ _ _ _ hthen
      obtain ⟨elseCode, helseBody, helseSound, rfl, hnodup₅⟩ := hnested _ _ _ _ helse
      rw [list_thenBody hnode] at hthenBody
      rw [list_elseBody hnode] at helseBody
      obtain rfl : thenBody = thenCode.heads := Except.ok.inj hthenBody
      obtain rfl : elseBody = elseCode.heads := Except.ok.inj helseBody
      refine ⟨.branch ⟨id, _, children⟩ thenCode elseCode rest, rfl, ⟨.branch hdraws rfl
        hthenSound.draws helseSound.draws hrestSound.draws, ?_, ?_⟩, by simp,
        fun hstart => hnodup₃ (hnodup₅ (hnodup₄ (hnodup₂ (hnodup₁ hstart))))⟩
      · simp only [Code.statements, List.mem_cons, List.mem_append]
        rintro statement (rfl | (hmem | hmem) | hmem)
        exacts [hsound, hthenSound.sound _ hmem, helseSound.sound _ hmem, hrestSound.sound _ hmem]
      · simp only [Code.statements, List.mem_cons, List.mem_append]
        rintro statement (rfl | (hmem | hmem) | hmem)
        exacts [hoperands, hthenSound.operands _ hmem, helseSound.operands _ hmem,
          hrestSound.operands _ hmem]
    | loop body =>
      obtain ⟨_, hbody, hnil⟩ := Checker.passes_forM_cons.mp hbodies
      obtain rfl := Checker.passes_forM_nil.mp hnil
      obtain ⟨code, hlist, hbodySound, rfl, hnodup₄⟩ := hnested _ _ _ _ hbody
      rw [list_loopBody hnode] at hlist
      obtain rfl : body = code.heads := Except.ok.inj hlist
      refine ⟨.loop ⟨id, _, children⟩ code rest, rfl, ⟨.loop hdraws rfl hbodySound.draws
        hrestSound.draws, ?_, ?_⟩, by simp,
        fun hstart => hnodup₃ (hnodup₄ (hnodup₂ (hnodup₁ hstart)))⟩
      · simp only [Code.statements, List.mem_cons, List.mem_append]
        rintro statement (rfl | hmem | hmem)
        exacts [hsound, hbodySound.sound _ hmem, hrestSound.sound _ hmem]
      · simp only [Code.statements, List.mem_cons, List.mem_append]
        rintro statement (rfl | hmem | hmem)
        exacts [hoperands, hbodySound.operands _ hmem, hrestSound.operands _ hmem]
    | _ =>
      obtain rfl := Checker.passes_forM_nil.mp hbodies
      refine ⟨.step ⟨id, _, children⟩ rest, rfl,
        ⟨.step hdraws rfl hrestSound.draws, ?_, ?_⟩, by simp,
        fun hstart => hnodup₃ (hnodup₂ (hnodup₁ hstart))⟩
      · simp only [Code.statements, List.mem_cons]
        rintro statement (rfl | hmem)
        exacts [hsound, hrestSound.sound _ hmem]
      · simp only [Code.statements, List.mem_cons]
        rintro statement (rfl | hmem)
        exacts [hoperands, hrestSound.operands _ hmem]

theorem claimsList_of_checkListWithin {steps : Nat} {ref : ListRef} {start stop : List NodeId}
    {answer : Unit}
    (hpasses : Checker.Passes (program.checkListWithin steps ref) start answer stop) :
    program.ClaimsList ref start stop := by
  induction steps generalizing ref start stop answer with
  | zero => exact absurd hpasses Checker.passes_throw
  | succ steps ih =>
    simp only [checkListWithin, Checker.passes_bind, Checker.passes_ask] at hpasses
    obtain ⟨statements, _, ⟨hlist, rfl⟩, hpasses⟩ := hpasses
    obtain ⟨code, rfl, hsound, hstop⟩ := exists_code_of_forM
      (fun ref start stop answer hnested => ih hnested) (by simpa using hpasses)
    exact ⟨code, hlist, hsound, hstop⟩

/-- A program that passes the check is drawn by a code in which no node occurs twice. -/
theorem exists_outlines_of_check (hcheck : program.check = .ok ()) :
    ∃ code, program.Outlines code := by
  have hpasses :
      ∃ stop, Checker.Passes (program.checkListWithin program.chainBound .root) [] () stop := by
    unfold Checker.Passes
    cases hrun : (program.checkListWithin program.chainBound .root).run [] with
    | error rejection =>
      have hrun : program.checkListWithin program.chainBound .root [] = .error rejection := hrun
      rw [check, StateT.run', hrun] at hcheck
      cases hcheck
    | ok reached => exact ⟨reached.2, rfl⟩
  obtain ⟨stop, hpasses⟩ := hpasses
  obtain ⟨code, hbody, hsound, rfl, hnodup⟩ := claimsList_of_checkListWithin hpasses
  refine ⟨code, hsound, Except.ok.inj hbody, ?_⟩
  simpa using hnodup List.nodup_nil

/-! ### Reachable nodes -/

/-- A node can be reached from the root list, through operands and through bodies. -/
inductive Reachable (program : Program) : NodeId → Prop
  | root {id : NodeId} (hid : id ∈ program.body) : Reachable program id
  | child {owner id : NodeId} {node : Node} (howner : Reachable program owner)
    (hnode : program.node owner = .ok node) (hid : id ∈ node.children) : Reachable program id
  | nested {owner id : NodeId} {node : Node} {ref : ListRef} {statements : List NodeId}
    (howner : Reachable program owner) (hnode : program.node owner = .ok node)
    (href : ref ∈ node.lists owner) (hlist : program.list ref = .ok statements)
    (hid : id ∈ statements) : Reachable program id

theorem Draws.reachable {tree : Tree} (hdraws : program.Draws tree)
    (hroot : program.Reachable tree.id) :
    ∀ below ∈ tree.subtrees, program.Reachable below.id := by
  induction hdraws with
  | @intro id node children hnode hchildren hbelow ih =>
    refine Tree.forall_subtrees_mk.mpr ⟨hroot, fun child hchild => ih child hchild ?_⟩
    exact .child hroot hnode (hchildren ▸ List.mem_map_of_mem hchild)

theorem DrawsCode.reachable {code : Code} (hdraws : program.DrawsCode code)
    (hheads : ∀ id ∈ code.heads, program.Reachable id) :
    ∀ statement ∈ code.statements, program.Reachable statement.id := by
  induction hdraws with
  | nil => simp [Code.statements]
  | step _ _ _ ih =>
    simp only [Code.heads, List.forall_mem_cons] at hheads
    simpa [Code.statements] using ⟨hheads.1, ih hheads.2⟩
  | branch hstatement hnode _ _ _ ihthen ihelse ihrest =>
    simp only [Code.heads, List.forall_mem_cons] at hheads
    have hnode' := hstatement.node_eq
    rw [hnode] at hnode'
    simp only [Code.statements, List.mem_cons, List.mem_append]
    rintro statement (rfl | (hmem | hmem) | hmem)
    · exact hheads.1
    · exact ihthen (fun id hid => .nested hheads.1 hnode' List.mem_cons_self
        (list_thenBody hnode') hid) _ hmem
    · exact ihelse (fun id hid => .nested hheads.1 hnode'
        (List.mem_cons_of_mem _ List.mem_cons_self) (list_elseBody hnode') hid) _ hmem
    · exact ihrest hheads.2 _ hmem
  | loop hstatement hnode _ _ ihbody ihrest =>
    simp only [Code.heads, List.forall_mem_cons] at hheads
    have hnode' := hstatement.node_eq
    rw [hnode] at hnode'
    simp only [Code.statements, List.mem_cons, List.mem_append]
    rintro statement (rfl | hmem | hmem)
    · exact hheads.1
    · exact ihbody (fun id hid => .nested hheads.1 hnode' List.mem_cons_self
        (list_loopBody hnode') hid) _ hmem
    · exact ihrest hheads.2 _ hmem

/-- Every statement and every operand of the whole program can be reached. -/
theorem Outlines.reachable {code : Code} (houtlines : program.Outlines code) :
    ∀ statement ∈ code.statements, ∀ below ∈ statement.subtrees, program.Reachable below.id := by
  intro statement hmem
  refine (houtlines.draws.statement statement hmem).reachable ?_
  exact houtlines.draws.reachable (fun id hid => .root (houtlines.body ▸ hid)) statement hmem

end Program

end ShaderIR
