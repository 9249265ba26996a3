import ShaderIR.Proofs.Pass.Compounds
import ShaderIR.Proofs.Pass.Diagnostics
import ShaderIR.Proofs.Pass.Exactness
import ShaderIR.Proofs.Pass.ShallowHoisting

/-!
Hoisting where nothing is misplaced. Every edit then answers the node that it was given and leaves
its draft alone (`Edit.Leaves`). Nothing is added to an arena on the way, so that hoisting ends
however few ids are left (`Program.Outlines.answers_hoistSubexpressions_of_misplaced`).
-/

set_option autoImplicit false

namespace ShaderIR

namespace Edit

variable {κ α β : Type} {draft : Draft κ}

/-- The edit answers this and leaves the draft alone. -/
def Leaves (edit : Edit κ α) (draft : Draft κ) (answer : α) : Prop :=
  Walk.Answers edit draft answer draft

theorem Leaves.bind {edit : Edit κ α} {next : α → Edit κ β} {middle : α} {answer : β}
    (hedit : Leaves edit draft middle) (hnext : Leaves (next middle) draft answer) :
    Leaves (edit >>= next) draft answer :=
  Walk.answers_bind.mpr ⟨middle, draft, hedit, hnext⟩

theorem leaves_pure (value : α) : Leaves (pure value) draft value :=
  Walk.answers_pure.mpr ⟨rfl, rfl⟩

theorem leaves_ask {request : Program → Except Crash α} {answer : α}
    (hrequest : request draft.program = .ok answer) : Leaves (ask request) draft answer :=
  answers_ask.mpr ⟨hrequest, rfl⟩

theorem leaves_setNode {id : NodeId} {node : Node} (hnode : draft.program.node id = .ok node) :
    Leaves (setNode id node) draft () :=
  answers_setNode.mpr (by rw [Program.setNode_self hnode])

theorem leaves_changeNode {id : NodeId} {node : Node} {change : Node → Node}
    (hnode : draft.program.node id = .ok node) (hsame : change node = node) :
    Leaves (changeNode id change) draft () :=
  (leaves_ask hnode).bind (by rw [hsame]; exact leaves_setNode hnode)

theorem leaves_mapM {step : α → Edit κ β} {items : List α} (answer : α → β)
    (hstep : ∀ item ∈ items, Leaves (step item) draft (answer item)) :
    Leaves (items.mapM step) draft (items.map answer) := by
  induction items with
  | nil => exact Walk.answers_mapM_nil.mpr ⟨rfl, rfl⟩
  | cons first rest ih =>
    obtain ⟨hfirst, hrest⟩ := List.forall_mem_cons.mp hstep
    rw [List.mapM_cons]
    exact hfirst.bind ((ih hrest).bind (leaves_pure _))

theorem leaves_forM {step : α → Edit κ PUnit} {items : List α}
    (hstep : ∀ item ∈ items, Leaves (step item) draft ()) : Leaves (items.forM step) draft () := by
  induction items with
  | nil => exact leaves_pure ()
  | cons first rest ih =>
    obtain ⟨hfirst, hrest⟩ := List.forall_mem_cons.mp hstep
    exact hfirst.bind (ih hrest)

/-- Children that stay are written back as they are. -/
theorem leaves_editChildren {edit : NodeId → Edit κ NodeId} {tree : Tree}
    (hdraws : draft.program.Draws tree)
    (hedit : ∀ child ∈ tree.children, Leaves (edit child.id) draft child.id) :
    Leaves (editChildren edit tree.id) draft () := by
  have hchildren : Leaves (tree.node.children.mapM edit) draft (tree.node.children.map id) := by
    refine leaves_mapM id fun child hchild => ?_
    rw [hdraws.children_eq] at hchild
    obtain ⟨tree, htree, rfl⟩ := List.mem_map.mp hchild
    exact hedit tree htree
  rw [List.map_id] at hchildren
  exact (leaves_ask hdraws.node_eq).bind
    (hchildren.bind (leaves_changeNode hdraws.node_eq (Node.refill_children _)))

theorem leaves_editArguments {rules : Rules κ} {params : List Param} {arguments : List Tree}
    (hoperand : ∀ argument ∈ arguments, Leaves (rules.operand argument.id) draft argument.id)
    (hplace : ∀ param argument, (param, argument) ∈ params.zip arguments →
      param.mode.writes = true → Leaves (rules.place argument.id) draft ()) :
    Leaves (editArguments rules params (arguments.map Tree.id)) draft (arguments.map Tree.id) := by
  induction params generalizing arguments with
  | nil => exact leaves_pure _
  | cons param params ih =>
    cases arguments with
    | nil => exact leaves_pure _
    | cons argument arguments =>
      obtain ⟨hfirst, hlater⟩ := List.forall_mem_cons.mp hoperand
      have hrest := ih hlater fun other argument hmem =>
        hplace other argument (List.mem_cons_of_mem _ hmem)
      rw [List.map_cons, editArguments]
      split
      · exact hfirst.bind (hrest.bind (leaves_pure _))
      · next hmode =>
        have hwritten := hplace param argument List.mem_cons_self (ParamMode.writes_iff.mpr hmode)
        exact hwritten.bind ((leaves_pure _).bind (hrest.bind (leaves_pure _)))

end Edit

open Edit

namespace ThreeAddress

variable {limit budget : Nat} {draft : Draft Unit}

/-! ### Expressions and places -/

theorem leaves_hoistExpression {tree : Tree} (hdraws : draft.program.Draws tree)
    (hheight : tree.height ≤ budget) (hnone : tree.compounds = []) :
    Leaves (hoistExpression limit budget tree.id) draft tree.id := by
  induction budget generalizing tree with
  | zero => exact absurd tree.height_pos (Nat.not_lt.mpr hheight)
  | succ budget ih =>
    have hsimple : tree.node.isCompound = false := by
      by_contra hcompound
      rw [Tree.compounds_of_isCompound (Bool.not_eq_false _ ▸ hcompound)] at hnone
      cases hnone
    rw [Tree.compounds_of_not_isCompound hsimple] at hnone
    unfold hoistExpression
    refine (leaves_editChildren hdraws fun child hchild => ih (hdraws.child hchild)
      (Tree.height_le_of_mem_children hchild hheight)
      (List.flatMap_eq_nil_iff.mp hnone child hchild)).bind ?_
    refine (leaves_ask hdraws.node_eq).bind ?_
    rw [if_neg (by simp [hsimple])]
    exact leaves_pure _

theorem leaves_hoistValue {tree : Tree} (hdraws : draft.program.Draws tree)
    (hheight : tree.height ≤ budget) (hnone : tree.children.flatMap Tree.compounds = []) :
    Leaves (hoistValue limit budget tree.id) draft tree.id := by
  obtain ⟨budget, rfl⟩ : ∃ less, budget = less + 1 :=
    ⟨budget - 1, by have := tree.height_pos; omega⟩
  refine (leaves_ask hdraws.node_eq).bind ?_
  split
  · exact (leaves_editChildren hdraws fun child hchild =>
      leaves_hoistExpression (hdraws.child hchild) (Tree.height_le_of_mem_children hchild hheight)
      (List.flatMap_eq_nil_iff.mp hnone child hchild)).bind (leaves_pure _)
  · next hsimple =>
    refine leaves_hoistExpression hdraws hheight ?_
    rw [Tree.compounds_of_not_isCompound (by simpa using hsimple), hnone]

theorem leaves_editPlace {tree : Tree} (hdraws : draft.program.Draws tree)
    (hplace : tree.isPlace = true) (hheight : tree.height ≤ budget) (hnone : tree.compounds = []) :
    Leaves (editPlace limit (hoistExpression limit) budget tree.id) draft () := by
  induction budget generalizing tree with
  | zero => exact absurd tree.height_pos (Nat.not_lt.mpr hheight)
  | succ budget ih =>
    have hbelow : ∀ child ∈ tree.children, draft.program.Draws child ∧ child.height ≤ budget :=
      fun child hchild => ⟨hdraws.child hchild, Tree.height_le_of_mem_children hchild hheight⟩
    obtain ⟨id, node, children⟩ := tree
    have hnode : draft.program.node id = .ok node := hdraws.node_eq
    have hids := hdraws.children_eq
    rw [Tree.isPlace, Tree.fold_mk, ← Tree.isPlace] at hplace
    refine (leaves_ask hnode).bind ?_
    cases node with
    | «variable» => exact leaves_pure _
    | field recordId number =>
      obtain ⟨record, rfl, rfl⟩ := Tree.exists_single_of_ids hids
      rw [Tree.compounds_of_not_isCompound rfl] at hnone
      obtain ⟨hdraws, hheight⟩ := hbelow record List.mem_cons_self
      exact ih hdraws hplace hheight (List.flatMap_eq_nil_iff.mp hnone record List.mem_cons_self)
    | index baseId positionId =>
      obtain ⟨base, position, rfl, rfl, rfl⟩ := Tree.exists_pair_of_ids hids
      rw [Tree.compounds_of_not_isCompound rfl, List.flatMap_eq_nil_iff] at hnone
      obtain ⟨hbase, hposition⟩ := And.intro (hbelow base (by simp)) (hbelow position (by simp))
      exact (leaves_hoistExpression hposition.1 hposition.2 (hnone position (by simp))).bind
        ((leaves_changeNode hnode rfl).bind (ih hbase.1 hplace hbase.2 (hnone base (by simp))))
    | _ => cases hplace

/-! ### Statements -/

theorem leaves_editStatement {statement : Tree} (hdraws : draft.program.Draws statement)
    (hsound : draft.program.Sound statement) (hheight : statement.height ≤ budget + 1)
    (hnone : statement.misplaced = []) :
    Leaves (editStatement (rules limit budget) statement.id) draft () := by
  have hbelow : ∀ child ∈ statement.children, draft.program.Draws child ∧ child.height ≤ budget :=
    fun child hchild => ⟨hdraws.child hchild, Tree.height_le_of_mem_children hchild hheight⟩
  have hnode := hdraws.node_eq
  refine (leaves_ask hnode).bind ?_
  cases hsound with
  | assign id target value mask hplace =>
    obtain ⟨hvalue, htarget⟩ := List.append_eq_nil_iff.mp hnone
    obtain ⟨hfirst, hsecond⟩ := And.intro (hbelow value (by simp)) (hbelow target (by simp))
    exact (leaves_hoistValue hfirst.1 hfirst.2 hvalue).bind
      ((leaves_editPlace hsecond.1 hplace hsecond.2 htarget).bind (leaves_setNode hnode))
  | call id callee arguments result signature hsignature hlength hwritten hresult =>
    rw [Tree.misplaced_of_ne fun _ _ _ => Node.noConfusion, List.flatMap_eq_nil_iff] at hnone
    have hplaced {place : Tree} (hchild : place ∈ arguments ++ result.toList)
        (hplace : place.isPlace = true) : Leaves ((rules limit budget).place place.id) draft () :=
      leaves_editPlace (hbelow place hchild).1 hplace (hbelow place hchild).2 (hnone place hchild)
    have harguments : ∀ argument ∈ arguments,
        Leaves ((rules limit budget).operand argument.id) draft argument.id := fun argument hmem =>
      leaves_hoistExpression (hbelow argument (List.mem_append_left _ hmem)).1
        (hbelow argument (List.mem_append_left _ hmem)).2
          (hnone argument (List.mem_append_left _ hmem))
    refine (leaves_ask hsignature).bind ((leaves_editArguments harguments fun param argument hmem
      hwrites => hplaced (List.mem_append_left _ (List.of_mem_zip hmem).2)
        (hwritten param argument hmem hwrites)).bind ?_)
    refine Leaves.bind (leaves_forM fun place hmem => ?_) (leaves_setNode hnode)
    obtain ⟨target, rfl, rfl⟩ : ∃ target, result = some target ∧ target.id = place := by
      simpa using hmem
    exact hplaced (List.mem_append_right _ List.mem_cons_self) (hresult target rfl)
  | branch id condition thenBody elseBody =>
    rw [Tree.misplaced_of_ne fun _ _ _ => Node.noConfusion, List.flatMap_eq_nil_iff] at hnone
    obtain ⟨hcondition, hheight⟩ := hbelow condition (by simp)
    exact (leaves_hoistExpression hcondition hheight (hnone condition (by simp))).bind
      (leaves_changeNode hnode rfl)
  | loop => exact leaves_pure _
  | ret id operand | discard id operand =>
    cases operand with
    | none => exact leaves_pure _
    | some operand =>
      rw [Tree.misplaced_of_ne fun _ _ _ => Node.noConfusion, List.flatMap_eq_nil_iff] at hnone
      obtain ⟨hoperand, hheight⟩ := hbelow operand (by simp)
      exact (leaves_hoistExpression hoperand hheight (hnone operand (by simp))).bind
        (leaves_changeNode hnode rfl)

end ThreeAddress

/-! ### Programs -/

theorem Program.Draws.fits_iff {program : Program} {tree : Tree} {budget : Nat}
    (hdraws : program.Draws tree) :
    program.Fits budget tree.id ↔ tree.height ≤ budget := by
  induction budget generalizing tree with
  | zero => exact iff_of_false id tree.height_pos.not_ge
  | succ budget ih =>
    have hnode := hdraws.node_eq
    have hchildren := hdraws.children_eq
    have hbelow (child : Tree) (hchild : child ∈ tree.children) :
        program.Fits budget child.id ↔ child.height ≤ budget := ih (hdraws.child hchild)
    obtain ⟨id, node, children⟩ := tree
    change node.children = children.map Tree.id at hchildren
    simp only [Program.Fits, hnode, Except.ok.injEq, exists_eq_left', hchildren,
      List.forall_mem_map]
    rw [Tree.height_mk_le_iff]
    exact forall₂_congr hbelow

namespace Program.Outlines

variable {program : Program} {code : Code} {limit budget : Nat} (houtlines : program.Outlines code)
  (hnone : ∀ statement ∈ code.statements, statement.misplaced = [])

include houtlines hnone

/-- The rows of a list that stays are its statements one by one. -/
theorem leaves_hoistList {ref : ListRef} {statements : List NodeId}
    (hlists : program.Lists ref statements)
    (hchecked : Query.Answers (program.checkDepthWithin limit budget ref) ()) :
    Leaves (ThreeAddress.hoistList limit budget ref) { program, memory := () } () := by
  induction budget generalizing ref statements with
  | zero => exact (Query.answers_throw hchecked).elim
  | succ budget ih =>
    obtain ⟨found, hfound, hstatements⟩ := answers_checkDepthWithin_succ.mp hchecked
    obtain rfl := Except.ok.inj (hlists.list_eq.symm.trans hfound)
    refine (leaves_ask hfound).bind ((leaves_mapM (fun id => [id]) fun id hid => ?_).bind ?_)
    · obtain ⟨node, hnode, hfits, hbodies⟩ := hstatements id hid
      obtain ⟨statement, hmem, rfl⟩ :=
        List.mem_map.mp (Code.mem_order_of_mem_lists (hlists.mem_lists houtlines) hid)
      have hdraws := houtlines.draws.statement statement hmem
      refine (ThreeAddress.leaves_editStatement hdraws (houtlines.sound statement hmem)
        (hdraws.fits_iff.mp hfits) (hnone statement hmem)).bind ?_
      refine Leaves.bind (Walk.answers_modifyGet.mpr rfl) ?_
      refine (leaves_ask (nestedLists_of_node hnode)).bind ?_
      refine Leaves.bind (leaves_forM fun inner hinner => ?_) (leaves_pure _)
      exact ih (hlists.nested hid hnode hinner (list_of_mem_lists hnode hinner))
        (hbodies inner hinner)
    · have hset : program.setList ref (statements.map fun id => [id]).flatten = .ok program := by
        rw [← List.flatMap_def, List.flatMap_singleton', setList_self hfound]
      exact (leaves_ask hset).bind (Walk.answers_modify.mpr rfl)

/-- Where nothing is misplaced, hoisting leaves the program alone, unless it nests too deep. -/
theorem answers_hoistSubexpressions_of_misplaced
    (hfits : Query.Answers (program.checkDepth limit) ()) :
    Walk.Answers (hoistSubexpressions limit) program false program := by
  have hlist := houtlines.leaves_hoistList hnone .root hfits
  unfold Leaves Walk.Answers at hlist
  refine (runFrom_hoistSubexpressions program limit).trans ?_
  rw [show (program.checkDepth limit).run = .ok (.ok ()) from hfits]
  exact map_eq_ok_iff.mpr ⟨_, hlist, rfl⟩

end Program.Outlines

end ShaderIR
