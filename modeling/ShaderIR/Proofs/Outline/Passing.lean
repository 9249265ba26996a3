import ShaderIR.Proofs.Outline.Order
import ShaderIR.Proofs.Outline.Types

/-!
Which programs pass the structural check. Besides an outline, a program needs types: `Program.Suits`
says of a statement that its mask fits what it selects lanes of, that a result is used of functions
only that have one, and that its condition is a bool. A program passes just when it has an outline
whose statements suit (`Program.check_eq_ok_iff`).
-/

set_option autoImplicit false

namespace ShaderIR

namespace Program

variable {program : Program}

/-- The operands of a statement have the types that it relies on. -/
def Suits (program : Program) (statement : Tree) : Prop :=
  match statement.node, statement.children with
  | .assign _ _ mask, [_, target] =>
    mask ≠ 0 → ∃ ty, target.ty? program = some ty ∧ mask &&& ~~~ty.fullMask = 0
  | .call callee _ (some _), _ =>
    ∀ signature, program.signature callee = .ok signature → signature.returnTy ≠ .void
  | .branch .., [condition] => condition.ty? program = some .bool
  | _, _ => True

/-- A statement keeps the types that it relies on when the program gets more variables. -/
theorem Suits.mono {program' : Program} {statement : Tree} (hsuits : program.Suits statement)
    (hvars : ∀ (index : Nat) declared, program.vars[index]? = some declared →
      program'.vars[index]? = some declared)
    (hsignatures : program'.signatures = program.signatures) :
    program'.Suits statement := by
  obtain ⟨id, node, children⟩ := statement
  cases node with
  | assign target value mask =>
    rcases children with _ | ⟨first, _ | ⟨second, _ | _⟩⟩ <;> try trivial
    intro hmask
    obtain ⟨ty, hty, hfull⟩ := hsuits hmask
    exact ⟨ty, Tree.ty?_mono hvars hsignatures hty, hfull⟩
  | call callee arguments result =>
    cases result with
    | none => trivial
    | some target =>
      intro signature hsignature
      rw [Program.signature_congr hsignatures] at hsignature
      exact hsuits signature hsignature
  | branch =>
    rcases children with _ | ⟨condition, _ | _⟩ <;> try trivial
    exact Tree.ty?_mono hvars hsignatures hsuits
  | _ => trivial

/-! ### Operands -/

theorem passes_claim_of_not_mem {id : NodeId}
    {start : List NodeId} (hlt : id.index < program.nodes.size)
    (hfresh : id ∉ start) : Checker.Passes (program.claim id) start () (id :: start) := by
  simp only [claim, Checker.passes_bind, Checker.passes_require, Checker.passes_get,
    Checker.passes_modify, decide_eq_true_eq]
  exact ⟨⟨⟩, start, ⟨hlt, rfl⟩, start, start, ⟨rfl, rfl⟩, ⟨⟩, start, ⟨hfresh, rfl⟩, rfl⟩

theorem placeWithin_of_isPlace {tree : Tree} {steps : Nat} (hdraws : program.Draws tree)
    (hplace : tree.isPlace = true) (hheight : tree.height ≤ steps) :
    program.placeWithin steps tree.id = .ok true := by
  induction steps generalizing tree with
  | zero => exact absurd tree.height_pos (by omega)
  | succ steps ih =>
    obtain ⟨id, node, children⟩ := tree
    have hids := hdraws.children_eq
    rw [Tree.isPlace, Tree.fold_mk, ← Tree.isPlace] at hplace
    rw [placeWithin]
    refine bind_eq_ok_iff.mpr ⟨node, hdraws.node_eq, ?_⟩
    cases node with
    | «variable» => rfl
    | index base place =>
      obtain ⟨base, place, rfl, rfl, rfl⟩ := Tree.exists_pair_of_ids hids
      exact ih (hdraws.child List.mem_cons_self) hplace
        (Tree.height_le_of_mem_children List.mem_cons_self hheight)
    | field record number =>
      obtain ⟨record, rfl, rfl⟩ := Tree.exists_single_of_ids hids
      exact ih (hdraws.child List.mem_cons_self) hplace
        (Tree.height_le_of_mem_children List.mem_cons_self hheight)
    | _ => cases hplace

/-- Trees of which no node has been claimed, and no node occurs twice. -/
structure Unclaimed (start : List NodeId) (trees : List Tree) : Prop where
  nodup : (trees.flatMap Tree.ids).Nodup
  fresh : (trees.flatMap Tree.ids).Disjoint start

namespace Unclaimed

variable {start : List NodeId} {tree : Tree} {trees : List Tree}

theorem head (hfree : Unclaimed start (tree :: trees)) :
    tree.ids.Nodup ∧ tree.ids.Disjoint start := by
  obtain ⟨hnodup, hfresh⟩ := hfree
  rw [List.flatMap_cons] at hnodup hfresh
  exact ⟨hnodup.of_append_left, (List.disjoint_append_left.mp hfresh).1⟩

theorem tail (hfree : Unclaimed start (tree :: trees)) :
    Unclaimed (tree.ids.reverse ++ start) trees := by
  obtain ⟨hnodup, hfresh⟩ := hfree
  rw [List.flatMap_cons] at hnodup hfresh
  refine ⟨hnodup.of_append_right,
    List.disjoint_append_right.mpr ⟨?_, (List.disjoint_append_left.mp hfresh).2⟩⟩
  exact fun id hid hid' => List.disjoint_of_nodup_append hnodup (List.mem_reverse.mp hid') hid

/-- The children of a tree whose root has been claimed last. -/
theorem children (hnodup : tree.ids.Nodup) (hfresh : tree.ids.Disjoint start) :
    tree.id ∉ start ∧ Unclaimed (tree.id :: start) tree.children := by
  obtain ⟨id, node, children⟩ := tree
  rw [Tree.ids_mk] at hnodup hfresh
  obtain ⟨hroot, hchildren⟩ := List.nodup_cons.mp hnodup
  obtain ⟨hfresh, hbelow⟩ := List.disjoint_cons_left.mp hfresh
  exact ⟨hfresh, hchildren, List.disjoint_cons_right.mpr ⟨hroot, hbelow⟩⟩

end Unclaimed

/-- When each tree of a row passes, the row passes. -/
theorem passes_forM {α : Type} {step : α → Checker PUnit} {root : α → Tree} {items : List α}
    (hstep : ∀ item ∈ items, ∀ start, (root item).ids.Nodup → (root item).ids.Disjoint start →
      Checker.Passes (step item) start ⟨⟩ ((root item).ids.reverse ++ start)) {start : List NodeId}
    (hfree : Unclaimed start (items.map root)) :
    Checker.Passes (items.forM step) start ⟨⟩
      (((items.map root).flatMap Tree.ids).reverse ++ start) := by
  induction items generalizing start with
  | nil => exact Checker.passes_forM_nil.mpr rfl
  | cons first rest ih =>
    obtain ⟨hfirst, hrest⟩ := List.forall_mem_cons.mp hstep
    rw [List.map_cons] at hfree ⊢
    refine Checker.passes_forM_cons.mpr ⟨_, hfirst start hfree.head.1 hfree.head.2, ?_⟩
    rw [List.flatMap_cons, List.reverse_append, List.append_assoc]
    exact ih hrest hfree.tail

theorem passes_checkExpressionWithin {tree : Tree} {steps : Nat} (hdraws : program.Draws tree)
    (hsound : program.SoundOperand tree) (hheight : tree.height ≤ steps) {start : List NodeId}
    (hnodup : tree.ids.Nodup) (hfresh : tree.ids.Disjoint start) :
    Checker.Passes (program.checkExpressionWithin steps tree.id) start ()
      (tree.ids.reverse ++ start) := by
  induction steps generalizing tree start with
  | zero => exact absurd tree.height_pos (by omega)
  | succ steps ih =>
    obtain ⟨id, node, children⟩ := tree
    obtain ⟨hroot, hfree⟩ := Unclaimed.children hnodup hfresh
    have hnode := hsound _ (Tree.mem_subtrees_self _)
    have hchildren :
        Checker.Passes (node.children.forM (program.checkExpressionWithin steps)) (id :: start) ()
        (((children.map fun child => child).flatMap Tree.ids).reverse ++ id :: start) := by
      rw [hdraws.children_eq, List.forM_eq_forM, List.forM_map]
      refine passes_forM (fun child hchild _ hnodup hfresh => ih (hdraws.child hchild)
        (fun below hbelow => hsound below (Tree.mem_subtrees_of_mem_children hchild hbelow))
        (Tree.height_mk_le_iff.mp hheight child hchild) hnodup hfresh) (by simpa using hfree)
    rw [List.map_id'] at hchildren
    simp only [Tree.ids_mk, List.reverse_cons, List.append_assoc, List.singleton_append,
      checkExpressionWithin, Checker.passes_bind, Checker.passes_ask, Checker.passes_require]
    refine ⟨⟨⟩, id :: start, passes_claim_of_not_mem (lt_size_of_node hdraws.node_eq) hroot, node,
      _, ⟨hdraws.node_eq, rfl⟩, ⟨⟩, _, ⟨by simpa using hnode.operand, rfl⟩, ?_⟩
    cases node with
    | «variable» read =>
      exact Checker.passes_bind.mpr ⟨⟨⟩, _, Checker.passes_require.mpr
        ⟨by simpa using hnode.variable_lt read rfl, rfl⟩, hchildren⟩
    | apply op operands ty =>
      exact Checker.passes_bind.mpr ⟨⟨⟩, _, Checker.passes_require.mpr
        ⟨by simpa using hnode.arity op operands ty rfl, rfl⟩, hchildren⟩
    | _ => exact hchildren

theorem passes_checkExpression {tree : Tree}
    (hdraws : program.Draws tree) (hsound : program.SoundOperand tree)
    {start : List NodeId} (hnodup : tree.ids.Nodup) (hfresh : tree.ids.Disjoint start) :
    Checker.Passes (program.checkExpression tree.id) start () (tree.ids.reverse ++ start) :=
  passes_checkExpressionWithin hdraws hsound
    ((hdraws.height_le hnodup).trans (Nat.le_succ _)) hnodup hfresh

theorem isPlace_of_draws {tree : Tree} (hdraws : program.Draws tree) (hplace : tree.isPlace = true)
    (hnodup : tree.ids.Nodup) : program.isPlace tree.id = .ok true :=
  placeWithin_of_isPlace hdraws hplace ((hdraws.height_le hnodup).trans (Nat.le_succ _))

/-! ### Statements -/

theorem nodup_of_unclaimed {start : List NodeId} {trees : List Tree} (hfree : Unclaimed start trees)
    {tree : Tree} (htree : tree ∈ trees) : tree.ids.Nodup :=
  (List.nodup_flatMap.mp hfree.nodup).1 tree htree

theorem passes_checkArgument {param : Param} {argument : Tree} (hdraws : program.Draws argument)
    (hsound : program.SoundOperand argument)
    (hplace : param.mode.writes = true → argument.isPlace = true) {start : List NodeId}
    (hnodup : argument.ids.Nodup) (hfresh : argument.ids.Disjoint start) :
    Checker.Passes (program.checkArgument param argument.id) start ()
      (argument.ids.reverse ++ start) := by
  have hchecked := passes_checkExpression hdraws hsound hnodup hfresh
  unfold checkArgument
  split
  · next hwrites =>
    simp only [Checker.passes_bind, Checker.passes_ask, Checker.passes_require]
    exact ⟨true, start, ⟨isPlace_of_draws hdraws (hplace hwrites) hnodup, rfl⟩, ⟨⟩, start,
      ⟨rfl, rfl⟩, hchecked⟩
  · exact hchecked

theorem passes_checkArguments {params : List Param} {arguments : List Tree}
    (hlength : params.length = arguments.length)
    (hdrawn : ∀ argument ∈ arguments, program.Draws argument)
    (hsound : ∀ argument ∈ arguments, program.SoundOperand argument)
    (hwritten : ∀ param argument, (param, argument) ∈ params.zip arguments →
      param.mode.writes = true → argument.isPlace = true) {start : List NodeId}
    (hfree : Unclaimed start arguments) :
    Checker.Passes ((params.zip (arguments.map Tree.id)).forM fun (param, argument) =>
      program.checkArgument param argument) start ()
      ((arguments.flatMap Tree.ids).reverse ++ start) := by
  have hzip : (params.zip arguments).map Prod.snd = arguments := List.map_snd_zip hlength.ge
  have hpassed : ∀ passed ∈ params.zip arguments, ∀ start, passed.2.ids.Nodup →
      passed.2.ids.Disjoint start →
        Checker.Passes (program.checkArgument passed.1 passed.2.id) start ⟨⟩
          (passed.2.ids.reverse ++ start) := fun passed hmem start hnodup hfresh =>
    have hargument := (List.of_mem_zip hmem).2
    passes_checkArgument (hdrawn _ hargument) (hsound _ hargument) (hwritten _ _ hmem) hnodup hfresh
  have hall := passes_forM hpassed (hzip.symm ▸ hfree)
  rw [hzip] at hall
  rw [List.zip_map_right, List.forM_eq_forM, List.forM_map]
  exact hall

theorem passes_checkStatement {statement : Tree} (hdraws : program.Draws statement)
    (hsound : program.Sound statement)
    (hoperands : ∀ operand ∈ statement.children, program.SoundOperand operand)
    (hsuits : program.Suits statement) {start : List NodeId}
    (hfree : Unclaimed start statement.children) :
    Checker.Passes (program.checkStatement statement.id) start ()
      ((statement.children.flatMap Tree.ids).reverse ++ start) := by
  have hdrawn : ∀ operand ∈ statement.children, program.Draws operand := fun operand => hdraws.child
  unfold checkStatement
  refine Checker.passes_bind.mpr ⟨_, _, Checker.passes_ask.mpr ⟨hdraws.node_eq, rfl⟩, ?_⟩
  cases hsound with
  | assign id target value mask hplace =>
    simp only [List.forall_mem_cons] at hoperands hdrawn
    have htarget : target.ids.Nodup := nodup_of_unclaimed hfree (by simp)
    have hboth :
        Checker.Passes (do program.checkExpression value.id; program.checkExpression target.id)
          start () (([value, target].flatMap Tree.ids).reverse ++ start) := by
      have hrest := hfree.tail
      refine Checker.passes_bind.mpr ⟨⟨⟩, _,
        passes_checkExpression hdrawn.1 hoperands.1 hfree.head.1 hfree.head.2, ?_⟩
      simpa using passes_checkExpression hdrawn.2.1 hoperands.2.1 hrest.head.1 hrest.head.2
    refine Checker.passes_bind.mpr ⟨_, _, Checker.passes_ask.mpr
      ⟨isPlace_of_draws hdrawn.2.1 hplace htarget, rfl⟩, ?_⟩
    refine Checker.passes_bind.mpr ⟨⟨⟩, _, Checker.passes_require.mpr ⟨rfl, rfl⟩, ?_⟩
    split
    · next hmask =>
      obtain ⟨ty, hty, hfull⟩ := hsuits hmask
      simp only [Checker.passes_bind, Checker.passes_ask, Checker.passes_require] at hboth ⊢
      exact ⟨ty, start, ⟨(hdrawn.2.1.typeOf_eq_ok_iff htarget).mpr hty, rfl⟩, ⟨⟩, start,
        ⟨beq_iff_eq.mpr hfull, rfl⟩, hboth⟩
    · exact hboth
  | call id callee arguments result signature hsignature hlength hwritten hresult =>
    have hlt : callee.index < program.signatures.size :=
      (Array.getElem?_eq_some_iff.mp (fetch_eq_ok_iff.mp hsignature)).choose
    simp only [Checker.passes_bind, Checker.passes_ask, Checker.passes_require, decide_eq_true_eq]
    refine ⟨⟨⟩, start, ⟨hlt, rfl⟩, signature, start, ⟨hsignature, rfl⟩, ⟨⟩, start,
      ⟨by simpa using hlength, rfl⟩, ⟨⟩, (arguments.flatMap Tree.ids).reverse ++ start, ?_, ?_⟩
    · obtain ⟨hnodup, hfresh⟩ := hfree
      rw [List.flatMap_append] at hnodup hfresh
      exact passes_checkArguments hlength
        (fun argument hmem => hdrawn argument (List.mem_append_left _ hmem))
        (fun argument hmem => hoperands argument (List.mem_append_left _ hmem)) hwritten
        ⟨hnodup.of_append_left, (List.disjoint_append_left.mp hfresh).1⟩
    · cases result with
      | none => exact Checker.passes_pure.mpr ⟨rfl, by simp⟩
      | some place =>
        have hplace : place ∈ arguments ++ [place] := by simp
        have hnodup := nodup_of_unclaimed hfree hplace
        simp only [Option.map_some, Checker.passes_bind, Checker.passes_ask, Checker.passes_require]
        refine ⟨true, _, ⟨isPlace_of_draws (hdrawn _ hplace) (hresult place rfl) hnodup, rfl⟩, ⟨⟩,
          _, ⟨rfl, rfl⟩, ⟨⟩, _, ⟨bne_iff_ne.mpr (hsuits signature hsignature), rfl⟩, ?_⟩
        have hfresh : place.ids.Disjoint ((arguments.flatMap Tree.ids).reverse ++ start) := by
          obtain ⟨hnodup, hfresh⟩ := hfree
          simp only [Option.toList_some, List.flatMap_append, List.flatMap_cons, List.flatMap_nil,
            List.append_nil] at hnodup hfresh
          refine List.disjoint_append_right.mpr
            ⟨fun id hid hid' => ?_, (List.disjoint_append_left.mp hfresh).2⟩
          exact List.disjoint_of_nodup_append hnodup (List.mem_reverse.mp hid') hid
        simpa using passes_checkExpression (hdrawn _ hplace) (hoperands _ hplace) hnodup hfresh
  | branch id condition thenBody elseBody =>
    simp only [List.forall_mem_cons] at hoperands hdrawn
    simp only [Checker.passes_bind, Checker.passes_ask, Checker.passes_require]
    refine ⟨.bool, start, ⟨(hdrawn.1.typeOf_eq_ok_iff hfree.head.1).mpr hsuits, rfl⟩, ⟨⟩, start,
      ⟨rfl, rfl⟩, ?_⟩
    simpa using passes_checkExpression hdrawn.1 hoperands.1 hfree.head.1 hfree.head.2
  | loop id body => exact Checker.passes_pure.mpr ⟨rfl, rfl⟩
  | ret id operand | discard id operand =>
    cases operand with
    | none => exact Checker.passes_forM_nil.mpr rfl
    | some operand =>
      simp only [Option.toList_some, List.forall_mem_cons] at hoperands hdrawn hfree
      refine Checker.passes_forM_cons.mpr ⟨_, passes_checkExpression hdrawn.1 hoperands.1
        hfree.head.1 hfree.head.2, Checker.passes_forM_nil.mpr (by simp)⟩

/-! ### Codes -/

/-- What passes is checked statement by statement, each with its bodies. -/
abbrev checkOne (program : Program) (steps : Nat) (statement : NodeId) : Checker Unit := do
  program.claim statement
  program.checkStatement statement
  (← Checker.ask (program.nestedLists statement)).forM (program.checkListWithin steps)

theorem passes_checkListWithin_iff {steps : Nat} {ref : ListRef}
    {statements start stop : List NodeId} (hlist : program.list ref = .ok statements) :
    Checker.Passes (program.checkListWithin (steps + 1) ref) start () stop ↔
      Checker.Passes (statements.forM (checkOne program steps)) start () stop := by
  unfold checkListWithin
  simp only [Checker.passes_bind, Checker.passes_ask, hlist, Except.ok.injEq]
  constructor
  · rintro ⟨_, _, ⟨rfl, rfl⟩, hpasses⟩
    exact hpasses
  · exact fun hpasses => ⟨_, _, ⟨rfl, rfl⟩, hpasses⟩

/-- A statement that is sound and has the types that it relies on. -/
structure Checks (program : Program) (statement : Tree) : Prop where
  sound : program.Sound statement
  operands : ∀ operand ∈ statement.children, program.SoundOperand operand
  suits : program.Suits statement

private theorem passes_checkOne {steps : Nat} {statement : Tree} (hdraws : program.Draws statement)
    (hchecks : program.Checks statement) {start stop : List NodeId} (hnodup : statement.ids.Nodup)
    (hfresh : statement.ids.Disjoint start) (hbodies : Checker.Passes
      ((statement.node.lists statement.id).forM (program.checkListWithin steps))
      (statement.ids.reverse ++ start) () stop) :
    Checker.Passes (checkOne program steps statement.id) start () stop := by
  obtain ⟨hroot, hfree⟩ := Unclaimed.children hnodup hfresh
  have hstatement := passes_checkStatement hdraws hchecks.sound hchecks.operands hchecks.suits hfree
  have hids : (statement.children.flatMap Tree.ids).reverse ++ statement.id :: start =
      statement.ids.reverse ++ start := by
    obtain ⟨id, node, children⟩ := statement
    simp
  rw [hids] at hstatement
  refine Checker.passes_bind.mpr ⟨⟨⟩, _,
    passes_claim_of_not_mem (lt_size_of_node hdraws.node_eq) hroot,
    Checker.passes_bind.mpr ⟨⟨⟩, _, hstatement, Checker.passes_bind.mpr ⟨_, _,
        Checker.passes_ask.mpr ⟨bind_eq_ok_iff.mpr ⟨_, hdraws.node_eq, rfl⟩, rfl⟩, hbodies⟩⟩⟩

theorem passes_forM_checkOne {code : Code} (hdraws : program.DrawsCode code)
    (hchecks : ∀ statement ∈ code.statements, program.Checks statement) {steps : Nat}
    (hdepth : code.depth ≤ steps) {start : List NodeId} (hnodup : code.ids.Nodup)
    (hfresh : code.ids.Disjoint start) :
    Checker.Passes (code.heads.forM (checkOne program steps)) start ()
      (code.ids.reverse ++ start) := by
  induction hdraws generalizing steps start with
  | nil => exact Checker.passes_forM_nil.mpr rfl
  | @step statement rest hstatement hlists _ ih =>
    obtain ⟨hfirst, hrest⟩ := List.forall_mem_cons.mp hchecks
    rw [Code.ids_step] at hnodup hfresh ⊢
    obtain ⟨hfresh, hfreshRest⟩ := List.disjoint_append_left.mp hfresh
    have hapart := List.disjoint_of_nodup_append hnodup
    rw [List.reverse_append, List.append_assoc]
    refine Checker.passes_forM_cons.mpr ⟨_, passes_checkOne hstatement hfirst
      hnodup.of_append_left hfresh (by rw [hlists]; exact Checker.passes_forM_nil.mpr rfl),
      ih hrest hdepth hnodup.of_append_right ?_⟩
    exact List.disjoint_append_right.mpr
      ⟨fun id hid hid' => hapart (List.mem_reverse.mp hid') hid, hfreshRest⟩
  | @branch statement condition thenBody elseBody rest hstatement hnode _ _ _ ihthen ihelse ih =>
    simp only [Code.statements, List.forall_mem_cons, List.forall_mem_append] at hchecks
    obtain ⟨hfirst, ⟨hthen, helse⟩, hrest⟩ := hchecks
    simp only [Code.depth] at hdepth
    obtain ⟨steps, rfl⟩ : ∃ inner, steps = inner + 1 := Nat.exists_eq_succ_of_ne_zero (by omega)
    have hfound := hnode ▸ hstatement.node_eq
    simp only [Code.ids_branch, List.nodup_append', List.disjoint_append_left,
      List.disjoint_append_right] at hnodup hfresh
    obtain ⟨hnodup, ⟨⟨hnodupThen, hnodupElse, hbodies⟩, hnodupRest, hthenRest, helseRest⟩,
      ⟨hownThen, hownElse⟩, hownRest⟩ := hnodup
    have hbody : Checker.Passes
        ((statement.node.lists statement.id).forM (program.checkListWithin (steps + 1)))
        (statement.ids.reverse ++ start) () (elseBody.ids.reverse ++ (thenBody.ids.reverse ++
          (statement.ids.reverse ++ start))) := by
      rw [hnode]
      refine Checker.passes_forM_cons.mpr ⟨_,
        (passes_checkListWithin_iff (list_thenBody hfound)).mpr
        (ihthen hthen (by omega) hnodupThen ?_), Checker.passes_forM_cons.mpr ⟨_,
          (passes_checkListWithin_iff (list_elseBody hfound)).mpr
            (ihelse helse (by omega) hnodupElse ?_), Checker.passes_forM_nil.mpr rfl⟩⟩
      · simpa using ⟨hownThen.symm, hfresh.2.1.1⟩
      · simpa using ⟨hbodies.symm, hownElse.symm, hfresh.2.1.2⟩
    have hfreshRest : rest.ids.Disjoint (elseBody.ids.reverse ++ (thenBody.ids.reverse ++
        (statement.ids.reverse ++ start))) := by
      simpa using ⟨helseRest.symm, hthenRest.symm, hownRest.symm, hfresh.2.2⟩
    have hids :
        (Code.branch statement thenBody elseBody rest).ids.reverse ++ start = rest.ids.reverse ++
        (elseBody.ids.reverse ++ (thenBody.ids.reverse ++ (statement.ids.reverse ++ start))) := by
            simp
    rw [hids]
    exact Checker.passes_forM_cons.mpr ⟨_, passes_checkOne hstatement hfirst hnodup hfresh.1 hbody,
      ih hrest (by omega) hnodupRest hfreshRest⟩
  | @loop statement body rest hstatement hnode _ _ ihbody ih =>
    simp only [Code.statements, List.forall_mem_cons, List.forall_mem_append] at hchecks
    obtain ⟨hfirst, hinner, hrest⟩ := hchecks
    simp only [Code.depth] at hdepth
    obtain ⟨steps, rfl⟩ : ∃ inner, steps = inner + 1 := Nat.exists_eq_succ_of_ne_zero (by omega)
    have hfound := hnode ▸ hstatement.node_eq
    simp only [Code.ids_loop, List.nodup_append', List.disjoint_append_left,
      List.disjoint_append_right] at hnodup hfresh
    obtain ⟨hnodup, ⟨hnodupBody, hnodupRest, hbodyRest⟩, hownBody, hownRest⟩ := hnodup
    have hbody :
        Checker.Passes ((statement.node.lists statement.id).forM
            (program.checkListWithin (steps + 1))) (statement.ids.reverse ++ start) ()
          (body.ids.reverse ++ (statement.ids.reverse ++ start)) := by
      rw [hnode]
      refine Checker.passes_forM_cons.mpr ⟨_,
        (passes_checkListWithin_iff (list_loopBody hfound)).mpr
        (ihbody hinner (by omega) hnodupBody ?_), Checker.passes_forM_nil.mpr rfl⟩
      simpa using ⟨hownBody.symm, hfresh.2.1⟩
    have hfreshRest : rest.ids.Disjoint (body.ids.reverse ++ (statement.ids.reverse ++ start)) := by
      simpa using ⟨hbodyRest.symm, hownRest.symm, hfresh.2.2⟩
    have hids : (Code.loop statement body rest).ids.reverse ++ start = rest.ids.reverse ++
        (body.ids.reverse ++ (statement.ids.reverse ++ start)) := by simp
    rw [hids]
    exact Checker.passes_forM_cons.mpr ⟨_, passes_checkOne hstatement hfirst hnodup hfresh.1 hbody,
      ih hrest (by omega) hnodupRest hfreshRest⟩

/-! ### Programs -/

theorem exists_passes_of_forM_checkOne {code : Code} (hdraws : program.DrawsCode code) {steps : Nat}
    {start stop : List NodeId}
    (hpasses : Checker.Passes (code.heads.forM (checkOne program steps)) start () stop) :
    ∀ statement ∈ code.statements, ∃ before after,
      Checker.Passes (program.checkStatement statement.id) before () after := by
  have hopen {statement : Tree} {rest : List NodeId} {steps : Nat} {start stop : List NodeId}
      (hdrawn : program.Draws statement) (hpasses : Checker.Passes
        ((statement.id :: rest).forM (checkOne program steps)) start () stop) :
      ∃ before after between, Checker.Passes (program.checkStatement statement.id) before () after ∧
        Checker.Passes ((statement.node.lists statement.id).forM (program.checkListWithin steps))
          after () between ∧
          Checker.Passes (rest.forM (checkOne program steps)) between () stop := by
    obtain ⟨between, hfirst, hrest⟩ := Checker.passes_forM_cons.mp hpasses
    simp only [Checker.passes_bind, Checker.passes_ask] at hfirst
    obtain ⟨⟨⟩, before, -, ⟨⟩, after, hstatement, refs, _, ⟨hrefs, rfl⟩, hbodies⟩ := hfirst
    obtain ⟨node, hnode, hlists⟩ := bind_eq_ok_iff.mp hrefs
    obtain rfl := Except.ok.inj (hdrawn.node_eq.symm.trans hnode)
    obtain rfl := Except.ok.inj hlists
    exact ⟨before, after, between, hstatement, hbodies, hrest⟩
  have hinner {ref : ListRef} {body : Code} {steps : Nat} {start stop : List NodeId}
      (hlist : program.list ref = .ok body.heads)
      (hpasses : Checker.Passes (program.checkListWithin steps ref) start () stop) :
      ∃ inner, Checker.Passes (body.heads.forM (checkOne program inner)) start () stop := by
    cases steps with
    | zero => exact absurd hpasses Checker.passes_throw
    | succ inner => exact ⟨inner, (passes_checkListWithin_iff hlist).mp hpasses⟩
  induction hdraws generalizing steps start stop with
  | nil => simp [Code.statements]
  | step hstatement _ _ ih =>
    obtain ⟨before, after, between, hfirst, -, hrest⟩ := hopen hstatement hpasses
    exact List.forall_mem_cons.mpr ⟨⟨before, after, hfirst⟩, ih hrest⟩
  | branch hstatement hnode _ _ _ ihthen ihelse ih =>
    obtain ⟨before, after, between, hfirst, hbodies, hrest⟩ := hopen hstatement hpasses
    have hfound := hnode ▸ hstatement.node_eq
    rw [hnode] at hbodies
    obtain ⟨_, hthen, hbodies⟩ := Checker.passes_forM_cons.mp hbodies
    obtain ⟨_, helse, -⟩ := Checker.passes_forM_cons.mp hbodies
    obtain ⟨_, hthen⟩ := hinner (list_thenBody hfound) hthen
    obtain ⟨_, helse⟩ := hinner (list_elseBody hfound) helse
    simp only [Code.statements, List.forall_mem_cons, List.forall_mem_append]
    exact ⟨⟨before, after, hfirst⟩, ⟨ihthen hthen, ihelse helse⟩, ih hrest⟩
  | loop hstatement hnode _ _ ihbody ih =>
    obtain ⟨before, after, between, hfirst, hbodies, hrest⟩ := hopen hstatement hpasses
    have hfound := hnode ▸ hstatement.node_eq
    rw [hnode] at hbodies
    obtain ⟨_, hbody, -⟩ := Checker.passes_forM_cons.mp hbodies
    obtain ⟨_, hbody⟩ := hinner (list_loopBody hfound) hbody
    simp only [Code.statements, List.forall_mem_cons, List.forall_mem_append]
    exact ⟨⟨before, after, hfirst⟩, ihbody hbody, ih hrest⟩

theorem suits_of_passes_checkStatement {statement : Tree} (hdraws : program.Draws statement)
    (hsound : program.Sound statement) {start stop : List NodeId}
    (hpasses : Checker.Passes (program.checkStatement statement.id) start () stop) :
    program.Suits statement := by
  unfold checkStatement at hpasses
  simp only [Checker.passes_bind, Checker.passes_ask] at hpasses
  obtain ⟨node, _, ⟨hnode, rfl⟩, hpasses⟩ := hpasses
  obtain rfl := Except.ok.inj (hdraws.node_eq.symm.trans hnode)
  cases hsound with
  | assign id target value mask hplace =>
    intro hmask
    simp only [Checker.passes_bind, Checker.passes_ask, Checker.passes_require] at hpasses
    obtain ⟨_, _, ⟨-, rfl⟩, _, _, ⟨-, rfl⟩, hpasses⟩ := hpasses
    rw [if_pos hmask] at hpasses
    simp only [Checker.passes_bind, Checker.passes_ask, Checker.passes_require] at hpasses
    obtain ⟨ty, _, ⟨hty, rfl⟩, _, _, ⟨hfull, -⟩, -⟩ := hpasses
    exact ⟨ty, (hdraws.child (by simp)).ty?_of_typeOf hty, beq_iff_eq.mp hfull⟩
  | call id callee arguments result signature hsignature hlength hwritten hresult =>
    cases result with
    | none => trivial
    | some place =>
      intro found hfound
      simp only [Option.map_some, Checker.passes_bind, Checker.passes_ask, Checker.passes_require]
        at hpasses
      obtain ⟨_, _, -, answer, _, ⟨hanswer, rfl⟩, _, _, -, _, _, -, _, _, -, _, _, -, _, _,
        ⟨hvoid, -⟩, -⟩ := hpasses
      obtain rfl := Except.ok.inj (hfound.symm.trans hanswer)
      exact bne_iff_ne.mp hvoid
  | branch id condition thenBody elseBody =>
    simp only [Checker.passes_bind, Checker.passes_ask, Checker.passes_require] at hpasses
    obtain ⟨ty, _, ⟨hty, rfl⟩, _, _, ⟨hbool, -⟩, -⟩ := hpasses
    obtain rfl := beq_iff_eq.mp hbool
    exact (hdraws.child (by simp)).ty?_of_typeOf hty
  | loop id body => trivial
  | ret id operand => trivial
  | discard id operand => trivial

theorem Outlines.suits_of_check {code : Code} (houtlines : program.Outlines code)
    (hcheck : program.check = .ok ()) : ∀ statement ∈ code.statements, program.Suits statement := by
  intro statement hstatement
  rw [check] at hcheck
  obtain ⟨⟨_, stop⟩, hpasses, -⟩ := map_eq_ok_iff.mp hcheck
  have hlist : program.list .root = .ok code.heads := congrArg Except.ok houtlines.body
  have hcode := (passes_checkListWithin_iff hlist).mp hpasses
  obtain ⟨before, after, hpasses⟩ :=
    exists_passes_of_forM_checkOne houtlines.draws hcode statement hstatement
  exact suits_of_passes_checkStatement (houtlines.draws.statement statement hstatement)
    (houtlines.sound statement hstatement) hpasses

theorem Outlines.check_of_suits {code : Code} (houtlines : program.Outlines code)
    (hsuits : ∀ statement ∈ code.statements, program.Suits statement) : program.check = .ok () := by
  have hdepth : code.depth ≤ program.nodes.size := by
    have hlength := length_le_size_of_nodup houtlines.nodup fun _ hid => houtlines.draws.lt_size hid
    exact code.depth_le_length_order.trans (code.order_sublist_ids.length_le.trans hlength)
  have hlist : program.list .root = .ok code.heads := congrArg Except.ok houtlines.body
  have hchecks : ∀ statement ∈ code.statements, program.Checks statement :=
    fun statement hstatement =>
    ⟨houtlines.sound statement hstatement, houtlines.operands statement hstatement,
      hsuits statement hstatement⟩
  have hpasses := (passes_checkListWithin_iff hlist).mpr (passes_forM_checkOne houtlines.draws
      hchecks hdepth houtlines.nodup (List.disjoint_nil_right _))
  exact map_eq_ok_iff.mpr ⟨_, hpasses, rfl⟩

/-- A program passes the check just when it has an outline whose statements have the types they rely
on. -/
theorem check_eq_ok_iff : program.check = .ok () ↔
    ∃ code, program.Outlines code ∧ ∀ statement ∈ code.statements, program.Suits statement := by
  constructor
  · intro hcheck
    obtain ⟨code, houtlines⟩ := exists_outlines_of_check hcheck
    exact ⟨code, houtlines, houtlines.suits_of_check hcheck⟩
  · rintro ⟨code, houtlines, hsuits⟩
    exact houtlines.check_of_suits hsuits

end Program

end ShaderIR
