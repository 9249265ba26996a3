import ShaderIR.Proofs.Crashes
import ShaderIR.Proofs.Pass.StatementEdits

/-!
Edits that do not crash. An edit asks for nodes that are still there, and for the types of what it
takes out. When a pass knows enough of a draft for those types (`Edit.Reliance`), its edits of
expressions and places do not crash (`Edit.Safe`), and neither does `Edit.editStatement` on a sound
statement (`Edit.returns_editStatement`).
-/

set_option autoImplicit false

namespace ShaderIR

/-! ### Additions -/

namespace Program

variable {program : Program} {cause : Crash}

theorem isExhausted_of_addNode {node : Node} (hcrash : program.addNode node = .error cause) :
    cause.IsExhausted := by
  unfold addNode at hcrash
  split at hcrash
  · cases hcrash
  · exact Except.error.inj hcrash ▸ trivial

theorem isExhausted_of_addVariable {added : Variable}
    (hcrash : program.addVariable added = .error cause) : cause.IsExhausted := by
  unfold addVariable at hcrash
  split at hcrash
  · cases hcrash
  · exact Except.error.inj hcrash ▸ trivial

theorem isExhausted_of_addTemporary {ty : Ty} (hcrash : program.addTemporary ty = .error cause) :
    cause.IsExhausted := by
  unfold addTemporary IdAllocator.allocate at hcrash
  split at hcrash
  · exact isExhausted_of_addVariable hcrash
  · exact Except.error.inj hcrash ▸ trivial

theorem isExhausted_of_addAssignment {target : VarId} {value : NodeId}
    (hcrash : program.addAssignment target value = .error cause) : cause.IsExhausted := by
  unfold addAssignment at hcrash
  cases hplace : program.addNode (.variable target) with
  | error earlier =>
    rw [hplace] at hcrash
    exact Except.error.inj hcrash ▸ isExhausted_of_addNode hplace
  | ok place =>
    rw [hplace] at hcrash
    exact isExhausted_of_addNode hcrash

end Program

open Program

namespace Edit

variable {κ : Type} {draft draft' : Draft κ}

/-! ### Steps -/

theorem returns_ask {α : Type} {request : Program → Except Crash α} {answer : α}
    (hrequest : request draft.program = .ok answer) :
    Walk.Returns (ask request : Edit κ α) draft := by
  unfold ask
  refine Walk.ReturnsUnless.bind Walk.returns_get fun _ _ hget => ?_
  obtain ⟨rfl, rfl⟩ := Walk.answers_get.mp hget
  exact Walk.returns_liftCrash_of_eq hrequest

/-- An addition crashes only if there is no id for what is added. -/
theorem returns_create {α : Type} {addition : Program → Except Crash (α × Program)}
    (hspared : ∀ cause, addition draft.program = .error cause → cause.IsExhausted) :
    Walk.Returns (create addition : Edit κ α) draft := by
  unfold create
  refine Walk.ReturnsUnless.bind Walk.returns_get fun _ _ hget => ?_
  obtain ⟨rfl, rfl⟩ := Walk.answers_get.mp hget
  refine Walk.ReturnsUnless.bind (Walk.returns_liftCrash.mpr hspared) fun _ _ _ => ?_
  exact Walk.ReturnsUnless.bind Walk.returns_modify fun _ _ _ => Walk.returns_pure

@[simp] theorem returns_addNode {node : Node} :
    Walk.Returns (create fun program => program.addNode node : Edit κ NodeId) draft :=
  returns_create fun _ => isExhausted_of_addNode

@[simp] theorem returns_addTemporary {ty : Ty} :
    Walk.Returns (create fun program => program.addTemporary ty : Edit κ VarId) draft :=
  returns_create fun _ => isExhausted_of_addTemporary

@[simp] theorem returns_setNode {id : NodeId} {node : Node} :
    Walk.Returns (setNode id node : Edit κ Unit) draft :=
  Walk.returns_modify

@[simp] theorem returns_markChanged : Walk.Returns (markChanged : Edit κ Unit) draft :=
  Walk.returns_modify

@[simp] theorem returns_readOf {id : VarId} : Walk.Returns (readOf id : Edit κ NodeId) draft :=
  returns_addNode

@[simp] theorem returns_takePending : Walk.Returns (takePending : Edit κ (List NodeId)) draft :=
  Walk.returns_modifyGet

theorem returns_changeNode {id : NodeId} {change : Node → Node} {node : Node}
    (hnode : draft.program.node id = .ok node) :
    Walk.Returns (changeNode id change : Edit κ Unit) draft :=
  Walk.ReturnsUnless.bind (returns_ask hnode) fun _ _ _ => Walk.returns_modify

theorem returns_materialize {id : NodeId} {ty : Ty} (hty : draft.program.typeOf id = .ok ty) :
    Walk.Returns (materialize id : Edit κ VarId) draft := by
  unfold materialize
  refine Walk.ReturnsUnless.bind (returns_ask hty) fun _ _ _ => ?_
  refine Walk.ReturnsUnless.bind returns_addTemporary fun _ _ _ => ?_
  refine Walk.ReturnsUnless.bind (returns_create fun _ => isExhausted_of_addAssignment)
    fun _ _ _ => ?_
  exact Walk.ReturnsUnless.bind Walk.returns_modify fun _ _ _ => Walk.returns_pure

/-! ### Operands and places -/

/-- What a pass relies on in a draft. Lifting keeps it, and it gives types to what is taken out. -/
structure Reliance (remembers : κ → Temporaries) (verdict : Verdict) (relevant : Tree → Prop)
    (relies : Draft κ → Prop) : Prop where
  congr : ∀ {draft draft' : Draft κ}, relies draft → draft'.program.vars = draft.program.vars →
    draft'.program.signatures = draft.program.signatures → draft'.memory = draft.memory →
      relies draft'
  kept : ∀ {draft draft' : Draft κ} {forest : List (Role × Tree)}
    {forest' : List Tree} {rows : List Row},
    Lifts remembers verdict draft draft' forest forest' rows → (∀ item ∈ forest, item.2.Linked) →
      (∀ item ∈ forest, ∀ below ∈ item.2.subtrees, relevant below) → relies draft → relies draft'
  typed : ∀ {draft draft' : Draft κ} {tree tree' : Tree} {rows : List Row},
    Lifts remembers verdict draft draft' [(.root, tree)] [tree'] rows → tree.Linked →
      (∀ below ∈ tree.subtrees, relevant below) → verdict tree ≠ none → relies draft →
        ∃ ty, tree'.ty? draft'.program = some ty

/-- From no draft that the pass can rely on does the edit of the tree crash. -/
def Safe {α : Type} (relies : Draft κ → Prop) (edit : NodeId → Edit κ α) (tree : Tree) : Prop :=
  ∀ draft, draft.program.Separate [tree] → relies draft → Walk.Returns (edit tree.id) draft

variable {remembers : κ → Temporaries} {verdict : Verdict} {relevant : Tree → Prop}
  {relies : Draft κ → Prop} (hreliance : Reliance remembers verdict relevant relies)

include hreliance

theorem Reliance.after {role : Role} {tree tree' : Tree} {rows : List Row}
    (hlifts : Lifts remembers verdict draft draft' [(role, tree)] [tree'] rows)
    (hdraws : draft.program.Draws tree) (hrelevant : ∀ below ∈ tree.subtrees, relevant below)
    (hrelies : relies draft) : relies draft' :=
  hreliance.kept hlifts (by simpa using hdraws.linked) (by simpa using hrelevant) hrelies

theorem returns_mapM {role : Role} {edit : NodeId → Edit κ NodeId} {trees : List Tree}
    (hedit : ∀ tree ∈ trees, Edits remembers verdict role edit tree)
    (hsafe : ∀ tree ∈ trees, Safe relies edit tree)
    (hrelevant : ∀ tree ∈ trees, ∀ below ∈ tree.subtrees, relevant below)
    (hseparate : draft.program.Separate trees)
    (hrelies : relies draft) : Walk.Returns ((trees.map Tree.id).mapM edit) draft := by
  induction trees generalizing draft with
  | nil =>
    rw [List.map_nil, List.mapM_nil]
    exact Walk.returns_pure
  | cons tree trees ih =>
    rw [List.forall_mem_cons] at hedit hsafe hrelevant
    rw [List.map_cons, List.mapM_cons]
    have hfirst := hseparate.left [tree]
    refine Walk.ReturnsUnless.bind (hsafe.1 draft hfirst hrelies) fun answer between hanswer => ?_
    obtain ⟨tree', rows, -, hlifts⟩ := hedit.1 draft answer between hfirst hanswer
    have hforest :
        draft.program.Separate (([(role, tree)] ++ trees.map (role, ·)).map Prod.snd) := by
      simpa [Function.comp_def] using hseparate
    have hlater : between.program.Separate trees := by
      simpa [Function.comp_def] using hlifts.separate hforest
    have hrelies' :=
      hreliance.after hlifts (hfirst.draws tree List.mem_cons_self) hrelevant.1 hrelies
    exact Walk.ReturnsUnless.bind (ih hedit.2 hsafe.2 hrelevant.2 hlater hrelies') fun _ _ _ =>
      Walk.returns_pure

/-- The children of a node are edited and written back. -/
theorem safe_editChildren {edit : NodeId → Edit κ NodeId} {tree : Tree}
    (hedit : ∀ child ∈ tree.children, Edits remembers verdict .value edit child)
    (hsafe : ∀ child ∈ tree.children, Safe relies edit child)
    (hrelevant : ∀ below ∈ tree.subtrees, relevant below) :
    Safe relies (editChildren edit) tree := by
  intro draft hseparate hrelies
  obtain ⟨hchildren, hroot⟩ := hseparate.children
  have hdraws := hseparate.draws tree List.mem_cons_self
  unfold editChildren
  refine Walk.ReturnsUnless.bind (returns_ask hdraws.node_eq) fun node _ hanswer => ?_
  obtain ⟨hnode, rfl⟩ := answers_ask.mp hanswer
  obtain rfl : tree.node = node := Except.ok.inj (hdraws.node_eq.symm.trans hnode)
  rw [hdraws.children_eq]
  refine Walk.ReturnsUnless.bind (returns_mapM hreliance hedit hsafe
    (fun child hchild below hbelow =>
      hrelevant below (Tree.mem_subtrees_of_mem_children hchild hbelow)) hchildren hrelies)
        fun answers between hmap => ?_
  obtain ⟨children, rows, -, hlifts⟩ := lifts_mapM hedit hchildren hmap
  have hframe := hlifts.grows.frame tree.id
    (Program.lt_size_of_node hnode) (by simpa [Function.comp_def] using hroot)
  exact returns_changeNode (hframe.trans hdraws.node_eq)

/-- What is taken out has a type when its children have been edited. -/
theorem returns_materialize_of_editChildren {edit : NodeId → Edit κ NodeId} {tree : Tree}
    (hedit : ∀ child ∈ tree.children, Edits remembers verdict .value edit child)
    (hrelevant : ∀ below ∈ tree.subtrees, relevant below)
    (hseparate : draft.program.Separate [tree])
    (hrelies : relies draft) (htaken : verdict tree ≠ none)
    (hanswers : Walk.Answers (editChildren edit tree.id) draft () draft') :
    Walk.Returns (materialize tree.id) draft' := by
  obtain ⟨tree', rows, hsame, hlifts⟩ := lifts_kept (Or.inl rfl) hedit hseparate hanswers
  obtain ⟨ty, hty⟩ :=
    hreliance.typed hlifts (hseparate.draws tree List.mem_cons_self).linked hrelevant htaken hrelies
  have hnodup : tree'.ids.Nodup := by
    have hmade := hlifts.grows.nodup
    rw [List.flatMap_append] at hmade
    simpa using hmade.of_append_right
  have hdraws := hlifts.grows.draws tree' (by simp)
  exact returns_materialize (hsame ▸ (hdraws.typeOf_eq_ok_iff hnodup).mpr hty)

/-- The indices in a place are edited, outermost first. -/
theorem safe_editPlace {limit : Nat} {edit : Nat → NodeId → Edit κ NodeId}
    (hedit : ∀ budget tree, Edits remembers verdict .value (edit budget) tree)
    (hsafe : ∀ budget tree, (∀ below ∈ tree.subtrees, relevant below) →
      Safe relies (edit budget) tree) (budget : Nat) {tree : Tree}
    (hplace : tree.isPlace = true) (hrelevant : ∀ below ∈ tree.subtrees, relevant below) :
    Safe relies (editPlace limit edit budget) tree := by
  induction budget generalizing tree with
  | zero => exact fun _ _ _ => Walk.returns_throw
  | succ budget ih =>
    intro draft hseparate hrelies
    have hdraws := hseparate.draws tree List.mem_cons_self
    obtain ⟨hchildren, hroot⟩ := hseparate.children
    have hbelow : ∀ child ∈ tree.children, ∀ below ∈ child.subtrees, relevant below :=
      fun child hchild below hmem =>
      hrelevant below (Tree.mem_subtrees_of_mem_children hchild hmem)
    obtain ⟨id, node, children⟩ := tree
    unfold editPlace
    refine Walk.ReturnsUnless.bind (returns_ask hdraws.node_eq) fun found _ hanswer => ?_
    obtain ⟨hfound, rfl⟩ := answers_ask.mp hanswer
    obtain rfl : node = found := Except.ok.inj (hdraws.node_eq.symm.trans hfound)
    have hids := hdraws.children_eq
    have hlt : id.index < draft.program.nodes.size := Program.lt_size_of_node hfound
    rw [Tree.isPlace, Tree.fold_mk, ← Tree.isPlace] at hplace
    cases node with
    | «variable» written => exact Walk.returns_pure
    | field recordId number =>
      obtain ⟨record, rfl, rfl⟩ := Tree.exists_single_of_ids hids
      exact ih hplace (hbelow record List.mem_cons_self) draft hchildren hrelies
    | index baseId positionId =>
      obtain ⟨base, position, rfl, rfl, rfl⟩ := Tree.exists_pair_of_ids hids
      have hpair : draft.program.Separate
          (([(Role.value, position)] ++ [(Role.place, base)]).map Prod.snd) :=
        hchildren.perm (List.Perm.swap _ _ _)
      have hposition : ∀ below ∈ position.subtrees, relevant below := hbelow position (by simp)
      have hfirst := hpair.left [position]
      refine Walk.ReturnsUnless.bind (hsafe budget position hposition draft hfirst hrelies)
        fun answer middle hanswers => ?_
      obtain ⟨position', rows, rfl, hlifts⟩ := hedit budget position draft _ middle hfirst hanswers
      have hgrows : draft.program.Grows middle.program position.ids rows [position'] := by
        simpa using hlifts.grows
      have hrootPosition : id ∉ position.ids := fun hmem => hroot (by simp [hmem])
      have hframe := (hgrows.frame id hlt hrootPosition).trans hfound
      refine Walk.ReturnsUnless.bind (returns_changeNode hframe) fun _ _ hchanged => ?_
      obtain ⟨node, hnode, rfl⟩ := answers_changeNode.mp hchanged
      obtain rfl : node = .index base.id position.id := Except.ok.inj (hnode.symm.trans hframe)
      have hset :=
        hgrows.setNode (.index base.id position'.id) (hgrows.not_mem_of_lt hlt hrootPosition)
      have hbaseDisjoint : ([base].flatMap Tree.ids).Disjoint (id :: position.ids) := by
        have hdisjoint := hpair.disjoint [position]
        have hrootBase : id ∉ base.ids := fun hmem => hroot (by simp [hmem])
        simp only [List.map_nil, List.flatMap_cons, List.flatMap_nil, List.append_nil]
          at hdisjoint ⊢
        exact List.disjoint_cons_right.mpr ⟨hrootBase, hdisjoint.symm⟩
      have hmiddle :=
        hreliance.after hlifts (hfirst.draws position List.mem_cons_self) hposition hrelies
      exact ih hplace (hbelow base List.mem_cons_self) _
        ((hpair.right [position]).of_grows hset hbaseDisjoint) (hreliance.congr hmiddle rfl rfl rfl)
    | _ => simp at hplace

/-! ### Statements -/

/-- No edit of a pass crashes on the expressions and places that concern it. -/
structure Rules.Safe (relevant : Tree → Prop) (relies : Draft κ → Prop) (rules : Rules κ) :
    Prop where
  value : ∀ tree, (∀ below ∈ tree.subtrees, relevant below) → Edit.Safe relies rules.value tree
  target : ∀ tree, tree.isPlace = true → (∀ below ∈ tree.subtrees, relevant below) →
    Edit.Safe relies rules.target tree
  operand : ∀ tree, (∀ below ∈ tree.subtrees, relevant below) → Edit.Safe relies rules.operand tree
  place : ∀ tree, tree.isPlace = true → (∀ below ∈ tree.subtrees, relevant below) →
    Edit.Safe relies rules.place tree

variable {valueRole : Role} {rules : Rules κ} (hlifting : rules.Lifting remembers verdict valueRole)
  (hrules : rules.Safe relevant relies)

include hlifting hrules

theorem returns_editArguments {params : List Param}
    {arguments : List Tree} (hlength : params.length = arguments.length)
    (hwritten : ∀ param argument, (param, argument) ∈ params.zip arguments →
      param.mode.writes = true → argument.isPlace = true)
    (hrelevant : ∀ argument ∈ arguments, ∀ below ∈ argument.subtrees, relevant below)
    (hseparate : draft.program.Separate arguments) (hrelies : relies draft) :
    Walk.Returns (editArguments rules params (arguments.map Tree.id)) draft := by
  induction params generalizing arguments draft with
  | nil =>
    obtain rfl := List.eq_nil_of_length_eq_zero hlength.symm
    exact Walk.returns_pure
  | cons param params ih =>
    cases arguments with
    | nil => simp at hlength
    | cons argument arguments =>
      rw [List.forall_mem_cons] at hrelevant
      have hsingle := hseparate.left [argument]
      have hdraws := hsingle.draws argument List.mem_cons_self
      have hrest {role : Role} {argument' : Tree} {rows : List Row} {between : Draft κ}
          (hlifts : Lifts remembers verdict draft between [(role, argument)] [argument'] rows) :
          Walk.Returns (editArguments rules params (arguments.map Tree.id)) between := by
        have hforest : draft.program.Separate
            (([(role, argument)] ++ arguments.map (role, ·)).map Prod.snd) := by
          simpa [Function.comp_def] using hseparate
        have hlater : between.program.Separate arguments := by
          simpa [Function.comp_def] using hlifts.separate hforest
        exact ih (by simpa using hlength) (fun param argument hmem =>
            hwritten param argument (List.mem_cons_of_mem _ hmem)) hrelevant.2 hlater
          (hreliance.after hlifts hdraws hrelevant.1 hrelies)
      rw [List.map_cons, editArguments]
      split
      · refine Walk.ReturnsUnless.bind (hrules.operand argument hrelevant.1 draft hsingle hrelies)
          fun answer between hfirst => ?_
        obtain ⟨argument', rows, -, hlifts⟩ :=
          hlifting.operand argument draft _ between hsingle hfirst
        exact Walk.ReturnsUnless.bind (hrest hlifts) fun _ _ _ => Walk.returns_pure
      · next hmode =>
        have hplace := hwritten param argument (by simp) (ParamMode.writes_iff.mpr hmode)
        refine Walk.ReturnsUnless.bind (hrules.place argument hplace hrelevant.1 draft hsingle
          hrelies) fun _ between hfirst => ?_
        refine Walk.ReturnsUnless.bind Walk.returns_pure fun _ _ hpure => ?_
        obtain ⟨-, rfl⟩ := Walk.answers_pure.mp hpure
        obtain ⟨argument', rows, -, hlifts⟩ := hlifting.place argument hplace draft _ hsingle hfirst
        exact Walk.ReturnsUnless.bind (hrest hlifts) fun _ _ _ => Walk.returns_pure

/-- The operands of a sound statement are edited, and it is written back. -/
theorem returns_editStatement {statement : Tree} (hsound : draft.program.Sound statement)
    (hseparate : draft.program.Separate [statement])
    (hrelevant : ∀ operand ∈ statement.children, ∀ below ∈ operand.subtrees, relevant below)
    (hrelies : relies draft) : Walk.Returns (editStatement rules statement.id) draft := by
  have hdraws := hseparate.draws statement List.mem_cons_self
  obtain ⟨hchildren, hroot⟩ := hseparate.children
  have hlt := Program.lt_size_of_node hdraws.node_eq
  -- a statement is still there when its only operand has been edited
  have hchange {operand : Tree} (hoperand : statement.children = [operand])
      (change : NodeId → Node → Node) :
      Walk.Returns (do
        let operand ← rules.operand operand.id
        changeNode statement.id (change operand)) draft := by
    rw [hoperand] at hchildren hroot hrelevant
    refine Walk.ReturnsUnless.bind (hrules.operand operand (hrelevant operand List.mem_cons_self)
      draft hchildren hrelies) fun answer between hanswer => ?_
    obtain ⟨operand', rows, -, hlifts⟩ := hlifting.operand operand draft _ between hchildren hanswer
    have hframe := hlifts.grows.frame statement.id hlt (by simpa using hroot)
    exact returns_changeNode (hframe.trans hdraws.node_eq)
  unfold editStatement
  refine Walk.ReturnsUnless.bind (returns_ask hdraws.node_eq) fun found _ hanswer => ?_
  obtain ⟨hfound, rfl⟩ := answers_ask.mp hanswer
  obtain rfl : statement.node = found := Except.ok.inj (hdraws.node_eq.symm.trans hfound)
  cases hsound with
  | assign id target value mask hplace =>
    have hpair :
        draft.program.Separate (([(valueRole, value)] ++ [(Role.place, target)]).map Prod.snd) :=
      hchildren
    have hsingle := hpair.left [value]
    have hvalue := hrelevant value (by simp)
    refine Walk.ReturnsUnless.bind (hrules.value value hvalue draft hsingle hrelies)
      fun answer between hfirst => ?_
    obtain ⟨value', rows, rfl, hlifts⟩ := hlifting.value value draft _ between hsingle hfirst
    exact Walk.ReturnsUnless.bind (hrules.target target hplace (hrelevant target (by simp)) between
      (hlifts.separate hpair) (hreliance.after hlifts (hsingle.draws value List.mem_cons_self)
        hvalue hrelies)) fun _ _ _ => returns_setNode
  | call id callee arguments result signature hsignature hlength hwritten hresult =>
    have harguments : ∀ argument ∈ arguments, ∀ below ∈ argument.subtrees, relevant below :=
      fun argument hmem => hrelevant argument (List.mem_append_left _ hmem)
    have hsingle := hchildren.left arguments
    unfold editCall
    refine Walk.ReturnsUnless.bind (returns_ask hsignature) fun _ _ hanswer => ?_
    obtain ⟨hfound, rfl⟩ := answers_ask.mp hanswer
    obtain rfl := Except.ok.inj (hsignature.symm.trans hfound)
    refine Walk.ReturnsUnless.bind
      (returns_editArguments hreliance hlifting hrules hlength hwritten harguments hsingle hrelies)
      fun answers between hedited => Walk.ReturnsUnless.bind ?_ fun _ _ _ => returns_setNode
    cases result with
    | none => exact Walk.returns_pure
    | some place =>
      obtain ⟨arguments', rows, -, hlifts⟩ :=
        exists_of_editArguments hlifting hlength hwritten hsingle hedited
      have hforest := Program.map_snd_parts (.call id callee arguments
        (some place) signature hsignature hlength hwritten hresult) valueRole
      rw [Program.parts_call hsignature hlength] at hforest
      have hboth : draft.program.Separate
          ((signature.roles.zip arguments ++ [(Role.place, place)]).map Prod.snd) :=
        hforest ▸ hchildren
      have hlater := hlifts.separate hboth
      have hmem {item : Role × Tree} (hitem : item ∈ signature.roles.zip arguments) :
          item.2 ∈ arguments := (List.of_mem_zip hitem).2
      have hafter := hreliance.kept hlifts (fun item hitem => (hsingle.draws _ (hmem hitem)).linked)
        (fun item hitem => harguments _ (hmem hitem)) hrelies
      exact Walk.ReturnsUnless.bind (hrules.place place (hresult place rfl)
        (hrelevant place (by simp)) between hlater hafter) fun _ _ _ => Walk.returns_pure
  | branch id condition thenBody elseBody =>
    exact hchange rfl fun operand node => node.withCondition operand
  | loop id body => exact Walk.returns_pure
  | ret id operand | discard id operand =>
    cases operand with
    | none => exact Walk.returns_pure
    | some operand => exact hchange rfl fun operand node => node.withOperand operand

end Edit

end ShaderIR
