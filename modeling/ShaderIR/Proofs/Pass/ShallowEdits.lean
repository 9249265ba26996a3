import ShaderIR.Proofs.Outcomes
import ShaderIR.Proofs.Pass.Expansion

/-!
Edits of statements that fit. All that an edit of one statement does is compared with the program at
its start, which a `Scope` names together with the nodes that the edit may overwrite:
`Draft.Evolved` says that this program has at most been trimmed since then, and nowhere else, and
that the statements that wait to be inserted are new and write whole places. An edit of expressions
is `Edit.Shallow` within a budget if it keeps this and never fails on an expression that fitted the
budget. `Edit.ShallowRules.ensures_editStatement` says the same of a whole statement, given rules
that are made of such edits.
-/

set_option autoImplicit false

namespace ShaderIR

open Program

variable {κ : Type}

/-! ### Where an edit starts -/

/-- The program at the start of an edit, and the nodes that the edit may overwrite; what stands
below one of them is an operand and may be overwritten as well, or it is a read of a variable. -/
structure Scope where
  origin : Program
  covers : NodeId → Prop
  operand : NodeId → Prop
  covers_of_operand : ∀ id, operand id → covers id
  closed : ∀ id node, covers id → origin.node id = .ok node →
    ∀ child ∈ node.children, operand child ∨ origin.Reads child

namespace Scope

variable {scope : Scope} {program : Program} {budget limit : Nat} {id child child' : NodeId}

/-- The expression is an operand that fitted the budget at first, or a read of a variable has taken
its place. -/
def StillFits (scope : Scope) (program : Program) (budget : Nat) (id : NodeId) : Prop :=
  scope.operand id ∧ scope.origin.Fits budget id ∨ 0 < budget ∧ program.Reads id

/-- The lvalue is an operand that fitted the budget at first, or a read of a variable has taken its
place. -/
def StillFitsPlace (scope : Scope) (program : Program) (budget : Nat) (id : NodeId) : Prop :=
  scope.operand id ∧ scope.origin.FitsPlace budget id ∨ 0 < budget ∧ program.Reads id

/-- The statement puts an operand, or what a variable holds, into a whole variable. -/
def Stows (scope : Scope) (program : Program) (statement : NodeId) : Prop :=
  ∃ target value, program.node statement = .ok (.assign target value 0) ∧ program.Reads target ∧
    (scope.operand value ∨ program.Reads value)

theorem Stows.writesWhole {statement : NodeId} (hstows : scope.Stows program statement) :
    program.WritesWhole statement := by
  obtain ⟨target, value, hnode, -⟩ := hstows
  exact ⟨target, value, hnode⟩

theorem StillFits.stowable (hfits : scope.StillFits program budget id) :
    scope.operand id ∨ program.Reads id :=
  hfits.imp And.left And.right

theorem StillFitsPlace.mono (hfits : scope.StillFitsPlace program budget id)
    (hle : budget ≤ limit) : scope.StillFitsPlace program limit id :=
  hfits.imp (And.imp_right fun hfits => hfits.mono hle) (And.imp_left fun hpos => hpos.trans_le hle)

theorem stillFits (htrims : scope.origin.Trims program)
    (hchild : scope.operand child ∨ scope.origin.Reads child)
    (hkeeps : program.Keeps child child') (hfits : scope.origin.Fits budget child) :
    scope.StillFits program budget child' := by
  rcases hkeeps with rfl | hreads
  · exact hchild.imp (fun hoperand => ⟨hoperand, hfits⟩) fun hreads =>
      ⟨hfits.pos, htrims.reads hreads⟩
  · exact Or.inr ⟨hfits.pos, hreads⟩

theorem stillFitsPlace (htrims : scope.origin.Trims program)
    (hchild : scope.operand child ∨ scope.origin.Reads child) (hkeeps : program.Keeps child child')
    (hfits : scope.origin.FitsPlace budget child) : scope.StillFitsPlace program budget child' := by
  rcases hkeeps with rfl | hreads
  · exact hchild.imp (fun hoperand => ⟨hoperand, hfits⟩) fun hreads =>
      ⟨hfits.pos, htrims.reads hreads⟩
  · exact Or.inr ⟨hfits.pos, hreads⟩

end Scope

/-! ### Drafts on the way -/

/-- The origin has at most been trimmed since, and only where the edit may overwrite nodes; its
lists are what they were; and the statements that wait to be inserted are new ones that stow
operands. -/
structure Draft.Evolved (scope : Scope) (draft : Draft κ) : Prop where
  trims : scope.origin.Trims draft.program
  frame : ∀ id node, scope.origin.node id = .ok node → ¬ scope.covers id →
    draft.program.node id = .ok node
  lists : ∀ ref statements, scope.origin.list ref = .ok statements →
    draft.program.list ref = .ok statements
  pending : ∀ statement ∈ draft.pending, scope.origin.nodes.size ≤ statement.index ∧
    scope.Stows draft.program statement
  nodup : draft.pending.Nodup

namespace Draft.Evolved

variable {scope : Scope} {draft : Draft κ}

theorem start (hprogram : draft.program = scope.origin) (hpending : draft.pending = []) :
    draft.Evolved scope where
  trims := hprogram ▸ .refl _
  frame _ _ hnode _ := hprogram ▸ hnode
  lists _ _ hlist := hprogram ▸ hlist
  pending := by simp [hpending]
  nodup := by simp [hpending]

variable (hevolved : draft.Evolved scope)

include hevolved

theorem setNode {id : NodeId} {node node' node'' : Node} (hcovers : scope.covers id)
    (hnode : scope.origin.node id = .ok node)
    (hcurrent : draft.program.node id = .ok node') (halike : node'.Alike node'')
    (hkeeps : List.Forall₂ draft.program.Keeps node.children node''.children) :
    Evolved scope { draft with program := draft.program.setNode id node'' } where
  trims := hevolved.trims.setNode hnode hcurrent (.alike halike) hkeeps
  frame other found hfound hother := by
    have hne : other ≠ id := fun hsame => hother (hsame ▸ hcovers)
    exact (Program.node_setNode_of_ne _ _ hne).trans (hevolved.frame other found hfound hother)
  lists ref statements hlist :=
    Program.list_setNode_of_alike hcurrent halike (hevolved.lists ref statements hlist)
  pending statement hmem := by
    obtain ⟨hnew, target, value, hassign, htarget, hvalue⟩ := hevolved.pending statement hmem
    have hne : statement ≠ id := by
      rintro rfl
      exact absurd (Program.lt_size_of_node hnode) (Nat.not_lt.mpr hnew)
    have hreads {read : NodeId} (hread : draft.program.Reads read) :
        (draft.program.setNode id node'').Reads read :=
      hread.setNode hcurrent (.alike halike)
    exact ⟨hnew, target, value, (Program.node_setNode_of_ne _ _ hne).trans hassign, hreads htarget,
      hvalue.imp_right hreads⟩
  nodup := hevolved.nodup

theorem withNode (node : Node) :
    Evolved scope { draft with program := (draft.program.withNode node) } where
  trims := hevolved.trims.withNode node
  frame id found hfound hid := (Program.node_withNode_of_lt _ _
    ((Program.lt_size_of_node hfound).trans_le hevolved.trims.size)).trans
    (hevolved.frame id found hfound hid)
  lists ref statements hlist := Program.list_withNode (hevolved.lists ref statements hlist) node
  pending statement hmem := by
    obtain ⟨hnew, target, value, hassign, htarget, hvalue⟩ := hevolved.pending statement hmem
    exact ⟨hnew, target, value,
      (Program.node_withNode_of_lt _ _ (Program.lt_size_of_node hassign)).trans hassign,
      htarget.withNode node, hvalue.imp_right fun hread => hread.withNode node⟩
  nodup := hevolved.nodup

theorem spares : scope.origin.Spares scope.covers draft.program := fun id node hnode hnot =>
  ⟨node, hevolved.frame id node hnode hnot, rfl⟩

theorem not_mem_pending : (⟨draft.program.nodes.size⟩ : NodeId) ∉ draft.pending := by
  intro hmem
  obtain ⟨-, target, value, hnode, -⟩ := hevolved.pending _ hmem
  exact Nat.lt_irrefl _ (Program.lt_size_of_node hnode)

end Draft.Evolved

/-- A later draft of the same statement; what was a read of a variable still is. -/
structure Draft.Advances (scope : Scope) (draft draft' : Draft κ) : Prop where
  evolved : draft'.Evolved scope
  reads : ∀ read, draft.program.Reads read → draft'.program.Reads read

namespace Draft

variable {scope : Scope} {draft draft₁ draft' : Draft κ}

theorem Evolved.refl (hevolved : draft.Evolved scope) : draft.Advances scope draft :=
  ⟨hevolved, fun _ => id⟩

theorem Advances.trans (hfirst : draft.Advances scope draft₁)
    (hsecond : draft₁.Advances scope draft') : draft.Advances scope draft' :=
  ⟨hsecond.evolved, fun read hreads => hsecond.reads read (hfirst.reads read hreads)⟩

theorem Advances.keeps (hadvances : draft.Advances scope draft') {child child' : NodeId}
    (hkeeps : draft.program.Keeps child child') : draft'.program.Keeps child child' :=
  hkeeps.imp_right (hadvances.reads child')

theorem Advances.stillFits (hadvances : draft.Advances scope draft') {budget : Nat} {id : NodeId}
    (hfits : scope.StillFits draft.program budget id) : scope.StillFits draft'.program budget id :=
  hfits.imp_right (And.imp_right (hadvances.reads id))

theorem Advances.stillFitsPlace (hadvances : draft.Advances scope draft') {budget : Nat}
    {id : NodeId} (hfits : scope.StillFitsPlace draft.program budget id) :
    scope.StillFitsPlace draft'.program budget id :=
  hfits.imp_right (And.imp_right (hadvances.reads id))

theorem Advances.setNode (hadvances : draft.Advances scope draft') {id : NodeId}
    {node node' node'' : Node} (hcovers : scope.covers id) (hnode : scope.origin.node id = .ok node)
    (hcurrent : draft'.program.node id = .ok node') (halike : node'.Alike node'')
    (hkeeps : List.Forall₂ draft'.program.Keeps node.children node''.children) :
    draft.Advances scope { draft' with program := draft'.program.setNode id node'' } where
  evolved := hadvances.evolved.setNode hcovers hnode hcurrent halike hkeeps
  reads read hreads := (hadvances.reads read hreads).setNode hcurrent (.alike halike)

theorem Advances.withNode (hadvances : draft.Advances scope draft') (node : Node) :
    draft.Advances scope { draft' with program := (draft'.program.withNode node) } where
  evolved := hadvances.evolved.withNode node
  reads read hreads := (hadvances.reads read hreads).withNode node

end Draft

namespace Edit

variable {draft : Draft κ} {bad : PassError → Draft κ → Prop}

/-! ### Steps -/

@[simp] theorem ensures_ask {α : Type}
    {request : Program → Except Crash α} {good : α → Draft κ → Prop} :
    Walk.Ensures (ask request) draft good bad ↔ ∀ answer, request draft.program = .ok answer →
      good answer draft := by
  simp [ask]

@[simp] theorem ensures_create {α : Type} {addition : Program → Except Crash (α × Program)}
    {good : α → Draft κ → Prop} : Walk.Ensures (create addition) draft good bad ↔
      ∀ created program, addition draft.program = .ok (created, program) →
        good created { draft with program } := by
  unfold create
  simp only [Walk.ensures_bind, Walk.ensures_get, Walk.ensures_liftCrash, Walk.ensures_modify,
    Walk.ensures_pure, Prod.forall]

theorem ensures_addNode {node : Node} {good : NodeId → Draft κ → Prop} (hgood : good
      ⟨draft.program.nodes.size⟩ { draft with program := draft.program.withNode node }) :
    Walk.Ensures (create fun program => program.addNode node) draft good bad := by
  refine ensures_create.mpr fun _ _ hadded => ?_
  obtain ⟨-, hsame⟩ := addNode_eq_ok_iff.mp hadded
  obtain ⟨rfl, rfl⟩ := Prod.mk.inj hsame
  exact hgood

theorem ensures_addTemporary {ty : Ty} {good : VarId → Draft κ → Prop} (hgood : good
      ⟨draft.program.vars.size⟩ { draft with program := draft.program.withTemporary ty }) :
    Walk.Ensures (create fun program => program.addTemporary ty) draft good bad := by
  refine ensures_create.mpr fun _ _ hadded => ?_
  obtain ⟨-, hsame⟩ := addTemporary_eq_ok_iff.mp hadded
  obtain ⟨rfl, rfl⟩ := Prod.mk.inj hsame
  exact hgood

theorem ensures_addAssignment {target : VarId} {value : NodeId} {good : NodeId → Draft κ → Prop}
    (hgood : good ⟨draft.program.nodes.size + 1⟩
      { draft with program := draft.program.withAssignment target value }) :
    Walk.Ensures (create fun program => program.addAssignment target value) draft good bad := by
  refine ensures_create.mpr fun _ _ hadded => ?_
  obtain ⟨-, hsame⟩ := addAssignment_eq_ok_iff.mp hadded
  obtain ⟨rfl, rfl⟩ := Prod.mk.inj hsame
  exact hgood

@[simp] theorem ensures_setNode {id : NodeId} {node : Node} {good : Unit → Draft κ → Prop} :
    Walk.Ensures (setNode id node) draft good bad ↔
      good () { draft with program := draft.program.setNode id node } :=
  Iff.rfl

@[simp] theorem ensures_changeNode {id : NodeId}
    {change : Node → Node} {good : Unit → Draft κ → Prop} :
    Walk.Ensures (changeNode id change) draft good bad ↔ ∀ node, draft.program.node id = .ok node →
      good () { draft with program := draft.program.setNode id (change node) } := by
  simp [changeNode]

@[simp] theorem ensures_markChanged {good : Unit → Draft κ → Prop} :
    Walk.Ensures markChanged draft good bad ↔ good () { draft with changed := true } :=
  Iff.rfl

@[simp] theorem ensures_takePending {good : List NodeId → Draft κ → Prop} :
    Walk.Ensures takePending draft good bad ↔ good draft.pending { draft with pending := [] } :=
  Iff.rfl

/-! ### Operands and places -/

/-- The edit never fails on an expression that fits the budget, and at most trims the program. -/
def Shallow (scope : Scope) (budget : Nat) (edit : NodeId → Edit κ NodeId) : Prop :=
  ∀ id draft, scope.StillFits draft.program budget id → draft.Evolved scope →
    Walk.Ensures (edit id) draft
      (fun id' draft' => draft.Advances scope draft' ∧ draft'.program.Keeps id id')
      fun _ _ => False

/-- The edit never fails on an lvalue that fits the budget, and at most trims the program. -/
def ShallowPlace (scope : Scope) (budget : Nat) (edit : NodeId → Edit κ Unit) : Prop :=
  ∀ id draft, scope.StillFitsPlace draft.program budget id → draft.Evolved scope →
    Walk.Ensures (edit id) draft (fun _ draft' => draft.Advances scope draft') fun _ _ => False

variable {scope : Scope} {limit budget : Nat}

theorem Shallow.mapM {edit : NodeId → Edit κ NodeId} (hedit : Shallow scope budget edit)
    {ids : List NodeId} (hfits : ∀ id ∈ ids, scope.StillFits draft.program budget id)
    (hevolved : draft.Evolved scope) : Walk.Ensures (ids.mapM edit) draft
      (fun ids' draft' => draft.Advances scope draft' ∧
        List.Forall₂ draft'.program.Keeps ids ids') fun _ _ => False := by
  refine (Walk.ensures_mapM (fun state => draft.Advances scope state)
    (fun id id' state => state.program.Keeps id id') (fun id hid state hstate => ?_)
    hevolved.refl).mono (fun ids' draft' hafter => ⟨hafter.1, hafter.2.1⟩) fun _ _ => False.elim
  refine (hedit id state (hstate.stillFits (hfits id hid)) hstate.evolved).mono ?_
    fun _ _ => False.elim
  rintro id' after ⟨hadvances, hkeeps⟩
  exact ⟨hstate.trans hadvances, hkeeps, fun _ _ => hadvances.keeps⟩

/-- The children of an expression that fits are edited without a failure. -/
theorem Shallow.editChildren {edit : NodeId → Edit κ NodeId} (hedit : Shallow scope budget edit)
    {id : NodeId} (hfits : scope.StillFits draft.program (budget + 1) id)
    (hevolved : draft.Evolved scope) : Walk.Ensures (editChildren edit id) draft
      (fun _ draft' => draft.Advances scope draft') fun _ _ => False := by
  unfold Edit.editChildren
  simp only [Walk.ensures_bind, ensures_ask, ensures_changeNode]
  intro node hnode
  rcases hfits with ⟨hoperand, first, hfirst, hchildren⟩ | ⟨-, read, hread⟩
  · have hcovers := scope.covers_of_operand id hoperand
    obtain ⟨found, hfound, hresembles, hkeeps⟩ := hevolved.trims.node id first hfirst
    obtain rfl := Except.ok.inj (hnode.symm.trans hfound)
    refine (hedit.mapM (fun child hchild => ?_) hevolved).mono ?_ fun _ _ => False.elim
    · obtain ⟨child₀, hchild₀, hkept⟩ := exists_of_forall₂ hkeeps.flip hchild
      exact Scope.stillFits hevolved.trims (scope.closed id first hcovers hfirst child₀ hchild₀)
        hkept (hchildren child₀ hchild₀)
    · rintro children' draft' ⟨hadvances, hkeeps'⟩ current hcurrent
      obtain ⟨found', hfound', hresembles', hkeeps''⟩ :=
        hadvances.evolved.trims.node id first hfirst
      obtain rfl := Except.ok.inj (hcurrent.symm.trans hfound')
      have hlength : children'.length = current.children.length := by
        rw [← hkeeps'.length_eq, ← hkeeps.length_eq, hkeeps''.length_eq]
      refine hadvances.setNode hcovers hfirst hcurrent (current.alike_refill hlength) ?_
      rw [Node.children_refill _ hlength]
      exact forall₂_keeps_trans (hkeeps.imp fun _ _ => hadvances.keeps) hkeeps'
  · obtain rfl := Except.ok.inj (hnode.symm.trans hread)
    refine Walk.ensures_pure.mpr fun current hcurrent => ?_
    obtain rfl := Except.ok.inj (hcurrent.symm.trans hread)
    change draft.Advances scope { draft with program := draft.program.setNode id (.variable read) }
    rw [setNode_self hread]
    exact hevolved.refl

/-- The indices inside an lvalue that fits are edited without a failure. -/
theorem shallow_editPlace {edit : Nat → NodeId → Edit κ NodeId}
    (hedit : ∀ budget, Shallow scope budget (edit budget)) :
    ShallowPlace scope budget (editPlace limit edit budget) := by
  induction budget with
  | zero =>
    rintro id draft (⟨-, hfits⟩ | ⟨hpos, -⟩)
    · exact hfits.elim
    · exact absurd hpos (Nat.lt_irrefl 0)
  | succ budget ih =>
    intro id draft hfits hevolved
    unfold Edit.editPlace
    simp only [Walk.ensures_bind, ensures_ask]
    intro node hnode
    rcases hfits with ⟨hoperand, first, hfirst, hparts⟩ | ⟨-, read, hread⟩
    · have hcovers := scope.covers_of_operand id hoperand
      obtain ⟨found, hfound, hresembles, hkeeps⟩ := hevolved.trims.node id first hfirst
      obtain rfl := Except.ok.inj (hnode.symm.trans hfound)
      cases hresembles with
      | branch | loop => exact hevolved.refl
      | alike halike =>
        cases halike with
        | index base place base' place' =>
          obtain ⟨hbase, hplace⟩ : draft.program.Keeps base base' ∧
            draft.program.Keeps place place' := by
            simpa [Node.children] using hkeeps
          simp only [Walk.ensures_bind, ensures_changeNode]
          have hbaseChild := scope.closed id _ hcovers hfirst base List.mem_cons_self
          have hplaceChild :=
            scope.closed id _ hcovers hfirst place (List.mem_cons_of_mem _ List.mem_cons_self)
          refine (hedit budget place' draft
            (Scope.stillFits hevolved.trims hplaceChild hplace hparts.1) hevolved).mono ?_
            fun _ _ => False.elim
          rintro position draft₁ ⟨hadvances, hposition⟩ current hcurrent
          obtain ⟨found', hfound', hresembles', hkeeps'⟩ :=
            hadvances.evolved.trims.node id _ hfirst
          obtain rfl := Except.ok.inj (hcurrent.symm.trans hfound')
          have halike' := hresembles'.toAlike fun _ => rfl
          cases halike' with
          | index _ _ base₁ place₁ =>
            have hbase₁ : draft₁.program.Keeps base base₁ := by
              simpa [Node.children] using (List.forall₂_cons.mp hkeeps').1
            have hset :=
              hadvances.setNode hcovers hfirst hcurrent (.index base₁ place₁ base₁ position)
              (.cons hbase₁ (.cons ((hadvances.keeps hplace).trans hposition) .nil))
            exact (ih base' _ (hset.stillFitsPlace (Scope.stillFitsPlace hevolved.trims hbaseChild
                  hbase hparts.2)) hset.evolved).mono (fun _ _ => hset.trans) fun _ _ => False.elim
        | field record record' =>
          have hrecord : draft.program.Keeps record record' := by simpa [Node.children] using hkeeps
          have hchild := scope.closed id _ hcovers hfirst record List.mem_cons_self
          exact ih record' draft
            (Scope.stillFitsPlace hevolved.trims hchild hrecord hparts) hevolved
        | _ => exact hevolved.refl
    · obtain rfl := Except.ok.inj (hnode.symm.trans hread)
      exact hevolved.refl

/-! ### Statements -/

/-- Rules that are made of edits which get through whatever fits the limit. -/
structure ShallowRules (scope : Scope) (limit : Nat) (rules : Rules κ) : Prop where
  value : Shallow scope limit rules.value
  target : ShallowPlace scope limit rules.target
  operand : Shallow scope limit rules.operand
  place : ShallowPlace scope limit rules.place

namespace ShallowRules

variable {rules : Rules κ} (hrules : ShallowRules scope limit rules)

include hrules

theorem ensures_editArguments {params : List Param} {arguments : List NodeId}
    (hfits : ∀ passed ∈ params.zip arguments, scope.origin.FitsPassed limit passed)
    (hchildren : ∀ argument ∈ arguments, scope.operand argument ∨ scope.origin.Reads argument)
    (hevolved : draft.Evolved scope) :
    Walk.Ensures (editArguments rules params arguments) draft (fun arguments' draft' =>
      draft.Advances scope draft' ∧ List.Forall₂ draft'.program.Keeps arguments arguments')
      fun _ _ => False := by
  induction params generalizing arguments draft with
  | nil =>
    unfold editArguments
    exact Walk.ensures_pure.mpr ⟨hevolved.refl, List.forall₂_same.mpr fun _ _ => Or.inl rfl⟩
  | cons param params ih =>
    cases arguments with
    | nil => exact Walk.ensures_pure.mpr ⟨hevolved.refl, .nil⟩
    | cons argument arguments =>
      rw [List.zip_cons_cons, List.forall_mem_cons] at hfits
      obtain ⟨hfirst, hrest⟩ := hfits
      obtain ⟨hchild, hchildren⟩ := List.forall_mem_cons.mp hchildren
      have hrest' : ∀ argument' between, draft.Advances scope between →
          between.program.Keeps argument argument' → Walk.Ensures
            (do return argument' :: (← editArguments rules params arguments)) between
            (fun arguments' draft' => draft.Advances scope draft' ∧
              List.Forall₂ draft'.program.Keeps (argument :: arguments) arguments')
            fun _ _ => False := by
        intro argument' between hadvances hkeeps
        simp only [Walk.ensures_bind, Walk.ensures_pure]
        refine (ih hrest hchildren hadvances.evolved).mono ?_ fun _ _ => False.elim
        rintro arguments' draft' ⟨hadvances', hkeeps'⟩
        exact ⟨hadvances.trans hadvances', .cons (hadvances'.keeps hkeeps) hkeeps'⟩
      unfold editArguments
      unfold FitsPassed at hfirst
      split
      · next hmode =>
        rw [if_pos hmode] at hfirst
        refine Walk.ensures_bind.mpr ((hrules.operand argument draft
          (Scope.stillFits hevolved.trims hchild (Or.inl rfl) hfirst) hevolved).mono ?_ fun _ _ =>
          False.elim)
        rintro argument' between ⟨hadvances, hkeeps⟩
        exact hrest' argument' between hadvances hkeeps
      · next hmode =>
        rw [if_neg hmode] at hfirst
        refine Walk.ensures_bind.mpr ((hrules.place argument draft
          (Scope.stillFitsPlace hevolved.trims hchild (Or.inl rfl) hfirst) hevolved).mono ?_
          fun _ _ => False.elim)
        exact fun _ between hadvances => hrest' argument between hadvances (Or.inl rfl)

omit hrules in
/-- A node of a statement that is edited is still like the one at the start, unless it owns
lists. -/
theorem exists_alike {id : NodeId} {node : Node} (hnode : scope.origin.node id = .ok node)
    (hlists : ∀ id, node.lists id = []) (hevolved : draft.Evolved scope) :
    ∃ node', draft.program.node id = .ok node' ∧ node.Alike node' := by
  obtain ⟨node', hnode', hresembles, -⟩ := hevolved.trims.node id node hnode
  exact ⟨node', hnode', hresembles.toAlike hlists⟩

theorem ensures_editCall {id : NodeId} {callee : SignatureId} {arguments : List NodeId}
    {result : Option NodeId} (hcovers : scope.covers id)
    (hnode : scope.origin.node id = .ok (.call callee arguments result))
    (hfits : scope.origin.FitsStatement limit id) (hevolved : draft.Evolved scope) :
    Walk.Ensures (editCall rules id callee arguments result) draft
      (fun _ draft' => draft'.Evolved scope) fun _ _ => False := by
  obtain ⟨found, hfound, hparts⟩ := hfits
  obtain rfl := Except.ok.inj (hnode.symm.trans hfound)
  obtain ⟨signature, hsignature, hpassed, -, hresult⟩ := hparts
  have hchildren := scope.closed id _ hcovers hnode
  unfold editCall
  simp only [Walk.ensures_bind, ensures_ask, ensures_setNode]
  intro found hfound
  obtain rfl : signature = found :=
    Except.ok.inj (hsignature.symm.trans ((hevolved.trims.signature_eq callee).symm.trans hfound))
  refine (hrules.ensures_editArguments hpassed (fun argument hargument =>
    hchildren argument (List.mem_append_left _ hargument)) hevolved).mono ?_ fun _ _ => False.elim
  rintro arguments' between ⟨hadvances, hkeeps⟩
  have hplaces : Walk.Ensures (result.toList.forM rules.place) between
      (fun _ draft' => between.Advances scope draft') fun _ _ => False := by
    refine Walk.ensures_forM (between.Advances scope) (fun target htarget state hstate => ?_)
      hadvances.evolved.refl
    have hfits :=
      Scope.stillFitsPlace hstate.evolved.trims (hchildren target (List.mem_append_right _ htarget))
      (Or.inl rfl) (hresult target (Option.mem_toList.mp htarget))
    exact (hrules.place target state hfits hstate.evolved).mono (fun _ _ => hstate.trans) fun _ _ =>
      False.elim
  refine hplaces.mono (fun _ draft' hadvances' => ?_) fun _ _ => False.elim
  obtain ⟨current, hcurrent, halike⟩ := exists_alike hnode (fun _ => rfl) hadvances'.evolved
  refine hadvances'.evolved.setNode hcovers hnode hcurrent
    (halike.symm.trans (.call _ _ _ _ _ hkeeps.length_eq rfl)) ?_
  exact List.rel_append (hkeeps.imp fun _ _ => hadvances'.keeps)
    (List.forall₂_same.mpr fun _ _ => Or.inl rfl)

/-- A statement whose operands fit is edited without a failure. -/
theorem ensures_editStatement {id : NodeId} (hcovers : scope.covers id)
    (hfits : scope.origin.FitsStatement limit id)
    (hprogram : draft.program = scope.origin) (hevolved : draft.Evolved scope) :
    Walk.Ensures (editStatement rules id) draft (fun _ draft' => draft'.Evolved scope)
      fun _ _ => False := by
  unfold editStatement
  simp only [Walk.ensures_bind, ensures_ask, hprogram]
  intro node hnode
  have hchildren := scope.closed id node hcovers hnode
  have hfits' := hfits
  obtain ⟨found, hfound, hparts⟩ := hfits'
  obtain rfl := Except.ok.inj (hnode.symm.trans hfound)
  cases node with
  | assign target value mask =>
    simp only [Walk.ensures_bind, ensures_setNode]
    have hvalue := hchildren value List.mem_cons_self
    have htarget := hchildren target (List.mem_cons_of_mem _ List.mem_cons_self)
    refine (hrules.value value draft (Scope.stillFits hevolved.trims hvalue (Or.inl rfl) hparts.1)
      hevolved).mono ?_ fun _ _ => False.elim
    rintro value' between ⟨hadvances, hkeeps⟩
    refine (hrules.target target between (Scope.stillFitsPlace hadvances.evolved.trims htarget
        (Or.inl rfl) hparts.2) hadvances.evolved).mono ?_ fun _ _ => False.elim
    intro _ draft' hadvances'
    obtain ⟨current, hcurrent, halike⟩ := exists_alike hnode (fun _ => rfl) hadvances'.evolved
    exact hadvances'.evolved.setNode hcovers hnode hcurrent (halike.symm.trans (.assign ..))
      (.cons (hadvances'.keeps hkeeps) (.cons (Or.inl rfl) .nil))
  | call callee arguments result => exact hrules.ensures_editCall hcovers hnode hfits hevolved
  | branch condition thenBody elseBody =>
    simp only [Walk.ensures_bind, ensures_changeNode]
    refine (hrules.operand condition draft (Scope.stillFits hevolved.trims
      (hchildren condition List.mem_cons_self) (Or.inl rfl) hparts) hevolved).mono ?_ fun _ _ =>
      False.elim
    rintro condition' draft' ⟨hadvances, hkeeps⟩ current hcurrent
    obtain ⟨found', hfound', hresembles, -⟩ := hadvances.evolved.trims.node id _ hnode
    obtain rfl := Except.ok.inj (hcurrent.symm.trans hfound')
    obtain ⟨condition₁, thenBody₁, elseBody₁, rfl⟩ : ∃ condition₁ thenBody₁ elseBody₁,
        current = .branch condition₁ thenBody₁ elseBody₁ := by
      cases hresembles with
      | alike halike => cases halike; exact ⟨_, _, _, rfl⟩
      | branch => exact ⟨_, _, _, rfl⟩
    exact hadvances.evolved.setNode hcovers hnode hcurrent (.branch ..) (.cons hkeeps .nil)
  | ret operand | discard operand =>
    cases operand with
    | none => exact hevolved
    | some operand =>
      simp only [Walk.ensures_bind, ensures_changeNode]
      refine (hrules.operand operand draft (Scope.stillFits hevolved.trims
        (hchildren operand List.mem_cons_self) (Or.inl rfl) (hparts operand rfl)) hevolved).mono ?_
        fun _ _ => False.elim
      rintro operand' draft' ⟨hadvances, hkeeps⟩ current hcurrent
      obtain ⟨found', hfound', halike⟩ := exists_alike hnode (fun _ => rfl) hadvances.evolved
      obtain rfl := Except.ok.inj (hcurrent.symm.trans hfound')
      cases halike
      next value hvalue =>
        obtain ⟨operand₁, rfl⟩ := Option.isSome_iff_exists.mp hvalue.symm
        exact hadvances.evolved.setNode hcovers hnode hcurrent (by constructor; rfl)
          (.cons hkeeps .nil)
  | _ => exact hevolved

end ShallowRules

end Edit

end ShaderIR
