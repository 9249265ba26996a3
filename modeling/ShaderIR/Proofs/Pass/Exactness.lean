import ShaderIR.Pass.ThreeAddress
import ShaderIR.Proofs.Pass.SharedProgram

/-!
Whether a pass has changed a program. Passes write nodes and lists back even where they have found
nothing. An edit is exact (`Edit.Exact`) if a draft that has not been marked as changed is what it
was, and one that has been marked has more variables. Both passes are made of exact edits, whatever
the program: `exact_hoistSubexpressions` and `exact_localCse`.
-/

set_option autoImplicit false

namespace ShaderIR

/-! ### Writing back -/

theorem Node.Alike.eq_of_children {node node' : Node}
    (halike : node.Alike node') (hchildren : node'.children = node.children) :
    node' = node := by
  cases halike with
  | texture op channel operands operands' ty hshape =>
    rw [TextureOperands.eq_of_shape hshape hchildren.symm]
  | call callee arguments arguments' result result' hlength hresult =>
    obtain ⟨rfl, hresult⟩ := List.append_inj hchildren hlength.symm
    cases result <;> cases result' <;> simp_all
  | ret value value' hvalue | discard value value' hvalue =>
    cases value <;> cases value' <;> simp_all [Node.children]
  | _ => simp_all [Node.children]

@[simp] theorem Node.refill_children (node : Node) : node.refill node.children = node := by
  obtain ⟨halike, hchildren⟩ := node.refill_spec rfl
  exact halike.eq_of_children hchildren

theorem Node.withBody_bodyAt (node : Node) (ref : ListRef) :
    node.withBody ref (node.bodyAt ref) = node := by
  cases node <;> cases ref <;> rfl

theorem Program.setList_self {program : Program} {ref : ListRef} {statements : List NodeId}
    (hlist : program.list ref = .ok statements) : program.setList ref statements = .ok program := by
  rcases exists_owner_of_list hlist with ⟨rfl, rfl⟩ | ⟨owner, node, hnode, href, rfl⟩
  · rfl
  · rw [setList_of_mem_lists hnode href, Node.withBody_bodyAt, setNode_self hnode]

theorem Program.vars_of_setList {program program' : Program} {ref : ListRef}
    {statements : List NodeId} (hset : program.setList ref statements = .ok program') :
    program'.vars = program.vars := by
  cases ref with
  | root =>
    cases hset
    rfl
  | thenBody owner | elseBody owner | loopBody owner =>
    obtain ⟨node, -, hset⟩ := bind_eq_ok_iff.mp hset
    split at hset
    · cases hset
      rfl
    · cases hset

/-! ### Drafts -/

variable {κ : Type}

/-- The draft has at least so many variables, and more if it has been marked as changed or if what a
pass remembers holds one. What waits to be inserted has changed the draft. -/
structure Draft.Counts (least : Nat) (held : κ → Prop) (draft : Draft κ) : Prop where
  least_le : least ≤ draft.program.vars.size
  grown : draft.changed = true ∨ held draft.memory → least < draft.program.vars.size
  waits : draft.pending ≠ [] → draft.changed = true

theorem Draft.counts_of_changed {least : Nat} {held : κ → Prop}
    {draft : Draft κ} (hchanged : draft.changed = true)
    (hlt : least < draft.program.vars.size) : draft.Counts least held :=
  ⟨hlt.le, fun _ => hlt, fun _ => hchanged⟩

theorem Draft.Counts.pending_eq {least : Nat} {held : κ → Prop}
    {draft : Draft κ} (hcounts : draft.Counts least held)
    (hchanged : draft.changed = false) : draft.pending = [] := by
  by_contra hpending
  rw [hcounts.waits hpending] at hchanged
  cases hchanged

/-- The node of a counted draft is overwritten, or one is added. -/
theorem Draft.Counts.congr {least : Nat} {held : κ → Prop} {draft draft' : Draft κ}
    (hcounts : draft.Counts least held) (hvars : draft'.program.vars = draft.program.vars)
    (hmemory : draft'.memory = draft.memory) (hpending : draft'.pending = draft.pending)
    (hchanged : draft'.changed = draft.changed) : draft'.Counts least held := by
  obtain ⟨hle, hgrown, hwaits⟩ := hcounts
  exact ⟨hvars ▸ hle, hvars ▸ hmemory ▸ hchanged ▸ hgrown, hpending ▸ hchanged ▸ hwaits⟩

namespace Edit

/-- The edit counts, and unless it marks its draft as changed, it leaves it alone and answers what
is expected. -/
def Exact {α : Type} (held : κ → Prop) (expected : α → Prop) (edit : Edit κ α) : Prop :=
  ∀ least draft, draft.Counts least held →
    Walk.Ensures edit draft (fun answer draft' => draft'.Counts least held ∧
    (draft'.changed = false → draft' = draft ∧ expected answer)) fun _ _ => True

variable {held : κ → Prop}

theorem exact_mapM {α β : Type} {step : α → Edit κ β} {expected : α → β} {items : List α}
    (hstep : ∀ item ∈ items, Exact held (· = expected item) (step item)) :
    Exact held (· = items.map expected) (items.mapM step) := by
  induction items with
  | nil =>
    intro least draft hcounts
    rw [List.mapM_nil]
    exact ⟨hcounts, fun _ => ⟨rfl, rfl⟩⟩
  | cons item items ih =>
    obtain ⟨hfirst, hrest⟩ := List.forall_mem_cons.mp hstep
    intro least draft hcounts
    simp only [List.mapM_cons, Walk.ensures_bind, Walk.ensures_pure]
    refine (hfirst least draft hcounts).mono (fun answer between hbetween => ?_)
      fun _ _ _ => trivial
    refine (ih hrest least between hbetween.1).mono
      (fun answers stop hstop => ⟨hstop.1, fun hchanged => ?_⟩) fun _ _ _ => trivial
    obtain ⟨rfl, rfl⟩ := hstop.2 hchanged
    obtain ⟨rfl, rfl⟩ := hbetween.2 hchanged
    exact ⟨rfl, rfl⟩

theorem exact_forM {α : Type} {step : α → Edit κ Unit} {items : List α}
    (hstep : ∀ item ∈ items, Exact held (fun _ => True) (step item)) :
    Exact held (fun _ => True) (items.forM step) := by
  induction items with
  | nil => exact fun _ _ hcounts => ⟨hcounts, fun _ => ⟨rfl, trivial⟩⟩
  | cons item items ih =>
    obtain ⟨hfirst, hrest⟩ := List.forall_mem_cons.mp hstep
    intro least draft hcounts
    refine Walk.ensures_bind.mpr ((hfirst least draft hcounts).mono (fun _ between hbetween => ?_)
      fun _ _ _ => trivial)
    refine (ih hrest least between hbetween.1).mono
      (fun _ stop hstop => ⟨hstop.1, fun hchanged => ?_⟩) fun _ _ _ => trivial
    obtain ⟨rfl, -⟩ := hstop.2 hchanged
    exact hbetween.2 hchanged

theorem exact_editChildren {edit : NodeId → Edit κ NodeId}
    (hedit : ∀ id, Exact held (· = id) (edit id)) (id : NodeId) :
    Exact held (fun _ => True) (editChildren edit id) := by
  intro least draft hcounts
  simp only [editChildren, Walk.ensures_bind, ensures_ask, ensures_changeNode]
  intro node hnode
  have hchildren :
      Exact held (· = node.children.map fun child => child) (node.children.mapM edit) :=
    exact_mapM fun child _ => hedit child
  refine (hchildren least draft hcounts).mono (fun answers between hbetween found hfound =>
    ⟨hbetween.1.congr rfl rfl rfl rfl, fun hchanged => ?_⟩) fun _ _ _ => trivial
  obtain ⟨rfl, rfl⟩ := hbetween.2 hchanged
  obtain rfl := Except.ok.inj (hnode.symm.trans hfound)
  rw [List.map_id', Node.refill_children, Program.setNode_self hnode]
  exact ⟨rfl, trivial⟩

theorem exact_editPlace {limit : Nat} {edit : Nat → NodeId → Edit κ NodeId}
    (hedit : ∀ budget id, Exact held (· = id) (edit budget id)) (budget : Nat) (id : NodeId) :
    Exact held (fun _ => True) (editPlace limit edit budget id) := by
  induction budget generalizing id with
  | zero => exact fun _ _ _ => trivial
  | succ budget ih =>
    intro least draft hcounts
    simp only [editPlace, Walk.ensures_bind, ensures_ask]
    intro node hnode
    split
    · next base place =>
      simp only [Walk.ensures_bind, ensures_changeNode]
      refine (hedit budget place least draft hcounts).mono
        (fun place' between hbetween found hfound => ?_) fun _ _ _ => trivial
      have hcounted : Draft.Counts least held
          { between with program := between.program.setNode id (found.withPlace place') } :=
        hbetween.1.congr rfl rfl rfl rfl
      refine (ih base least _ hcounted).mono (fun _ stop hstop => ⟨hstop.1, fun hchanged => ?_⟩)
        fun _ _ _ => trivial
      obtain ⟨rfl, -⟩ := hstop.2 hchanged
      obtain ⟨rfl, rfl⟩ := hbetween.2 hchanged
      obtain rfl := Except.ok.inj (hnode.symm.trans hfound)
      rw [Node.withPlace, Program.setNode_self hnode]
      exact ⟨rfl, trivial⟩
    · exact ih _ least draft hcounts
    · exact ⟨hcounts, fun _ => ⟨rfl, trivial⟩⟩

/-! ### Statements -/

/-- The rules of a pass are exact. -/
structure Rules.Exact (held : κ → Prop) (rules : Rules κ) : Prop where
  value : ∀ id, Edit.Exact held (· = id) (rules.value id)
  target : ∀ id, Edit.Exact held (fun _ => True) (rules.target id)
  operand : ∀ id, Edit.Exact held (· = id) (rules.operand id)
  place : ∀ id, Edit.Exact held (fun _ => True) (rules.place id)

variable {rules : Rules κ} (hrules : rules.Exact held)

include hrules

theorem exact_editArguments (params : List Param) (arguments : List NodeId) :
    Exact held (· = arguments) (editArguments rules params arguments) := by
  induction params generalizing arguments with
  | nil => exact fun _ _ hcounts => ⟨hcounts, fun _ => ⟨rfl, rfl⟩⟩
  | cons param params ih =>
    cases arguments with
    | nil => exact fun _ _ hcounts => ⟨hcounts, fun _ => ⟨rfl, rfl⟩⟩
    | cons argument arguments =>
      intro least draft hcounts
      have hrest :
          ∀ first between, between.Counts least held →
            (between.changed = false → between = draft ∧ first = argument) →
          Walk.Ensures (do return first :: (← editArguments rules params arguments)) between
            (fun answer draft' =>
              draft'.Counts least held ∧
                (draft'.changed = false → draft' = draft ∧ answer = argument :: arguments))
                fun _ _ => True := fun first between hbetween hfirst => by
          simp only [Walk.ensures_bind, Walk.ensures_pure]
          refine (ih arguments least between hbetween).mono
            (fun answers stop hstop => ⟨hstop.1, fun hchanged => ?_⟩) fun _ _ _ => trivial
          obtain ⟨rfl, rfl⟩ := hstop.2 hchanged
          obtain ⟨rfl, rfl⟩ := hfirst hchanged
          exact ⟨rfl, rfl⟩
      unfold editArguments
      split
      · exact Walk.ensures_bind.mpr ((hrules.operand argument least draft hcounts).mono
          (fun first between hbetween => hrest first between hbetween.1 hbetween.2)
            fun _ _ _ => trivial)
      · exact Walk.ensures_bind.mpr ((hrules.place argument least draft hcounts).mono
          (fun _ between hbetween =>
            hrest argument between hbetween.1 fun hchanged => ⟨(hbetween.2 hchanged).1, rfl⟩)
              fun _ _ _ => trivial)

theorem exact_editStatement (id : NodeId) :
    Exact held (fun _ => True) (editStatement rules id) := by
  intro least draft hcounts
  -- an operand is edited and written back to its statement
  have hchange {operand : NodeId} {node : Node} (hnode : draft.program.node id = .ok node)
      (change : NodeId → Node → Node) (hsame : change operand node = node) : Walk.Ensures (do
        let operand ← rules.operand operand
        changeNode id (change operand)) draft (fun _ draft' => draft'.Counts least held ∧
          (draft'.changed = false → draft' = draft ∧ True)) fun _ _ => True := by
    simp only [Walk.ensures_bind, ensures_changeNode]
    refine (hrules.operand operand least draft hcounts).mono
      (fun operand' after hafter found hfound =>
        ⟨hafter.1.congr rfl rfl rfl rfl, fun hchanged => ?_⟩) fun _ _ _ => trivial
    obtain ⟨rfl, rfl⟩ := hafter.2 hchanged
    obtain rfl := Except.ok.inj (hnode.symm.trans hfound)
    rw [hsame, Program.setNode_self hnode]
    exact ⟨rfl, trivial⟩
  simp only [editStatement, Walk.ensures_bind, ensures_ask]
  intro node hnode
  split
  · simp only [Walk.ensures_bind, ensures_setNode]
    refine (hrules.value _ least draft hcounts).mono (fun value' between hbetween => ?_)
      fun _ _ _ => trivial
    refine (hrules.target _ least between hbetween.1).mono (fun _ after hafter =>
      ⟨hafter.1.congr rfl rfl rfl rfl, fun hchanged => ?_⟩) fun _ _ _ => trivial
    obtain ⟨rfl, -⟩ := hafter.2 hchanged
    obtain ⟨rfl, rfl⟩ := hbetween.2 hchanged
    rw [Program.setNode_self hnode]
    exact ⟨rfl, trivial⟩
  · simp only [editCall, Walk.ensures_bind, ensures_ask, ensures_setNode]
    intro signature _
    refine (exact_editArguments hrules _ _ least draft hcounts).mono
      (fun arguments' between hbetween => ?_) fun _ _ _ => trivial
    refine (exact_forM (fun target _ => hrules.place target) least between hbetween.1).mono
      (fun _ after hafter =>
        ⟨hafter.1.congr rfl rfl rfl rfl, fun hchanged => ?_⟩) fun _ _ _ => trivial
    obtain ⟨rfl, -⟩ := hafter.2 hchanged
    obtain ⟨rfl, rfl⟩ := hbetween.2 hchanged
    rw [Program.setNode_self hnode]
    exact ⟨rfl, trivial⟩
  · exact hchange hnode (fun operand node => node.withCondition operand) rfl
  · exact hchange hnode (fun operand node => node.withOperand operand) rfl
  · exact hchange hnode (fun operand node => node.withOperand operand) rfl
  · exact ⟨hcounts, fun _ => ⟨rfl, trivial⟩⟩

omit hrules

/-- What goes into a new temporary changes the draft. -/
theorem ensures_materialize_counts {least : Nat} {draft : Draft κ}
    (hcounts : draft.Counts least held) (id : NodeId) :
    Walk.Ensures (materialize id) draft
      (fun _ draft' => least < draft'.program.vars.size ∧ draft'.changed = true)
      fun _ _ => True := by
  simp only [materialize, Walk.ensures_bind, ensures_ask, Walk.ensures_modify, Walk.ensures_pure]
  intro ty _
  have hsize : (draft.program.withTemporary ty).vars.size = draft.program.vars.size + 1 :=
    Array.size_push _
  exact ensures_addTemporary
    (ensures_addAssignment ⟨hsize ▸ Nat.lt_succ_of_le hcounts.least_le, trivial⟩)

end Edit

open Edit

/-! ### Three-address form -/

namespace ThreeAddress

/-- Hoisting remembers nothing. -/
abbrev Exact {α : Type} (expected : α → Prop) (edit : Hoisting α) : Prop :=
  Edit.Exact (fun _ => False) expected edit

theorem exact_hoistExpression (limit budget : Nat) (id : NodeId) :
    Exact (· = id) (hoistExpression limit budget id) := by
  induction budget generalizing id with
  | zero => exact fun _ _ _ => trivial
  | succ budget ih =>
    intro least draft hcounts
    simp only [hoistExpression, Walk.ensures_bind, ensures_ask]
    refine (exact_editChildren ih id least draft hcounts).mono (fun _ between hbetween node _ => ?_)
      fun _ _ _ => trivial
    split
    · rw [Walk.ensures_bind]
      refine (ensures_materialize_counts hbetween.1 id).mono (fun _ stop hstop => ?_)
        fun _ _ _ => trivial
      exact ensures_readOf ⟨Draft.counts_of_changed hstop.2 hstop.1,
        fun hchanged => absurd (hstop.2.symm.trans hchanged) (by simp)⟩
    · exact ⟨hbetween.1, fun hchanged => ⟨(hbetween.2 hchanged).1, rfl⟩⟩

theorem exact_hoistValue (limit budget : Nat) (id : NodeId) :
    Exact (· = id) (hoistValue limit budget id) := by
  intro least draft hcounts
  simp only [hoistValue, Walk.ensures_bind, ensures_ask]
  intro node _
  split
  · simp only [Walk.ensures_bind, Walk.ensures_pure]
    exact (exact_editChildren (exact_hoistExpression limit _) id least draft hcounts).mono
      (fun _ stop hstop => ⟨hstop.1, fun hchanged => ⟨(hstop.2 hchanged).1, trivial⟩⟩)
        fun _ _ _ => trivial
  · exact exact_hoistExpression limit budget id least draft hcounts

theorem exact_rules (limit budget : Nat) : (rules limit budget).Exact fun _ => False where
  value := exact_hoistValue limit budget
  target := exact_editPlace (exact_hoistExpression limit) budget
  operand := exact_hoistExpression limit budget
  place := exact_editPlace (exact_hoistExpression limit) budget

theorem exact_hoistList (limit budget : Nat) (ref : ListRef) :
    Exact (fun _ => True) (hoistList limit budget ref) := by
  induction budget generalizing ref with
  | zero => exact fun _ _ _ => trivial
  | succ budget ih =>
    -- an unchanged draft has nothing to put in front of a statement
    have hstatement : ∀ id : NodeId, Exact (· = [id]) (do
        editStatement (rules limit budget) id
        let hoisted ← takePending
        (← ask fun program => program.nestedLists id).forM (hoistList limit budget)
        return hoisted ++ [id]) := by
      intro id least draft hcounts
      simp only [Walk.ensures_bind, ensures_takePending, ensures_ask, Walk.ensures_pure]
      refine (exact_editStatement (exact_rules limit budget) id least draft hcounts).mono
        (fun _ between hbetween lists _ => ?_) fun _ _ _ => trivial
      have hcounted : Draft.Counts least (fun _ => False) { between with pending := [] } :=
        ⟨hbetween.1.least_le, hbetween.1.grown, fun hpending => absurd rfl hpending⟩
      refine (exact_forM (fun ref _ => ih ref) least _ hcounted).mono
        (fun _ stop hstop => ⟨hstop.1, fun hchanged => ?_⟩) fun _ _ _ => trivial
      obtain ⟨rfl, -⟩ := hstop.2 hchanged
      have hpending := hbetween.1.pending_eq hchanged
      obtain ⟨rfl, -⟩ := hbetween.2 hchanged
      obtain ⟨program, memory, pending, changed⟩ := between
      obtain rfl : pending = [] := hpending
      exact ⟨rfl, rfl⟩
    intro least draft hcounts
    simp only [hoistList, Walk.ensures_bind, ensures_ask, Walk.ensures_modify]
    intro statements hlist
    have hrows : Exact (· = statements.map fun id => [id]) (statements.mapM _) :=
      exact_mapM fun id _ => hstatement id
    refine (hrows least draft hcounts).mono (fun rows between hbetween program hset => ?_)
      fun _ _ _ => trivial
    have hsame : between.changed = false → between = draft ∧ program = draft.program := by
      intro hchanged
      obtain ⟨rfl, rfl⟩ := hbetween.2 hchanged
      rw [← List.flatMap_def, List.flatMap_singleton', Program.setList_self hlist] at hset
      exact ⟨rfl, (Except.ok.inj hset).symm⟩
    refine ⟨hbetween.1.congr ?_ rfl rfl rfl, fun hchanged => ?_⟩
    · exact Program.vars_of_setList hset
    · obtain ⟨rfl, rfl⟩ := hsame hchanged
      exact ⟨rfl, trivial⟩

end ThreeAddress

/-! ### Sharing -/

namespace SharingPlan

/-- Sharing remembers temporaries only. -/
abbrev Exact {α : Type} (expected : α → Prop) (edit : SharingEdit α) : Prop :=
  Edit.Exact (· ≠ []) expected edit

variable {plan : SharingPlan} {least : Nat} {draft : Draft Temporaries}

theorem lt_of_lookup (hcounts : draft.Counts least (· ≠ [])) {number : ValueNumber}
    {temporary : VarId} (hlookup : draft.memory.lookup number = some temporary) :
    least < draft.program.vars.size := by
  refine hcounts.grown (Or.inr fun hmemory => ?_)
  rw [hmemory] at hlookup
  cases hlookup

theorem exact_shareExpression (plan : SharingPlan) (budget : Nat) (id : NodeId) :
    Exact (· = id) (plan.shareExpression budget id) := by
  induction budget generalizing id with
  | zero => exact fun _ _ _ => trivial
  | succ budget ih =>
    intro least draft hcounts
    have hchildren := exact_editChildren ih id least draft hcounts
    unfold shareExpression
    split
    · simp only [Walk.ensures_bind, Walk.ensures_pure]
      exact hchildren.mono (fun _ stop hstop =>
        ⟨hstop.1, fun hchanged => ⟨(hstop.2 hchanged).1, trivial⟩⟩) fun _ _ _ => trivial
    · simp only [temporary?, Walk.ensures_bind, Walk.ensures_get, Walk.ensures_pure]
      split
      · next hlookup =>
        have hlt := lt_of_lookup hcounts hlookup
        simp only [Walk.ensures_bind, ensures_markChanged]
        exact ensures_readOf ⟨Draft.counts_of_changed rfl hlt,
          fun hchanged => (Bool.false_ne_true hchanged.symm).elim⟩
      · simp only [remember, Walk.ensures_bind, Walk.ensures_modify]
        refine hchildren.mono (fun _ between hbetween => ?_) fun _ _ _ => trivial
        refine (ensures_materialize_counts hbetween.1 id).mono (fun _ stop hstop => ?_)
          fun _ _ _ => trivial
        exact ensures_readOf ⟨Draft.counts_of_changed hstop.2 hstop.1,
          fun hchanged => absurd (hstop.2.symm.trans hchanged) (by simp)⟩

theorem exact_rules (plan : SharingPlan) : plan.rules.Exact (· ≠ []) where
  value := plan.exact_shareExpression plan.limit
  target := exact_editPlace plan.exact_shareExpression (plan.limit + 1)
  operand := plan.exact_shareExpression plan.limit
  place := exact_editPlace plan.exact_shareExpression plan.limit

theorem exact_shareStatement (plan : SharingPlan) (id : NodeId) :
    Exact (· = [id]) (plan.shareStatement id) := by
  intro least draft hcounts
  simp only [shareStatement, Walk.ensures_bind, ensures_ask]
  intro node _
  split
  · simp only [shareCall, temporary?, Walk.ensures_bind, Walk.ensures_get, Walk.ensures_pure]
    split
    · next hlookup =>
      simp only [copyTo, Walk.ensures_bind, ensures_markChanged, Walk.ensures_pure]
      refine (plan.exact_rules.place _ least draft hcounts).mono (fun _ stop hstop => ?_)
        fun _ _ _ => trivial
      have hlt : least < stop.program.vars.size := by
        cases hchanged : stop.changed with
        | true => exact hstop.1.grown (Or.inl hchanged)
        | false =>
          rw [(hstop.2 hchanged).1]
          exact lt_of_lookup hcounts hlookup
      exact ensures_readOf <| ensures_addNode ⟨Draft.counts_of_changed rfl hlt,
        fun hchanged => (Bool.false_ne_true hchanged.symm).elim⟩
    · simp only [copyTo, remember, Walk.ensures_bind, ensures_ask, ensures_setNode,
        Walk.ensures_modify, ensures_markChanged, Walk.ensures_pure]
      refine (exact_mapM (fun argument _ => plan.exact_rules.operand argument) least draft
        hcounts).mono (fun _ between hbetween => ?_) fun _ _ _ => trivial
      refine (plan.exact_rules.place _ least between hbetween.1).mono
        (fun _ stop hstop signature _ => ?_) fun _ _ _ => trivial
      have hsize :
          (stop.program.withTemporary signature.returnTy).vars.size = stop.program.vars.size + 1 :=
        Array.size_push _
      refine ensures_addTemporary <| ensures_readOf <| ensures_readOf <| ensures_addNode ?_
      exact ⟨Draft.counts_of_changed rfl (hsize ▸ Nat.lt_succ_of_le hstop.1.least_le),
        fun hchanged => (Bool.false_ne_true hchanged.symm).elim⟩
  · exact ⟨hcounts, fun _ => ⟨rfl, rfl⟩⟩
  · simp only [Walk.ensures_bind, Walk.ensures_pure]
    exact (exact_editStatement plan.exact_rules id least draft hcounts).mono (fun _ stop hstop =>
        ⟨hstop.1, fun hchanged => ⟨(hstop.2 hchanged).1, trivial⟩⟩) fun _ _ _ => trivial

theorem splice_self {statements : List NodeId} {place : Nat}
    {id : NodeId} (hplace : statements.idxOf? id = some place) :
    statements.take place ++ [id] ++ statements.drop (place + 1) = statements := by
  obtain ⟨hlt, hget, -⟩ := List.findIdx?_eq_some_iff_getElem.mp hplace
  obtain rfl : statements[place] = id := eq_of_beq hget
  rw [List.append_assoc, List.singleton_append, List.getElem_cons_drop, List.take_append_drop]

theorem replaceIn_self (range : BlockRange) (id : NodeId) : replaceIn range id [id] = range := by
  obtain ⟨list, first, last⟩ := range
  simp only [replaceIn, List.headD_cons, BlockRange.mk.injEq, true_and]
  constructor <;> split <;> simp_all

theorem exact_shareInRange (plan : SharingPlan) (range : BlockRange) (id : NodeId) :
    Exact (· = range) (plan.shareInRange range id) := by
  intro least draft hcounts
  simp only [shareInRange, Walk.ensures_bind, ensures_ask]
  intro found hfound
  split
  · exact ⟨hcounts, fun _ => ⟨rfl, rfl⟩⟩
  · next place =>
    obtain ⟨statements, hlist, hposition⟩ := bind_eq_ok_iff.mp hfound
    have hplace : statements.idxOf? id = some place := Except.ok.inj hposition
    simp only [Walk.ensures_bind, Walk.ensures_attempt, ensures_takePending, ensures_ask,
      Walk.ensures_modify, Walk.ensures_liftExcept, Walk.ensures_pure]
    refine (plan.exact_shareStatement id least draft hcounts).mono
      (fun row stop hstop current hcurrent program hset =>
        ⟨fun _ _ => ⟨?_, fun hchanged => ?_⟩, by simp⟩) fun failure stop _ => by simp
    · have hvars := Program.vars_of_setList hset
      exact ⟨hvars ▸ hstop.1.least_le, hvars ▸ hstop.1.grown, fun h => absurd rfl h⟩
    · have hpending := hstop.1.pending_eq hchanged
      obtain ⟨rfl, rfl⟩ := hstop.2 hchanged
      obtain rfl := Except.ok.inj (hlist.symm.trans hcurrent)
      simp only [hpending, Except.toOption, Option.getD_some, List.nil_append] at hset ⊢
      rw [splice_self hplace, Program.setList_self hlist] at hset
      obtain rfl := Except.ok.inj hset
      exact ⟨by rw [← hpending], replaceIn_self range id⟩

theorem exact_shareRange (plan : SharingPlan) (range : BlockRange) :
    Exact (· = range) (plan.shareRange range) := by
  intro least draft hcounts
  simp only [shareRange, Walk.ensures_bind, ensures_ask]
  intro statements _
  refine Walk.ensures_foldlM (fun value between => between.Counts least (· ≠ []) ∧
    (between.changed = false → between = draft ∧ value = range))
    (fun id _ value between hbetween => ?_) ⟨hcounts, fun _ => ⟨rfl, rfl⟩⟩
  refine (plan.exact_shareInRange value id least between hbetween.1).mono (fun answer stop hstop =>
    ⟨hstop.1, fun hchanged => ?_⟩) fun _ _ _ => trivial
  obtain ⟨rfl, rfl⟩ := hstop.2 hchanged
  exact hbetween.2 hchanged

end SharingPlan

/-! ### Whole passes -/

/-- A program with a graph has at least so many variables, and more if it has been changed through
the graph. -/
structure Workspace.Counts (least : Nat) (workspace : Workspace) : Prop where
  least_le : least ≤ workspace.program.vars.size
  grown : workspace.graph.changed = true → least < workspace.program.vars.size

theorem exact_shareBlock {config : Config} {least : Nat} {workspace : Workspace}
    (hcounts : workspace.Counts least) (id : BlockId) (numbering : Numbering) :
    Walk.Ensures (shareBlock id numbering config) workspace
      (fun _ workspace' => workspace'.Counts least ∧
        (workspace'.graph.changed = false → workspace.graph.changed = false ∧
          workspace'.program = workspace.program)) fun _ _ => True := by
  unfold shareBlock
  dsimp only
  split
  · exact ⟨hcounts, fun hchanged => ⟨hchanged, rfl⟩⟩
  · simp only [Walk.ensures_bind, Walk.ensures_get, Walk.ensures_liftCrash, Walk.ensures_modify,
      Walk.ensures_liftExcept, Walk.ensures_pure]
    rintro block - ⟨outcome, draft⟩ hwalk
    refine ⟨fun ranges hranges graph hgraph => ?_, fun _ _ => trivial⟩
    obtain rfl : outcome = .ok ranges := hranges
    have hstart : Draft.Counts workspace.program.vars.size (· ≠ [])
        ({ program := workspace.program, memory := [] } : Draft Temporaries) :=
      ⟨le_rfl, by simp, by simp⟩
    obtain ⟨hdraft, hsame⟩ := (exact_mapM (fun range _ =>
      (SharingPlan.ofNumbering numbering config).exact_shareRange range) _ _
        hstart).of_answers hwalk
    refine ⟨⟨hcounts.least_le.trans hdraft.least_le, fun hchanged => ?_⟩, fun hchanged => ?_⟩
    · rw [Bool.or_eq_true, Graph.changed_modifyBlock hgraph] at hchanged
      rcases hchanged with hchanged | hchanged
      · exact (hcounts.grown hchanged).trans_le hdraft.least_le
      · exact hcounts.least_le.trans_lt (hdraft.grown (Or.inl hchanged))
    · rw [Bool.or_eq_false_iff, Graph.changed_modifyBlock hgraph] at hchanged
      exact ⟨hchanged.1, congrArg Draft.program (hsame hchanged.2).1⟩

theorem exact_shareBlocks {config : Config} {least : Nat} {workspace : Workspace}
    (hcounts : workspace.Counts least) (numberings : List (BlockId × Numbering)) :
    Walk.Ensures (shareBlocks numberings config) workspace
      (fun _ workspace' => workspace'.Counts least ∧
        (workspace'.graph.changed = false → workspace.graph.changed = false ∧
          workspace'.program = workspace.program)) fun _ _ => True := by
  refine Walk.ensures_forM (fun workspace' : Workspace => workspace'.Counts least ∧
    (workspace'.graph.changed = false →
    workspace.graph.changed = false ∧ workspace'.program = workspace.program))
    (fun entry _ between hbetween => ?_) ⟨hcounts, fun hchanged => ⟨hchanged, rfl⟩⟩
  simp only [Walk.ensures_bind, Walk.ensures_pure]
  refine (exact_shareBlock hbetween.1 entry.1 entry.2).mono
    (fun _ stop hstop => ⟨hstop.1, fun hchanged => ?_⟩) fun _ _ => id
  obtain ⟨hbetweenChanged, hprogram⟩ := hstop.2 hchanged
  exact ⟨(hbetween.2 hbetweenChanged).1, hprogram.trans (hbetween.2 hbetweenChanged).2⟩

theorem Graph.changed_mergeWithin {program : Program} {merges merged : Nat} {graph graph' : Graph}
    (hmerge : mergeWithin program merges graph = .ok (merged, graph')) :
    graph'.changed = graph.changed := by
  induction merges generalizing graph merged with
  | zero =>
    cases hmerge
    rfl
  | succ merges ih =>
    rw [mergeWithin] at hmerge
    obtain ⟨candidate, -, hmerge⟩ := bind_eq_ok_iff.mp hmerge
    cases candidate with
    | none =>
      cases hmerge
      rfl
    | some candidate =>
      obtain ⟨absorbed, habsorb, hmerge⟩ := bind_eq_ok_iff.mp hmerge
      obtain ⟨⟨later, last⟩, hlater, hmerge⟩ := bind_eq_ok_iff.mp hmerge
      cases hmerge
      obtain ⟨between, hfold, hmodify⟩ := bind_eq_ok_iff.mp habsorb
      exact (ih hlater).trans ((changed_modifyBlock hmodify).trans
        ((changed_foldlM (fun _ _ _ => changed_modifyBlock) hfold).trans rfl))

theorem Graph.changed_of_build {program : Program} {config : Config} {graph : Graph}
    (hbuild : Query.Answers (Graph.build program config) graph) : graph.changed = false := by
  simp only [build, linked, Query.answers_bind, Query.answers_liftCrash, Query.answers_pure]
    at hbuild
  obtain ⟨unmerged, ⟨ranges, -, edges, -, hfold⟩, ⟨merges, merged⟩, hmerge, _, -, rfl⟩ := hbuild
  refine (changed_mergeWithin hmerge).trans ?_
  refine (changed_foldlM (fun graph edge graph' hconnect => ?_)
    (Query.answers_foldlM_liftCrash.mp hfold)).trans rfl
  obtain ⟨between, hfirst, hsecond⟩ := bind_eq_ok_iff.mp hconnect
  exact (changed_modifyBlock hsecond).trans (changed_modifyBlock hfirst)

/-- A pass that answers has changed the program exactly if it says so, and has then created a
variable. -/
def Program.ChangesExactly (program : Program) (changed : Bool) (program' : Program) : Prop :=
  (changed = false → program' = program) ∧ (changed = true → program.vars.size < program'.vars.size)

variable {program program' : Program} {changed : Bool}

theorem exact_localCse {config : Config}
    (hshare : Walk.Answers (localCse config) program changed program') :
    program.ChangesExactly changed program' := by
  obtain ⟨graph, numberings, workspace, hbuild, -, hwalk, rfl, rfl⟩ :=
    Program.exists_of_eliminateRepeated (Program.answers_localCse_iff.mp hshare)
  have hstart : Workspace.Counts program.vars.size ⟨program, graph⟩ :=
    ⟨le_rfl, fun hchanged => absurd ((Graph.changed_of_build hbuild).symm.trans hchanged) (by simp)⟩
  obtain ⟨hcounts, hsame⟩ := (exact_shareBlocks hstart numberings).of_answers hwalk
  exact ⟨fun hchanged => (hsame hchanged).2, hcounts.grown⟩

theorem exact_hoistSubexpressions {limit : Nat}
    (hhoist : Walk.Answers (hoistSubexpressions limit) program changed program') :
    program.ChangesExactly changed program' := by
  unfold hoistSubexpressions at hhoist
  simp only [Walk.answers_bind, Walk.answers_get, Walk.answers_attempt] at hhoist
  obtain ⟨_, _, ⟨rfl, rfl⟩, outcome, _, hdepth, hhoist⟩ := hhoist
  cases outcome with
  | error failure => simp at hhoist
  | ok =>
    simp only [Walk.answers_bind, Walk.answers_liftCrash, Walk.answers_set, Walk.answers_liftExcept,
      Walk.answers_pure] at hhoist
    obtain ⟨⟨_, draft⟩, _, ⟨hlist, rfl⟩, ⟨⟩, _, rfl, ⟨⟩, _, ⟨rfl, rfl⟩, rfl, rfl⟩ := hhoist
    have hstart :
        Draft.Counts program.vars.size (fun _ => False) ({ program, memory := () } : Draft Unit) :=
      ⟨le_rfl, by simp, by simp⟩
    obtain ⟨hcounts, hsame⟩ :=
      (ThreeAddress.exact_hoistList limit _ .root _ _ hstart).of_answers hlist
    exact ⟨fun hchanged => congrArg Draft.program (hsame hchanged).1,
      fun hchanged => hcounts.grown (Or.inl hchanged)⟩

end ShaderIR
