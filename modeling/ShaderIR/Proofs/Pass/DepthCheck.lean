import ShaderIR.Proofs.Outline.Levels
import ShaderIR.Proofs.Pass.Diagnostics
import ShaderIR.Proofs.Pass.ShallowHoisting

/-!
The check of the depth before hoisting. It fails exactly if some list or some node stands below the
limit (`Program.exceeds_of_fails_checkDepth`, `Program.not_exceeds_of_checkDepth`), whatever else
the program is like: statements and expressions may be shared, and a cycle reaches below every
limit. A program that passes the check is hoisted to the end. While this happens every list holds
for each of its statements the statement itself and assignments that nest no deeper
(`Program.Flattens`), so that each list goes on fitting the budget that is left for it on every
level where it stands.
-/

set_option autoImplicit false

namespace ShaderIR

namespace Program

variable {program program' program'' : Program} {limit budget level : Nat} {id statement : NodeId}
  {ref : ListRef}

/-! ### What the check finds -/

/-- Some list or some node stands below a limit. -/
def Exceeds (program : Program) (limit : Nat) : Prop :=
  (∃ ref level, program.ListAt ref level ∧ limit < level) ∨ ∃ id level,
    program.NodeAt id level ∧ limit < level

/-- An expression that does not fit reaches below its budget. -/
theorem NodeAt.exceeds_of_fitsWithin (hlevel : program.NodeAt id level)
    (hbudget : level + budget = limit + 1) (hfits : program.fitsWithin budget id = .ok false) :
    program.Exceeds limit := by
  have hall {step : NodeId → Except Crash Bool}
      {ids : List NodeId} (hfalse : ids.allM step = .ok false) :
      ∃ child ∈ ids, step child = .ok false := by
    induction ids with
    | nil => cases hfalse
    | cons child ids ih =>
      obtain ⟨answer, hanswer, hrest⟩ := bind_eq_ok_iff.mp hfalse
      cases answer with
      | false => exact ⟨child, List.mem_cons_self, hanswer⟩
      | true =>
        obtain ⟨found, hfound, hfits⟩ := ih hrest
        exact ⟨found, List.mem_cons_of_mem _ hfound, hfits⟩
  induction budget generalizing id level with
  | zero => exact Or.inr ⟨id, level, hlevel, by omega⟩
  | succ budget ih =>
    obtain ⟨node, hnode, hchildren⟩ := bind_eq_ok_iff.mp hfits
    obtain ⟨child, hchild, hfits⟩ := hall hchildren
    exact ih (hlevel.child hnode hchild) (by omega) hfits

/-- A list that does not pass the check reaches below its budget. -/
theorem ListAt.exceeds_of_fails {failure : PassError} (hlevel : program.ListAt ref level)
    (hbudget : level + budget = limit + 1)
    (hfails : Query.Fails (program.checkDepthWithin limit budget ref) failure) :
    program.Exceeds limit := by
  induction budget generalizing ref level with
  | zero => exact Or.inl ⟨ref, level, hlevel, by omega⟩
  | succ budget ih =>
    rw [checkDepthWithin, Query.fails_bind] at hfails
    obtain hlist | ⟨statements, hlist, hfails⟩ := hfails
    · exact (Query.fails_liftCrash hlist).elim
    have hlist := Query.answers_liftCrash.mp hlist
    obtain ⟨statement, hstatement, hfails⟩ := Query.exists_of_fails_forM hfails
    obtain hfits | ⟨fits, hfits, hfails⟩ := Query.fails_bind.mp hfails
    · exact (Query.fails_liftCrash hfits).elim
    cases fits with
    | false =>
      exact NodeAt.exceeds_of_fitsWithin (.statement hlevel hlist hstatement) hbudget
        (Query.answers_liftCrash.mp hfits)
    | true =>
      obtain hlists | ⟨lists, hlists, hfails⟩ := Query.fails_bind.mp hfails
      · exact (Query.fails_liftCrash hlists).elim
      obtain ⟨node, hnode, hpure⟩ := bind_eq_ok_iff.mp (Query.answers_liftCrash.mp hlists)
      obtain rfl := Except.ok.inj hpure
      obtain ⟨body, hbody, hfails⟩ := Query.exists_of_fails_forM hfails
      exact ih (hlevel.nested hlist hstatement hnode hbody) (by omega) hfails

theorem exceeds_of_fails_checkDepth {failure : PassError}
    (hfails : Query.Fails (program.checkDepth limit) failure) :
    program.Exceeds limit :=
  ListAt.root.exceeds_of_fails (Nat.zero_add _) hfails

section

variable (hchecked : Query.Answers (program.checkDepth limit) ())

include hchecked

/-- Every list passes the check with the budget that is left where it stands. -/
theorem ListAt.answers_checkDepthWithin (hlevel : program.ListAt ref level) :
    ∃ budget, level + budget = limit + 1 ∧
      Query.Answers (program.checkDepthWithin limit budget ref) () := by
  induction hlevel with
  | root => exact ⟨limit + 1, Nat.zero_add _, hchecked⟩
  | nested _ hlist howner hnode hinner ih =>
    obtain ⟨budget, hbudget, hanswers⟩ := ih
    cases budget with
    | zero => exact (Query.answers_throw hanswers).elim
    | succ budget =>
      obtain ⟨found, hfound, hstatements⟩ := answers_checkDepthWithin_succ.mp hanswers
      obtain rfl := Except.ok.inj (hlist.symm.trans hfound)
      obtain ⟨node', hnode', -, hbodies⟩ := hstatements _ howner
      obtain rfl := Except.ok.inj (hnode.symm.trans hnode')
      exact ⟨budget, by omega, hbodies _ hinner⟩

/-- Every node fits the budget that is left where it stands. -/
theorem NodeAt.fits (hlevel : program.NodeAt id level) :
    ∃ budget, level + budget = limit + 1 ∧ program.Fits budget id := by
  induction hlevel with
  | statement hlevel hlist hid =>
    obtain ⟨budget, hbudget, hanswers⟩ := hlevel.answers_checkDepthWithin hchecked
    cases budget with
    | zero => exact (Query.answers_throw hanswers).elim
    | succ budget =>
      obtain ⟨found, hfound, hstatements⟩ := answers_checkDepthWithin_succ.mp hanswers
      obtain rfl := Except.ok.inj (hlist.symm.trans hfound)
      obtain ⟨_, -, hfits, -⟩ := hstatements _ hid
      exact ⟨budget + 1, hbudget, hfits⟩
  | child _ hnode hid ih =>
    obtain ⟨budget, hbudget, hfits⟩ := ih
    cases budget with
    | zero => exact hfits.elim
    | succ budget =>
      obtain ⟨found, hfound, hchildren⟩ := hfits
      obtain rfl := Except.ok.inj (hnode.symm.trans hfound)
      exact ⟨budget, by omega, hchildren _ hid⟩

theorem not_exceeds_of_checkDepth : ¬ program.Exceeds limit := by
  rintro (⟨ref, level, hlevel, hless⟩ | ⟨id, level, hlevel, hless⟩)
  · obtain ⟨budget, hbudget, hanswers⟩ := hlevel.answers_checkDepthWithin hchecked
    obtain rfl : budget = 0 := by omega
    exact Query.answers_throw hanswers
  · obtain ⟨budget, hbudget, hfits⟩ := hlevel.fits hchecked
    have := hfits.pos
    omega

end

/-- A program with a cycle exceeds every limit. -/
theorem exceeds_of_cycle (limit : Nat)
    (hcycle : (∃ ref level, program.ListAt ref level ∧ Relation.TransGen program.Nests ref ref) ∨
      ∃ id level, program.NodeAt id level ∧ Relation.TransGen program.HasChild id id) :
      program.Exceeds limit := by
  rcases hcycle with ⟨ref, level, hlevel, hcycle⟩ | ⟨id, level, hlevel, hcycle⟩
  · exact Or.inl ⟨ref, hlevel.exists_lt_of_cycle hcycle limit⟩
  · exact Or.inr ⟨id, hlevel.exists_lt_of_cycle hcycle limit⟩

/-! ### Statements in place of a statement -/

/-- The second statement is the first one, or a new assignment that nests no deeper. -/
def StandsFor (program program' : Program) (statement replaced : NodeId) : Prop :=
  replaced = statement ∨
    program'.WritesWhole replaced ∧ ∀ budget, program.Fits budget statement →
      program'.Fits budget replaced

namespace StandsFor

variable {replaced : NodeId}

theorem fits (hstands : program.StandsFor program' statement replaced)
    (htrims : program.Trims program') (hfits : program.Fits budget statement) :
    program'.Fits budget replaced := by
  rcases hstands with rfl | ⟨-, hflat⟩
  · exact htrims.fits hfits
  · exact hflat budget hfits

theorem before (hstands : program'.StandsFor program'' statement replaced)
    (htrims : program.Trims program') :
    program.StandsFor program'' statement replaced :=
  hstands.imp_right (And.imp_right fun hflat budget hfits => hflat budget (htrims.fits hfits))

theorem after (hstands : program.StandsFor program' statement replaced)
    (htrims : program'.Trims program'') :
    program.StandsFor program'' statement replaced :=
  hstands.imp_right fun hreplaced => ⟨htrims.writesWhole hreplaced.1, fun budget hfits =>
    htrims.fits (hreplaced.2 budget hfits)⟩

theorem trans {later : NodeId} (hfirst : program.StandsFor program' statement replaced)
    (hsecond : program'.StandsFor program'' replaced later) (htrims : program.Trims program')
    (htrims' : program'.Trims program'') : program.StandsFor program'' statement later := by
  rcases hsecond with rfl | ⟨hwrites, hflat⟩
  · exact hfirst.after htrims'
  · exact Or.inr ⟨hwrites, fun budget hfits => hflat budget (hfirst.fits htrims hfits)⟩

end StandsFor

/-- The program has at most been trimmed, and each list holds only what stands for one of its
statements. -/
structure Flattens (program program' : Program) : Prop where
  trims : program.Trims program'
  lists : ∀ ref statements, program.list ref = .ok statements → ∃ statements',
    program'.list ref = .ok statements' ∧
    ∀ replaced ∈ statements', ∃ statement ∈ statements,
      program.StandsFor program' statement replaced

namespace Flattens

theorem of_lists (htrims : program.Trims program') (hlists : ∀ ref statements,
      program.list ref = .ok statements → program'.list ref = .ok statements) :
    program.Flattens program' :=
  ⟨htrims, fun ref statements hlist => ⟨statements, hlists ref statements hlist,
    fun statement hstatement => ⟨statement, hstatement, Or.inl rfl⟩⟩⟩

theorem refl (program : Program) : program.Flattens program :=
  .of_lists (.refl program) fun _ _ hlist => hlist

theorem trans (hfirst : program.Flattens program') (hsecond : program'.Flattens program'') :
    program.Flattens program'' where
  trims := hfirst.trims.trans hsecond.trims
  lists ref statements hlist := by
    obtain ⟨statements', hlist', hstands⟩ := hfirst.lists ref statements hlist
    obtain ⟨statements'', hlist'', hstands'⟩ := hsecond.lists ref statements' hlist'
    refine ⟨statements'', hlist'', fun later hlater => ?_⟩
    obtain ⟨replaced, hreplaced, hsecond'⟩ := hstands' later hlater
    obtain ⟨statement, hstatement, hfirst'⟩ := hstands replaced hreplaced
    exact ⟨statement, hstatement, hfirst'.trans hsecond' hfirst.trims hsecond.trims⟩

/-- One of the lists is replaced. -/
theorem setList (hflattens : program.Flattens program') {statements replaced : List NodeId}
    (hlist : program.list ref = .ok statements)
    (hset : program'.setList ref replaced = .ok program'') (hstands : ∀ later ∈ replaced,
      ∃ statement ∈ statements, program.StandsFor program' statement later) :
    program.Flattens program'' := by
  obtain ⟨between, hbetween, -⟩ := hflattens.lists ref statements hlist
  have htrims := trims_setList hset hbetween
  refine ⟨hflattens.trims.trans htrims, fun other found hfound => ?_⟩
  by_cases hother : other = ref
  · subst hother
    obtain rfl := Except.ok.inj (hlist.symm.trans hfound)
    refine ⟨replaced, list_setList_self hset hbetween, fun later hlater => ?_⟩
    obtain ⟨statement, hstatement, hstands⟩ := hstands later hlater
    exact ⟨statement, hstatement, hstands.after htrims⟩
  · obtain ⟨found', hfound', hstands'⟩ := hflattens.lists other found hfound
    refine ⟨found', list_setList_of_ne hset hbetween hother hfound', fun later hlater => ?_⟩
    obtain ⟨statement, hstatement, hstands⟩ := hstands' later hlater
    exact ⟨statement, hstatement, hstands.after htrims⟩

/-- A list that passes the check goes on doing so. -/
theorem answers_checkDepthWithin (hflattens : program.Flattens program')
    (hchecked : Query.Answers (program.checkDepthWithin limit budget ref) ()) :
    Query.Answers (program'.checkDepthWithin limit budget ref) () := by
  induction budget generalizing ref with
  | zero => exact (Query.answers_throw hchecked).elim
  | succ budget ih =>
    obtain ⟨statements, hlist, hstatements⟩ := answers_checkDepthWithin_succ.mp hchecked
    obtain ⟨statements', hlist', hstands⟩ := hflattens.lists ref statements hlist
    refine answers_checkDepthWithin_succ.mpr ⟨statements', hlist', fun replaced hreplaced => ?_⟩
    obtain ⟨statement, hstatement, hstands⟩ := hstands replaced hreplaced
    obtain ⟨node, hnode, hfits, hbodies⟩ := hstatements statement hstatement
    have hfits' := hstands.fits hflattens.trims hfits
    rcases hstands with rfl | ⟨⟨target, value, hwrites⟩, -⟩
    · obtain ⟨node', hnode', hresembles, -⟩ := hflattens.trims.node replaced node hnode
      exact ⟨node', hnode', hfits',
        fun body hbody => ih (hbodies body ((hresembles.lists_eq replaced).symm ▸ hbody))⟩
    · exact ⟨_, hwrites, hfits', fun body hbody => nomatch hbody⟩

end Flattens

/-! ### Edits of a statement -/

/-- Wherever the statement fits, the node fits within one level less. -/
def FitsUnder (program : Program) (statement id : NodeId) : Prop :=
  ∀ budget, program.Fits (budget + 1) statement → program.Fits budget id

theorem fitsUnder_of_mem_children {node : Node}
    (hnode : program.node statement = .ok node) (hid : id ∈ node.children) :
    program.FitsUnder statement id := by
  rintro budget ⟨found, hfound, hchildren⟩
  obtain rfl := Except.ok.inj (hnode.symm.trans hfound)
  exact hchildren id hid

theorem FitsUnder.child {parent : NodeId} {node : Node}
    (hunder : program.FitsUnder statement parent) (hnode : program.node parent = .ok node)
    (hid : id ∈ node.children) : program.FitsUnder statement id := by
  intro budget hfits
  have hparent := hunder budget hfits
  cases budget with
  | zero => exact hparent.elim
  | succ budget => exact (fitsUnder_of_mem_children hnode hid budget hparent).mono budget.le_succ

/-- A statement with what stands below it. -/
def scopeOf (program : Program) (statement : NodeId) : Scope where
  origin := program
  covers id := id = statement ∨ program.FitsUnder statement id
  operand := program.FitsUnder statement
  covers_of_operand _ := Or.inr
  closed id node hcovers hnode child hchild := by
    rcases hcovers with rfl | hunder
    · exact Or.inl (fitsUnder_of_mem_children hnode hchild)
    · exact Or.inl (hunder.child hnode hchild)

end Program

open Program Edit

variable {κ : Type} {limit budget : Nat}

/-- What waits to be inserted in front of a statement nests no deeper than that. -/
theorem Draft.Evolved.fits_of_mem_pending {draft : Draft κ}
    {program : Program} {statement waiting : NodeId}
    (hevolved : draft.Evolved (program.scopeOf statement)) (hwaiting : waiting ∈ draft.pending)
    (hfits : program.Fits (budget + 2) statement) : draft.program.Fits (budget + 2) waiting := by
  obtain ⟨-, target, value, hnode, htarget, hvalue⟩ := hevolved.pending waiting hwaiting
  refine ⟨_, hnode, fun child hchild => ?_⟩
  simp only [Node.children, List.mem_cons, List.not_mem_nil, or_false] at hchild
  rcases hchild with rfl | rfl
  · rcases hvalue with hunder | hreads
    · exact hevolved.trims.fits (hunder (budget + 1) hfits)
    · exact hreads.fits budget.succ_pos
  · exact htarget.fits budget.succ_pos

/-- Nothing is taken out of a statement without operands. -/
theorem Edit.ensures_editStatement_of_childless {rules : Rules κ} {draft : Draft κ} {id : NodeId}
    {node : Node} (hnode : draft.program.node id = .ok node) (hchildless : node.children = []) :
    Walk.Ensures (editStatement rules id) draft (fun _ draft' => draft'.pending = draft.pending)
      fun _ _ => True := by
  simp only [editStatement, Walk.ensures_bind, ensures_ask]
  intro found hfound
  obtain rfl := Except.ok.inj (hnode.symm.trans hfound)
  cases node with
  | assign | branch => cases hchildless
  | call callee arguments result =>
    obtain ⟨rfl, hresult⟩ := List.append_eq_nil_iff.mp hchildless
    obtain rfl : result = none := Option.toList_eq_nil_iff.mp hresult
    simp only [editCall, Walk.ensures_bind, ensures_ask]
    intro signature _
    cases signature.params <;> exact rfl
  | ret operand | discard operand =>
    obtain rfl : operand = none := Option.toList_eq_nil_iff.mp hchildless
    exact rfl
  | _ => exact rfl

namespace ThreeAddress

variable {draft : Draft Unit} {id : NodeId} {ref : ListRef}

/-- Hoisting gets through a statement that fits, and all that waits in front of it then stands for
it. -/
theorem flattens_editStatement (hpending : draft.pending = [])
    (hfits : draft.program.Fits (budget + 1) id) :
    Walk.Ensures (editStatement (rules limit budget) id) draft (fun _ draft' =>
      draft.program.Flattens draft'.program ∧
        ∀ waiting ∈ draft'.pending, draft.program.StandsFor draft'.program id waiting) fun _ _ =>
        False := by
  have hedit : Walk.Ensures (editStatement (rules limit budget) id) draft
      (fun _ draft' => draft'.Evolved (draft.program.scopeOf id)) fun _ _ => False :=
    ensures_editStatement rfl hpending (Or.inl rfl) hfits
  refine hedit.and_answers.mono (fun _ draft' ⟨hevolved, hanswers⟩ =>
    ⟨.of_lists hevolved.trims hevolved.lists,
    fun waiting hwaiting => Or.inr ⟨(hevolved.pending waiting hwaiting).2.writesWhole,
      fun budget hbudget => ?_⟩⟩) fun _ _ => False.elim
  match budget with
  | 0 => exact hbudget.elim
  | 1 =>
    -- nothing waits in front of a statement on the last level
    obtain ⟨node, hnode, hchildren⟩ := hbudget
    have hchildless : node.children = [] := List.eq_nil_iff_forall_not_mem.mpr hchildren
    have hnone := (Edit.ensures_editStatement_of_childless hnode hchildless).of_answers hanswers
    rw [hnone, hpending] at hwaiting
    cases hwaiting
  | budget + 2 => exact hevolved.fits_of_mem_pending hwaiting hbudget

/-- Hoisting gets through every list that passes the check, however often its statements are
shared. -/
theorem flattens_hoistList (hpending : draft.pending = [])
    (hchecked : Query.Answers (draft.program.checkDepthWithin limit budget ref) ()) :
    Walk.Ensures (hoistList limit budget ref) draft
      (fun _ draft' => draft.program.Flattens draft'.program ∧ draft'.pending = []) fun _ _ =>
        False := by
  induction budget generalizing draft ref with
  | zero => exact (Query.answers_throw hchecked).elim
  | succ budget ih =>
    obtain ⟨statements, hlist, hstatements⟩ := answers_checkDepthWithin_succ.mp hchecked
    simp only [hoistList, Walk.ensures_bind, ensures_ask, Walk.ensures_modify]
    intro found hfound
    obtain rfl := Except.ok.inj (hlist.symm.trans hfound)
    refine (Walk.ensures_mapM (fun state => draft.program.Flattens state.program ∧
        state.pending = []) (fun statement row state => ∀ later ∈ row,
        draft.program.StandsFor state.program statement later)
      (fun statement hstatement state hstate => ?_) ⟨.refl _, hpending⟩).mono ?_ fun _ _ =>
      False.elim
    · obtain ⟨hflattens, hempty⟩ := hstate
      obtain ⟨node, hnode, hfits, hbodies⟩ := hstatements statement hstatement
      simp only [Walk.ensures_bind, ensures_takePending, ensures_ask, Walk.ensures_pure]
      refine (flattens_editStatement hempty (hflattens.trims.fits hfits)).mono ?_ fun _ _ =>
        False.elim
      rintro _ between ⟨hedited, hwaits⟩ lists hlists
      have hbetween := hflattens.trans hedited
      obtain rfl := Except.ok.inj ((hbetween.trims.nestedLists_eq hnode).symm.trans hlists)
      refine (Walk.ensures_forM
        (fun state => between.program.Flattens state.program ∧ state.pending = [])
        (fun body hbody reached hreached => ?_) ⟨.refl _, rfl⟩).mono ?_ fun _ _ => False.elim
      · refine (ih hreached.2
          ((hbetween.trans hreached.1).answers_checkDepthWithin (hbodies body hbody))).mono
          (fun _ _ hafter => ⟨hreached.1.trans hafter.1, hafter.2⟩) fun _ _ => False.elim
      · rintro _ after ⟨hnested, hempty'⟩
        refine ⟨⟨hbetween.trans hnested, hempty'⟩, fun later hlater => ?_,
          fun item row hrow later hlater =>
            (hrow later hlater).after (hedited.trims.trans hnested.trims)⟩
        rcases List.mem_append.mp hlater with hwaiting | hself
        · exact ((hwaits later hwaiting).before hflattens.trims).after hnested.trims
        · exact Or.inl (List.mem_singleton.mp hself)
    · rintro rows reached ⟨⟨hflattens, hempty⟩, hrows, -⟩ program' hset
      refine ⟨hflattens.setList hlist hset fun later hlater => ?_, hempty⟩
      obtain ⟨row, hrow, hlater⟩ := List.mem_flatten.mp hlater
      obtain ⟨statement, hstatement, hstands⟩ := exists_of_forall₂ hrows.flip hrow
      exact ⟨statement, hstatement, hstands later hlater⟩

end ThreeAddress

/-! ### Programs -/

/-- Hoisting fails for one reason only, and then only reports it. -/
theorem Program.eq_report_of_fails_hoistSubexpressions {program after : Program}
    {failure : PassError}
    (hrun : (hoistSubexpressions limit).runFrom program = .ok (.error failure, after)) :
    failure = .tooDeep limit ∧ after = program.report failure.message := by
  obtain ⟨checked, hchecked, hrun⟩ :=
    bind_eq_ok_iff.mp ((runFrom_hoistSubexpressions program limit).symm.trans hrun)
  cases checked with
  | error cause =>
    obtain ⟨hsame, rfl⟩ := Prod.mk.inj (Except.ok.inj hrun)
    obtain rfl := Except.error.inj hsame
    exact ⟨eq_of_fails_checkDepthWithin hchecked, rfl⟩
  | ok =>
    have hhoists :
        Walk.Ensures (ThreeAddress.hoistList limit (limit + 1) .root) { program, memory := () }
          (fun _ draft => program.Flattens draft.program ∧ draft.pending = []) fun _ _ => False :=
            ThreeAddress.flattens_hoistList rfl hchecked
    obtain ⟨⟨reached, draft⟩, hlist, hreached⟩ := map_eq_ok_iff.mp hrun
    cases reached with
    | error cause => exact (hhoists.of_fails hlist).elim
    | ok => cases hreached

/-- Hoisting finds a program too deep exactly if some list or some node stands below the limit, and
always if there is a cycle. It fails for this reason only and then leaves all of the program but its
diagnostics, where one is added; and it does not fail any more once the check beforehand has
passed. -/
theorem Program.exceeds_iff_of_hoistSubexpressions {program after : Program}
    {outcome : Except PassError Bool}
    (hrun : (hoistSubexpressions limit).runFrom program = .ok (outcome, after)) :
    (outcome = .error (.tooDeep limit) ↔
      (∃ ref level, program.ListAt ref level ∧ limit < level) ∨ ∃ id level,
      program.NodeAt id level ∧ limit < level) ∧
    ((∃ ref level, program.ListAt ref level ∧ Relation.TransGen program.Nests ref ref) ∨
      (∃ id level, program.NodeAt id level ∧ Relation.TransGen program.HasChild id id) →
        outcome = .error (.tooDeep limit)) ∧
    (∀ failure, outcome = .error failure → failure = .tooDeep limit ∧
      after = { program with diagnostics := program.diagnostics ++ [failure.message] }) ∧
    (Query.Answers (program.checkDepth limit) () → ∀ failure draft,
      (ThreeAddress.hoistList limit (limit + 1) .root).runFrom { program, memory := () } ≠
        .ok (.error failure, draft)) := by
  have hhoists (hchecked : Query.Answers (program.checkDepth limit) ()) :
      Walk.Ensures (ThreeAddress.hoistList limit (limit + 1) .root) { program, memory := () }
        (fun _ draft => program.Flattens draft.program ∧ draft.pending = []) fun _ _ => False :=
    ThreeAddress.flattens_hoistList rfl hchecked
  obtain ⟨checked, hchecked, hreached⟩ :=
    bind_eq_ok_iff.mp ((runFrom_hoistSubexpressions program limit).symm.trans hrun)
  have hexceeds : outcome = .error (.tooDeep limit) ↔ program.Exceeds limit := by
    cases checked with
    | error failure =>
      obtain ⟨rfl, rfl⟩ := Prod.mk.inj (Except.ok.inj hreached)
      obtain rfl := eq_of_fails_checkDepthWithin hchecked
      exact iff_of_true rfl (exceeds_of_fails_checkDepth hchecked)
    | ok =>
      obtain ⟨⟨found, draft⟩, hlist, hreached⟩ := map_eq_ok_iff.mp hreached
      obtain ⟨rfl, rfl⟩ := Prod.mk.inj hreached
      cases found with
      | error failure => exact ((hhoists hchecked).of_fails hlist).elim
      | ok => exact iff_of_false nofun (not_exceeds_of_checkDepth hchecked)
  refine ⟨hexceeds, fun hcycle => hexceeds.mpr (exceeds_of_cycle limit hcycle), ?_,
    fun hchecked failure draft hfails => (hhoists hchecked).of_fails hfails⟩
  rintro failure rfl
  exact eq_report_of_fails_hoistSubexpressions hrun

/-- A statement that stands in a body and behind it, and nests three levels. -/
def Program.sharedProduct : Program where
  nodes := #[.variable ⟨0⟩, .variable ⟨1⟩, .apply .add [⟨0⟩, ⟨1⟩] .float,
    .variable ⟨1⟩, .apply .mul [⟨2⟩, ⟨3⟩] .float,
    .variable ⟨0⟩, .assign ⟨5⟩ ⟨4⟩ 0, .variable ⟨2⟩, .branch ⟨7⟩ [⟨6⟩] []]
  vars := #[⟨"x", .float, .auto⟩, ⟨"y", .float, .input⟩, ⟨"c", .bool, .input⟩]
  body := [⟨8⟩, ⟨6⟩]

theorem Program.exceeds_iff_of_hoistSubexpressions_sharedProduct :
    ∃ hoisted after, (hoistSubexpressions 4).runFrom sharedProduct = .ok (.ok true, hoisted) ∧
    ¬ sharedProduct.Exceeds 4 ∧
    (hoistSubexpressions 3).runFrom sharedProduct = .ok (.error (.tooDeep 3), after) ∧
    sharedProduct.Exceeds 3 ∧
    after = { sharedProduct with diagnostics := [(PassError.tooDeep 3).message] } := by
  have hhoisted : ((hoistSubexpressions 4).runFrom sharedProduct).map Prod.fst =
      .ok (.ok true) := by decide +kernel
  have hfails :
      ((hoistSubexpressions 3).runFrom sharedProduct).map Prod.fst = .ok (.error (.tooDeep 3)) := by
    decide +kernel
  obtain ⟨⟨_, hoisted⟩, hhoisted, rfl⟩ := map_eq_ok_iff.mp hhoisted
  obtain ⟨⟨_, after⟩, hfails, rfl⟩ := map_eq_ok_iff.mp hfails
  have hshallow := exceeds_iff_of_hoistSubexpressions hhoisted
  have hdeep := exceeds_iff_of_hoistSubexpressions hfails
  exact ⟨hoisted, after, hhoisted, fun hexceeds => (nomatch hshallow.1.mpr hexceeds), hfails,
    hdeep.1.mp rfl, (hdeep.2.2.1 _ rfl).2⟩

end ShaderIR
