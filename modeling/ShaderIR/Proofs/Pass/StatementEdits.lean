import ShaderIR.Proofs.Pass.Edits
import ShaderIR.Proofs.Pass.StatementRuns

/-!
What an edit makes of a statement. When the rules of a pass edit expressions and places as they
should, `Edit.editStatement` lifts the operands of a sound statement and writes the edited ones back
(`Edit.exists_of_editStatement`).
-/

set_option autoImplicit false

namespace ShaderIR

namespace Edit

variable {κ : Type} {remembers : κ → Temporaries} {verdict : Verdict} {valueRole : Role}
  {rules : Rules κ} {draft draft' : Draft κ}

/-- The rules of a pass lift expressions and places. -/
structure Rules.Lifting (remembers : κ → Temporaries) (verdict : Verdict) (valueRole : Role)
    (rules : Rules κ) : Prop where
  value : ∀ tree, Edits remembers verdict valueRole rules.value tree
  target : ∀ tree, tree.isPlace = true → EditsPlace remembers verdict rules.target tree
  operand : ∀ tree, Edits remembers verdict .value rules.operand tree
  place : ∀ tree, tree.isPlace = true → EditsPlace remembers verdict rules.place tree

/-- The arguments of a call are lifted. -/
theorem exists_of_editArguments (hrules : rules.Lifting remembers verdict valueRole)
    {params : List Param} {arguments : List Tree} (hlength : params.length = arguments.length)
    (hwritten : ∀ param argument, (param, argument) ∈ params.zip arguments →
      param.mode.writes = true → argument.isPlace = true)
    (hseparate : draft.program.Separate arguments) {answers : List NodeId} (hanswers : Walk.Answers
      (editArguments rules params (arguments.map Tree.id)) draft answers draft') :
    ∃ arguments' rows, arguments'.map Tree.id = answers ∧ Lifts remembers verdict draft draft'
      ((params.map fun param => if param.mode = .input then Role.value else .place).zip arguments)
      arguments' rows := by
  induction params generalizing arguments draft answers with
  | nil =>
    obtain rfl := List.eq_nil_of_length_eq_zero hlength.symm
    obtain ⟨rfl, rfl⟩ := Walk.answers_pure.mp hanswers
    exact ⟨[], [], rfl, .nil _⟩
  | cons param params ih =>
    cases arguments with
    | nil => simp at hlength
    | cons argument arguments =>
      rw [List.map_cons, editArguments] at hanswers
      obtain ⟨argument', between, later, rows, hlifts, hrest, rfl⟩ : ∃ argument' between later rows,
          Lifts remembers verdict draft between
            [(if param.mode = .input then Role.value else .place, argument)] [argument'] rows ∧
          Walk.Answers (editArguments rules params (arguments.map Tree.id)) between later draft' ∧
          answers = argument'.id :: later := by
        have hsingle := hseparate.left [argument]
        split at hanswers
        · next hmode =>
          simp only [Walk.answers_bind, Walk.answers_pure] at hanswers
          obtain ⟨_, between, hfirst, later, _, hrest, rfl, rfl⟩ := hanswers
          obtain ⟨argument', rows, rfl, hlifts⟩ :=
            hrules.operand argument draft _ between hsingle hfirst
          exact ⟨argument', between, later, rows, by rwa [if_pos hmode], hrest, rfl⟩
        · next hmode =>
          simp only [Walk.answers_bind, Walk.answers_pure] at hanswers
          obtain ⟨⟨⟩, between, hfirst, _, _, ⟨rfl, rfl⟩, later, _, hrest, rfl, rfl⟩ := hanswers
          obtain ⟨argument', rows, hsame, hlifts⟩ := hrules.place argument
            (hwritten param argument (by simp) (ParamMode.writes_iff.mpr hmode)) draft between
              hsingle hfirst
          exact ⟨argument', between, later, rows, by rwa [if_neg hmode], hrest, by rw [hsame]⟩
      have hforest : draft.program.Separate
          (([(if param.mode = .input then Role.value else .place, argument)] ++
            (params.map fun param => if param.mode = .input then Role.value else .place).zip
              arguments).map Prod.snd) := by
        have hlength' : arguments.length ≤ params.length := by simpa using hlength.symm.le
        rw [List.map_append, List.map_snd_zip (by simpa using hlength')]
        exact hseparate
      have hlater := hlifts.separate hforest
      rw [List.map_snd_zip (by simpa using hlength.symm.le)] at hlater
      obtain ⟨arguments', rows', rfl, hlifts'⟩ := ih (by simpa using hlength)
        (fun param argument hmem => hwritten param argument (List.mem_cons_of_mem _ hmem))
          hlater hrest
      exact ⟨argument' :: arguments', rows ++ rows', rfl, hlifts.append hlifts' hforest⟩

/-- The place that a call stores its result in is lifted. -/
theorem exists_of_editResult (hrules : rules.Lifting remembers verdict valueRole)
    {result : Option Tree} (hresult : ∀ place, result = some place → place.isPlace = true)
    (hseparate : draft.program.Separate result.toList)
    (hanswers : Walk.Answers ((result.map Tree.id).toList.forM rules.place) draft () draft') :
    ∃ (result' : Option Tree) (rows : List Row), result'.map Tree.id = result.map Tree.id ∧
      Lifts remembers verdict draft draft' (result.toList.map (Role.place, ·)) result'.toList
        rows := by
  cases result with
  | none =>
    obtain rfl := Walk.answers_forM_nil.mp hanswers
    exact ⟨none, [], rfl, .nil _⟩
  | some place =>
    obtain ⟨_, hfirst, hrest⟩ := Walk.answers_forM_cons.mp hanswers
    obtain rfl := Walk.answers_forM_nil.mp hrest
    obtain ⟨place', rows, hsame, hlifts⟩ := hrules.place place (hresult place rfl) draft _
      hseparate hfirst
    exact ⟨some place', rows, by simpa using hsame, hlifts⟩

/-- A statement with its rows after its operands have been lifted and written back. -/
theorem grows_withChildren {statement : Tree} {forest : List (Role × Tree)} {parts' : List Tree}
    {rows : List Row} (hforest : forest.map Prod.snd = statement.children)
    (hseparate : draft.program.Separate [statement])
    (hlifts : Lifts remembers verdict draft draft' forest parts' rows) {node : Node}
    (hnode : node = statement.node.refill (parts'.map Tree.id)) :
    draft.program.Grows (draft'.program.setNode statement.id node) statement.ids rows
      [statement.withChildren parts'] := by
  obtain ⟨-, hroot⟩ := hseparate.children
  have hdraws := hseparate.draws statement List.mem_cons_self
  have hlt := Program.lt_size_of_node hdraws.node_eq
  have hgrows := hlifts.grows
  rw [hforest] at hgrows
  have hnotMade := hgrows.not_mem_of_lt hlt hroot
  have hlength : (parts'.map Tree.id).length = statement.node.children.length := by
    rw [List.length_map, hdraws.children_eq, List.length_map, hlifts.lifted.length_eq, ← hforest,
      List.length_map]
  have hjoin := (hgrows.setNode node hnotMade).join
    (Program.node_setNode_self _ _ (hlt.trans_le hgrows.size_le))
    (by rw [hnode, Node.children_refill _ hlength]) List.mem_cons_self hnotMade
  obtain ⟨id, old, operands⟩ := statement
  rw [Tree.ids_mk, Tree.withChildren, ← hnode]
  exact hjoin

/-- A statement is still what it was when its operands have been lifted. -/
theorem node_eq_of_lifts {statement : Tree} {forest : List (Role × Tree)} {parts' : List Tree}
    {rows : List Row} (hseparate : draft.program.Separate [statement])
    (hforest : forest.map Prod.snd = statement.children)
    (hlifts : Lifts remembers verdict draft draft' forest parts' rows) {node : Node}
    (hnode : draft'.program.node statement.id = .ok node) : node = statement.node := by
  obtain ⟨-, hroot⟩ := hseparate.children
  have hfound := (hseparate.draws statement List.mem_cons_self).node_eq
  have hgrows := hlifts.grows
  rw [hforest] at hgrows
  rw [hgrows.frame _ (Program.lt_size_of_node hfound) hroot, hfound] at hnode
  exact (Except.ok.inj hnode).symm

/-- A statement without operands stays. -/
theorem grows_self {statement : Tree} (hseparate : draft.program.Separate [statement])
    (hsame : statement.withChildren [] = statement) :
    draft.program.Grows draft.program statement.ids [] [statement.withChildren []] := by
  rw [hsame]
  simpa using Program.Grows.of_draws hseparate.draws hseparate.nodup

/-- The operands of a sound statement are lifted and written back. -/
theorem exists_of_editStatement (hrules : rules.Lifting remembers verdict valueRole)
    {statement : Tree}
    (hsound : draft.program.Sound statement) (hseparate : draft.program.Separate [statement])
    (hanswers : Walk.Answers (editStatement rules statement.id) draft () draft') :
    ∃ parts' rows, Lifted verdict (remembers draft.memory) draft.program.vars.size
        (draft.program.parts valueRole statement) parts' rows
          (remembers draft'.memory) draft'.program.vars.size ∧
      draft.program.Grows draft'.program statement.ids rows [statement.withChildren parts'] ∧
      draft'.pending = draft.pending ++ rows.map Row.id := by
  have hdraws := hseparate.draws statement List.mem_cons_self
  obtain ⟨hchildren, -⟩ := hseparate.children
  have hforest := Program.map_snd_parts hsound valueRole
  unfold editStatement at hanswers
  simp only [Walk.answers_bind, answers_ask] at hanswers
  obtain ⟨found, _, ⟨hfound, rfl⟩, hanswers⟩ := hanswers
  obtain rfl : statement.node = found := Except.ok.inj (hdraws.node_eq.symm.trans hfound)
  cases hsound with
  | assign id target value mask hplace =>
    simp only [Walk.answers_bind, answers_setNode] at hanswers
    obtain ⟨_, between, hvalue, _, after, htarget, rfl⟩ := hanswers
    obtain ⟨value', rows, rfl, hlifts⟩ := hrules.value value draft _ between
      (hchildren.left [value]) hvalue
    have hpair :
        draft.program.Separate (([(valueRole, value)] ++ [(Role.place, target)]).map Prod.snd) :=
      hchildren
    obtain ⟨target', rows', hsame, hlifts'⟩ := hrules.target target hplace between after
      (hlifts.separate hpair) htarget
    have hboth := hlifts.append hlifts' hpair
    exact ⟨[value', target'], rows ++ rows', hboth.lifted,
      grows_withChildren rfl hseparate hboth (by rw [← hsame]; rfl), hboth.pending⟩
  | call id callee arguments result signature hsignature hlength hwritten hresult =>
    rw [Program.parts_call hsignature hlength] at hforest ⊢
    simp only [editCall, Walk.answers_bind, answers_ask, hsignature, answers_setNode,
      Except.ok.injEq] at hanswers
    obtain ⟨_, _, ⟨rfl, rfl⟩, answers, between, harguments, ⟨⟩, after, hplace, rfl⟩ := hanswers
    obtain ⟨arguments', rows, rfl, hlifts⟩ := exists_of_editArguments hrules hlength hwritten
      (hchildren.left arguments) harguments
    have hseparate' : draft.program.Separate ((signature.roles.zip arguments ++
        result.toList.map (Role.place, ·)).map Prod.snd) := by
      rw [hforest]
      exact hchildren
    have hplaces := hlifts.separate hseparate'
    rw [List.map_map, Function.comp_def, List.map_id'] at hplaces
    obtain ⟨result', rows', hsame, hlifts'⟩ := exists_of_editResult hrules hresult hplaces hplace
    have hboth := hlifts.append hlifts' hseparate'
    refine ⟨arguments' ++ result'.toList, rows ++ rows', hboth.lifted, ?_, hboth.pending⟩
    refine grows_withChildren hforest hseparate hboth ?_
    have hcount := hlifts.lifted.length_eq
    rw [List.length_zip, List.length_map, hlength, Nat.min_self] at hcount
    have hids : (arguments' ++ result'.toList).map Tree.id =
        arguments'.map Tree.id ++ (result'.map Tree.id).toList := by
      cases result' <;> simp
    dsimp only
    rw [hids, Node.refill_call (by simpa using hcount) (by rw [hsame]), hsame]
  | branch id condition thenBody elseBody =>
    simp only [Walk.answers_bind, answers_changeNode] at hanswers
    obtain ⟨_, between, hcondition, node, hnode, rfl⟩ := hanswers
    obtain ⟨condition', rows, rfl, hlifts⟩ := hrules.operand condition draft _ between
      (hchildren.left [condition]) hcondition
    obtain rfl := node_eq_of_lifts hseparate rfl hlifts hnode
    exact ⟨[condition'], rows, hlifts.lifted, grows_withChildren rfl hseparate hlifts rfl,
      hlifts.pending⟩
  | loop id body =>
    obtain ⟨-, rfl⟩ := Walk.answers_pure.mp hanswers
    exact ⟨[], [], .nil _ _, grows_self hseparate rfl, by simp⟩
  | ret id value =>
    cases value with
    | none =>
      obtain ⟨-, rfl⟩ := Walk.answers_pure.mp hanswers
      exact ⟨[], [], .nil _ _, grows_self hseparate rfl, by simp⟩
    | some value =>
      simp only [Option.map_some, Walk.answers_bind, answers_changeNode] at hanswers
      obtain ⟨_, between, hvalue, node, hnode, rfl⟩ := hanswers
      obtain ⟨value', rows, rfl, hlifts⟩ := hrules.operand value draft _ between
        (hchildren.left [value]) hvalue
      obtain rfl := node_eq_of_lifts hseparate rfl hlifts hnode
      exact ⟨[value'], rows, hlifts.lifted, grows_withChildren rfl hseparate hlifts rfl,
        hlifts.pending⟩
  | discard id condition =>
    cases condition with
    | none =>
      obtain ⟨-, rfl⟩ := Walk.answers_pure.mp hanswers
      exact ⟨[], [], .nil _ _, grows_self hseparate rfl, by simp⟩
    | some condition =>
      simp only [Option.map_some, Walk.answers_bind, answers_changeNode] at hanswers
      obtain ⟨_, between, hcondition, node, hnode, rfl⟩ := hanswers
      obtain ⟨condition', rows, rfl, hlifts⟩ := hrules.operand condition draft _ between
        (hchildren.left [condition]) hcondition
      obtain rfl := node_eq_of_lifts hseparate rfl hlifts hnode
      exact ⟨[condition'], rows, hlifts.lifted, grows_withChildren rfl hseparate hlifts rfl,
        hlifts.pending⟩

end Edit

end ShaderIR
