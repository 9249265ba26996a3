import ShaderIR.Pass.ThreeAddress
import ShaderIR.Proofs.Pass.StatementEdits

/-!
Three-address form as a relation on codes. `Program.Hoisted` says that every statement of a code has
been replaced by the rows that were taken out of it and what was left of it, in the bodies of
control statements as well; `ThreeAddress.hoistsLists` says that this is what
`ThreeAddress.hoistList` does.
-/

set_option autoImplicit false

namespace ShaderIR

namespace ThreeAddress

open Edit

/-- Everything compound is taken out, and nothing is remembered. -/
def verdict : Verdict := fun tree =>
  if tree.node.isCompound then some none else none

/-- The temporaries that a pass without memory remembers. -/
def remembers (_ : Unit) : Temporaries :=
  []

variable {limit budget : Nat} {draft draft' : Draft Unit}

/-- What is compound is so when its children have been edited. -/
theorem isCompound_of_editChildren {edit : NodeId → Hoisting NodeId} {tree : Tree}
    (hedit : ∀ child ∈ tree.children, Edits remembers verdict .value edit child)
    (hseparate : draft.program.Separate [tree])
    (hanswers : Walk.Answers (editChildren edit tree.id) draft () draft') {node : Node}
    (hnode : draft'.program.node tree.id = .ok node) : node.isCompound = tree.node.isCompound := by
  obtain ⟨children, rows, hlifted, hgrows, -⟩ := exists_of_editChildren hedit hseparate hanswers
  have hdraws := hgrows.draws (tree.withChildren children) (by simp)
  obtain rfl := Except.ok.inj (hdraws.node_eq.symm.trans hnode)
  refine (Tree.alike_withChildren (hseparate.draws tree List.mem_cons_self).linked _
    ?_).isCompound_eq.symm
  simpa using hlifted.length_eq

theorem edits_hoistExpression (limit budget : Nat) (tree : Tree) :
    Edits remembers verdict .value (hoistExpression limit budget) tree := by
  induction budget generalizing tree with
  | zero => exact fun _ _ _ _ hanswers => absurd hanswers Walk.answers_throw
  | succ budget ih =>
    intro draft answer draft' hseparate hanswers
    unfold hoistExpression at hanswers
    simp only [Walk.answers_bind, answers_ask] at hanswers
    obtain ⟨⟨⟩, between, hchildren, node, _, ⟨hnode, rfl⟩, hanswers⟩ := hanswers
    have hcompound := isCompound_of_editChildren (fun child _ => ih child) hseparate hchildren hnode
    split at hanswers
    · next htaken =>
      simp only [Walk.answers_bind] at hanswers
      obtain ⟨temporary, stored, hstored, hread⟩ := hanswers
      have hverdict : verdict tree = some none := by rw [verdict, ← hcompound, if_pos htaken]
      exact lifts_stored hverdict (by simp) (fun child _ => ih child) hseparate hchildren hstored
        ⟨rfl, rfl, rfl⟩ hread
    · next hkept =>
      obtain ⟨rfl, rfl⟩ := Walk.answers_pure.mp hanswers
      exact lifts_kept (Or.inr ⟨rfl, by rw [verdict, ← hcompound, if_neg hkept]⟩)
        (fun child _ => ih child) hseparate hchildren

theorem edits_hoistValue (limit budget : Nat) (tree : Tree) :
    Edits remembers verdict .root (hoistValue limit budget) tree := by
  intro draft answer draft' hseparate hanswers
  unfold hoistValue at hanswers
  simp only [Walk.answers_bind, answers_ask] at hanswers
  obtain ⟨node, _, ⟨hnode, rfl⟩, hanswers⟩ := hanswers
  obtain rfl := Except.ok.inj ((hseparate.draws tree List.mem_cons_self).node_eq.symm.trans hnode)
  split at hanswers
  · simp only [Walk.answers_bind, Walk.answers_pure] at hanswers
    obtain ⟨⟨⟩, _, hchildren, rfl, rfl⟩ := hanswers
    exact lifts_kept (Or.inl rfl) (fun child _ => edits_hoistExpression limit _ child) hseparate
      hchildren
  · next hkept =>
    cases budget with
    | zero => exact absurd hanswers Walk.answers_throw
    | succ budget =>
      unfold hoistExpression at hanswers
      simp only [Walk.answers_bind, answers_ask] at hanswers
      obtain ⟨⟨⟩, between, hchildren, node, _, ⟨hnode, rfl⟩, hanswers⟩ := hanswers
      have hedit : ∀ child ∈ tree.children, Edits remembers verdict .value
          (hoistExpression limit budget) child :=
            fun child _ => edits_hoistExpression limit budget child
      have hcompound := isCompound_of_editChildren hedit hseparate hchildren hnode
      rw [if_neg (by rw [hcompound]; exact hkept)] at hanswers
      obtain ⟨rfl, rfl⟩ := Walk.answers_pure.mp hanswers
      exact lifts_kept (Or.inl rfl) hedit hseparate hchildren

theorem lifting_rules (limit budget : Nat) :
    (rules limit budget).Lifting remembers verdict .root where
  value := edits_hoistValue limit budget
  target _ hplace := editsPlace (edits_hoistExpression limit) budget hplace
  operand := edits_hoistExpression limit budget
  place _ hplace := editsPlace (edits_hoistExpression limit) budget hplace

end ThreeAddress

/-! ### Codes -/

namespace Program

/-- Every statement of a code has been replaced by the rows that were taken out of it and what was
left of it. Before and after, the next temporary has this index. -/
inductive Hoisted (program program' : Program) : Nat → Code → Code → Nat → Prop
  | nil (next : Nat) : Hoisted program program' next .nil .nil next
  | step {next between next' : Nat} {statement : Tree} {rest rest' : Code} {parts' : List Tree}
    {rows : List Row} (hlists : statement.node.lists statement.id = [])
    (hlifted : Lifted ThreeAddress.verdict [] next (program.parts .root statement) parts' rows
      [] between) (hdeclares : Lifted.Declares program' rows)
    (hrest : Hoisted program program' between rest rest' next') :
    Hoisted program program' next (.step statement rest)
        (.prepend (rows.map Row.statement) (.step (statement.withChildren parts') rest')) next'
  | branch {next next₁ next₂ next₃ next' : Nat} {id : NodeId} {condition condition' : Tree}
    {thenBody thenBody' elseBody elseBody' rest rest' : Code} {rows : List Row}
    (hlifted : Lifted ThreeAddress.verdict [] next [(.value, condition)] [condition'] rows [] next₁)
    (hdeclares : Lifted.Declares program' rows)
    (hthen : Hoisted program program' next₁ thenBody thenBody' next₂)
    (helse : Hoisted program program' next₂ elseBody elseBody' next₃)
    (hrest : Hoisted program program' next₃ rest rest' next') :
    Hoisted program program' next
        (.branch ⟨id, .branch condition.id thenBody.heads elseBody.heads, [condition]⟩
        thenBody elseBody rest) (.prepend (rows.map Row.statement)
        (.branch ⟨id, .branch condition'.id thenBody'.heads elseBody'.heads, [condition']⟩ thenBody'
          elseBody' rest')) next'
  | loop {next between next' : Nat} {id : NodeId} {body body' rest rest' : Code}
    (hbody : Hoisted program program' next body body' between)
    (hrest : Hoisted program program' between rest rest' next') :
    Hoisted program program' next (.loop ⟨id, .loop body.heads, []⟩ body rest)
      (.loop ⟨id, .loop body'.heads, []⟩ body' rest') next'

theorem Hoisted.mono {program program₁ program' : Program} {next next' : Nat} {code code' : Code}
    (hhoisted : program.Hoisted program₁ next code code' next')
    (hvars : ∀ (index : Nat) declared, program₁.vars[index]? = some declared →
      program'.vars[index]? = some declared)
    (hsignatures : program'.signatures = program₁.signatures) :
    program.Hoisted program' next code code' next' := by
  induction hhoisted with
  | nil => exact .nil _
  | step hlists hlifted hrows _ ih => exact .step hlists hlifted (hrows.mono hvars hsignatures) ih
  | branch hlifted hrows _ _ _ ihthen ihelse ih =>
    exact .branch hlifted (hrows.mono hvars hsignatures) ihthen ihelse ih
  | loop _ _ ihbody ih => exact .loop ihbody ih

theorem Hoisted.congr {program other program' : Program} {next next' : Nat} {code code' : Code}
    (hhoisted : other.Hoisted program' next code code' next')
    (hsignatures : other.signatures = program.signatures) :
    program.Hoisted program' next code code' next' := by
  have hparts : ∀ statement, other.parts .root statement = program.parts .root statement :=
    fun statement => by
      unfold parts Program.signature
      rw [hsignatures]
  induction hhoisted with
  | nil => exact .nil _
  | step hlists hlifted hrows _ ih => exact .step hlists (hparts _ ▸ hlifted) hrows ih
  | branch hlifted hrows _ _ _ ihthen ihelse ih => exact .branch hlifted hrows ihthen ihelse ih
  | loop _ _ ihbody ih => exact .loop ihbody ih

/-- What an edit makes of the statements of a code: rows and edited statements that form a code
again. -/
structure Regrows (program program' : Program) (code code' : Code) (rows : List Row)
    (edited : List Tree) : Prop where
  grows : program.Grows program' code.ids rows edited
  perm : code'.statements.Perm (rows.map Row.statement ++ edited)
  shaped : code'.Shaped

end Program

private theorem perm_append {first second edited edited' : List Tree} {rows rows' : List Row}
    (hfirst : first.Perm (rows.map Row.statement ++ edited))
    (hsecond : second.Perm (rows'.map Row.statement ++ edited')) :
    (first ++ second).Perm ((rows ++ rows').map Row.statement ++ (edited ++ edited')) := by
  refine (hfirst.append hsecond).trans ?_
  rw [List.map_append, List.append_assoc, List.append_assoc]
  refine List.Perm.append_left _ ?_
  rw [← List.append_assoc, ← List.append_assoc]
  exact List.perm_append_comm.append_right _

private theorem perm_prepend {statement : Tree} {rest edited : List Tree} {rows rows' : List Row}
    (hrest : rest.Perm (rows'.map Row.statement ++ edited)) :
    (rows.map Row.statement ++ statement :: rest).Perm
      ((rows ++ rows').map Row.statement ++ statement :: edited) := by
  rw [List.map_append, List.append_assoc]
  exact List.Perm.append_left _ ((hrest.cons _).trans List.perm_middle.symm)

private theorem lists_of_mem_rows {rows : List Row} : ∀ statement ∈ rows.map Row.statement,
    statement.node.lists statement.id = [] := by
  intro statement hstatement
  obtain ⟨row, -, rfl⟩ := List.mem_map.mp hstatement
  rfl

theorem Program.Sound.exists_of_branch {program : Program} {statement : Tree}
    (hsound : program.Sound statement) {condition : NodeId} {thenBody elseBody : List NodeId}
    (hnode : statement.node = .branch condition thenBody elseBody) :
    ∃ id condition, statement = ⟨id, .branch condition.id thenBody elseBody, [condition]⟩ := by
  cases hsound <;> cases hnode
  exact ⟨_, _, rfl⟩

theorem Program.Sound.exists_of_loop {program : Program} {statement : Tree}
    (hsound : program.Sound statement) {body : List NodeId} (hnode : statement.node = .loop body) :
    ∃ id, statement = ⟨id, .loop body, []⟩ := by
  cases hsound <;> cases hnode
  exact ⟨_, rfl⟩

namespace Program.Separate

variable {program : Program} {statement : Tree} {thenBody elseBody body rest : Code}

theorem of_branch
    (hseparate : program.Separate (Code.branch statement thenBody elseBody rest).statements) :
    program.Separate [statement] ∧ program.Separate thenBody.statements ∧
      program.Separate elseBody.statements ∧ program.Separate rest.statements := by
  have hall : program.Separate
      ([statement] ++ ((thenBody.statements ++ elseBody.statements) ++ rest.statements)) :=
        hseparate
  have hlater := hall.right _
  exact ⟨hall.left _, (hlater.left _).left _, (hlater.left _).right _, hlater.right _⟩

/-- The bodies and the rest are held apart from the statement and from each other. -/
theorem disjoint_of_branch
    (hseparate : program.Separate (Code.branch statement thenBody elseBody rest).statements) :
    statement.ids.Disjoint thenBody.ids ∧ (statement.ids ++ thenBody.ids).Disjoint elseBody.ids ∧
      (statement.ids ++ thenBody.ids ++ elseBody.ids).Disjoint rest.ids := by
  have hnodup := hseparate.nodup
  rw [← Code.ids, Code.ids_branch] at hnodup
  simp only [List.nodup_append', List.disjoint_append_left, List.disjoint_append_right] at hnodup ⊢
  tauto

theorem of_loop (hseparate : program.Separate (Code.loop statement body rest).statements) :
    program.Separate [statement] ∧ program.Separate body.statements ∧
      program.Separate rest.statements := by
  have hall : program.Separate ([statement] ++ (body.statements ++ rest.statements)) := hseparate
  exact ⟨hall.left _, (hall.right _).left _, (hall.right _).right _⟩

theorem disjoint_of_loop (hseparate : program.Separate (Code.loop statement body rest).statements) :
    statement.ids.Disjoint body.ids ∧ (statement.ids ++ body.ids).Disjoint rest.ids := by
  have hnodup := hseparate.nodup
  rw [← Code.ids, Code.ids_loop] at hnodup
  simp only [List.nodup_append', List.disjoint_append_left, List.disjoint_append_right] at hnodup ⊢
  tauto

end Program.Separate

/-! ### The pass -/

namespace ThreeAddress

open Edit

variable {limit budget : Nat} {draft draft' : Draft Unit}

/-- What bringing a list into three-address form makes of the code that stands in it. -/
def HoistsLists (limit budget : Nat) : Prop :=
  ∀ (ref : ListRef) (code : Code) (draft draft' : Draft Unit),
    draft.program.list ref = .ok code.heads →
    code.Shaped → (∀ statement ∈ code.statements, draft.program.Sound statement) →
    draft.program.Separate code.statements → draft.pending = [] →
    Walk.Answers (hoistList limit budget ref) draft () draft' →
    ∃ program code' rows edited,
      draft.program.Hoisted program draft.program.vars.size code code' program.vars.size ∧
      draft.program.Regrows program code code' rows edited ∧
      program.setList ref code'.heads = .ok draft'.program ∧ draft'.pending = []

/-- One statement of a list: the lists that it owns are edited, and what has been taken out of it
stands in front of it. -/
def hoistStatement (limit budget : Nat) (statement : NodeId) : Hoisting (List NodeId) := do
  editStatement (rules limit budget) statement
  let hoisted ← takePending
  (← ask fun program => program.nestedLists statement).forM (hoistList limit budget)
  return hoisted ++ [statement]

theorem hoistList_succ (limit budget : Nat) (ref : ListRef) : hoistList limit (budget + 1) ref = (do
    let rows ← (← ask fun program => program.list ref).mapM (hoistStatement limit budget)
    let program ← ask fun program => program.setList ref rows.flatten
    modify fun draft => { draft with program }) := rfl

/-- The operands of a statement are edited, and it still owns the same lists. -/
theorem exists_of_editListed {statement : Tree} (hsound : draft.program.Sound statement)
    (hseparate : draft.program.Separate [statement])
    (hanswers : Walk.Answers (editStatement (rules limit budget) statement.id) draft () draft') :
    ∃ parts' rows,
      Lifted verdict [] draft.program.vars.size (draft.program.parts .root statement) parts' rows []
        draft'.program.vars.size ∧
      draft.program.Grows draft'.program statement.ids rows [statement.withChildren parts'] ∧
      (statement.withChildren parts').node.lists statement.id = statement.node.lists statement.id ∧
      draft'.program.nestedLists statement.id = .ok (statement.node.lists statement.id) ∧
      draft'.pending = draft.pending ++ rows.map Row.id := by
  obtain ⟨parts', rows, hlifted, hgrows, hwaiting⟩ := exists_of_editStatement
    (lifting_rules limit budget) hsound hseparate hanswers
  have halike := Tree.alike_withChildren (hseparate.draws statement List.mem_cons_self).linked
    parts' (by rw [hlifted.length_eq, ← Program.map_snd_parts hsound .root, List.length_map])
  have hlists := (halike.lists_eq statement.id).symm
  have hnode := (hgrows.draws (statement.withChildren parts') (by simp)).node_eq
  exact ⟨parts', rows, hlifted, hgrows, hlists, bind_eq_ok_iff.mpr ⟨_, hnode, congrArg _ hlists⟩,
    hwaiting⟩

/-- One statement of a list, before its own lists are edited. -/
theorem exists_of_hoistStatement {statement : Tree} (hsound : draft.program.Sound statement)
    (hseparate : draft.program.Separate [statement]) (hpending : draft.pending = [])
    {answer : List NodeId}
    (hanswers : Walk.Answers (hoistStatement limit budget statement.id) draft answer draft') :
    ∃ parts' rows between, Lifted verdict [] draft.program.vars.size
        (draft.program.parts .root statement) parts' rows [] between.program.vars.size ∧
      draft.program.Grows between.program statement.ids rows [statement.withChildren parts'] ∧
      (statement.withChildren parts').node.lists statement.id = statement.node.lists statement.id ∧
      between.pending = [] ∧ answer = rows.map Row.id ++ [statement.id] ∧
      Walk.Answers ((statement.node.lists statement.id).forM (hoistList limit budget)) between
        () draft' := by
  simp only [hoistStatement, Walk.answers_bind, takePending, Walk.answers_modifyGet, answers_ask,
    Walk.answers_pure, Prod.mk.injEq] at hanswers
  obtain ⟨⟨⟩, edited, hedit, hoisted, _, ⟨rfl, rfl⟩,
    lists, _, ⟨hfound, rfl⟩, ⟨⟩, after, hbodies, rfl,
    rfl⟩ := hanswers
  obtain ⟨parts', rows, hlifted, hgrows, hlists, hnested, hwaiting⟩ :=
    exists_of_editListed hsound hseparate hedit
  obtain rfl : statement.node.lists statement.id = lists :=
    Except.ok.inj (hnested.symm.trans hfound)
  refine ⟨parts', rows, { edited with pending := [] }, hlifted, hgrows, hlists, rfl, ?_, hbodies⟩
  rw [hwaiting, hpending, List.nil_append]

/-- A list that a statement owns, after the statement itself and perhaps others of its lists. -/
theorem exists_of_hoistBody (hnested : HoistsLists limit budget) {program : Program}
    {old : List NodeId} {rows : List Row} {id : NodeId} (ref : ListRef) (node : Node)
    {children : List Tree} (trees : List Tree) {code : Code} {draft draft' : Draft Unit}
    (hgrows : program.Grows draft.program old rows (⟨id, node, children⟩ :: trees))
    (hold : id ∈ old) (href : ref ∈ node.lists id) (hbody : node.bodyAt ref = code.heads)
    (hshaped : code.Shaped) (hsound : ∀ statement ∈ code.statements, program.Sound statement)
    (hseparate : program.Separate code.statements) (hdisjoint : old.Disjoint code.ids)
    (hpending : draft.pending = [])
    (hanswers : Walk.Answers (hoistList limit budget ref) draft () draft') :
    ∃ code' rows' edited,
      program.Hoisted draft'.program draft.program.vars.size code code' draft'.program.vars.size ∧
      program.Grows draft'.program (old ++ code.ids) (rows ++ rows')
        (⟨id, node.withBody ref code'.heads, children⟩ :: (trees ++ edited)) ∧
      code'.statements.Perm (rows'.map Row.statement ++ edited) ∧ code'.Shaped ∧
      draft'.pending = [] := by
  have hnode := (hgrows.draws ⟨id, node, children⟩ (by simp)).node_eq
  have hlist := Program.list_of_mem_lists hnode href
  rw [hbody] at hlist
  obtain ⟨program₁, code', rows', edited, hhoisted, hregrows, hset, hnone⟩ := hnested ref code
    draft draft' hlist hshaped (fun other hother => (hsound other hother).congr hgrows.signatures)
    (hseparate.of_grows hgrows hdisjoint.symm) hpending hanswers
  have hboth := hgrows.append hregrows.grows hdisjoint hseparate.lt_size
  have hnode₁ := (hboth.draws ⟨id, node, children⟩ (by simp)).node_eq
  rw [Program.setList_of_mem_lists hnode₁ href] at hset
  obtain hset := Except.ok.inj hset
  refine ⟨code', rows', edited, ?_, ?_, hregrows.perm, hregrows.shaped, hnone⟩
  · rw [← hset]
    exact (hhoisted.congr hgrows.signatures).mono (fun _ _ hdeclared => hdeclared) rfl
  · rw [← hset]
    exact hboth.replace (Node.children_withBody _ _ _) (List.mem_append_left _ hold)

/-- What the statements of a list become one after the other, each in front of the lists that it
owns. -/
def HoistsStatements (limit budget : Nat) (code : Code) : Prop :=
  ∀ (draft draft' : Draft Unit) (answers : List (List NodeId)), code.Shaped →
    (∀ statement ∈ code.statements, draft.program.Sound statement) →
    draft.program.Separate code.statements → draft.pending = [] →
    Walk.Answers (code.heads.mapM (hoistStatement limit budget)) draft answers draft' →
    ∃ code' rows edited, draft.program.Hoisted draft'.program draft.program.vars.size
        code code' draft'.program.vars.size ∧
      draft.program.Regrows draft'.program code code' rows edited ∧
      answers.flatten = code'.heads ∧ draft'.pending = []

theorem hoistsStatements_step {statement : Tree} {rest : Code}
    (hlater : HoistsStatements limit budget rest) :
    HoistsStatements limit budget (.step statement rest) := by
  intro draft draft' answers hshaped hsound hseparate hpending hanswers
  obtain ⟨hlists, hrestShaped⟩ := hshaped
  obtain ⟨hstatementSound, hrestSound⟩ := List.forall_mem_cons.mp hsound
  have hdisjoint : statement.ids.Disjoint rest.ids := by
    have := hseparate.disjoint [statement]
    simpa [Code.ids] using this
  obtain ⟨_, later, _, hfirst, hrest, rfl⟩ := Walk.answers_mapM_cons.mp hanswers
  obtain ⟨parts', rows, between, hlifted, hgrows, hlists', hnone, rfl, hbodies⟩ :=
    exists_of_hoistStatement hstatementSound (hseparate.left [statement]) hpending hfirst
  rw [hlists] at hbodies
  obtain rfl := Walk.answers_forM_nil.mp hbodies
  have hrestSeparate := hseparate.right [statement]
  obtain ⟨rest', rows', edited', hhoisted, hregrows, hflatten, hnone'⟩ := hlater _ _ _ hrestShaped
    (fun other hother => (hrestSound other hother).congr hgrows.signatures)
    (hrestSeparate.of_grows hgrows hdisjoint.symm) hnone hrest
  refine ⟨.prepend (rows.map Row.statement) (.step (statement.withChildren parts') rest'),
    rows ++ rows', statement.withChildren parts' :: edited',
    .step hlists hlifted ?_ (hhoisted.congr hgrows.signatures), ⟨?_, ?_, ?_⟩, ?_, hnone'⟩
  · exact (hgrows.declares hlifted.temporaries_eq).mono (fun _ _ => hregrows.grows.getElem?_vars)
      hregrows.grows.signatures
  · rw [Code.ids_step]
    exact hgrows.append hregrows.grows hdisjoint hrestSeparate.lt_size
  · rw [Code.statements_prepend, Code.statements]
    exact perm_prepend hregrows.perm
  · exact Code.shaped_prepend.mpr ⟨lists_of_mem_rows, hlists'.trans hlists, hregrows.shaped⟩
  · rw [List.flatten_cons, hflatten, Code.heads_prepend, List.map_map]
    simp [Code.heads, Function.comp_def, Row.statement]

theorem hoistsStatements_branch (hnested : HoistsLists limit budget) {statement : Tree}
    {thenBody elseBody rest : Code} (hlater : HoistsStatements limit budget rest) :
    HoistsStatements limit budget (.branch statement thenBody elseBody rest) := by
  intro draft draft' answers hshaped hsound hseparate hpending hanswers
  obtain ⟨⟨condition, hnode⟩, hthenShaped, helseShaped, hrestShaped⟩ := hshaped
  obtain ⟨hstatementSound, hlaterSound⟩ := List.forall_mem_cons.mp hsound
  obtain ⟨hbodiesSound, hrestSound⟩ := List.forall_mem_append.mp hlaterSound
  obtain ⟨hthenSound, helseSound⟩ := List.forall_mem_append.mp hbodiesSound
  obtain ⟨id, condition, rfl⟩ := hstatementSound.exists_of_branch hnode
  obtain ⟨hhead, hthenSeparate, helseSeparate, hrestSeparate⟩ := hseparate.of_branch
  obtain ⟨hthenApart, helseApart, hrestApart⟩ := hseparate.disjoint_of_branch
  obtain ⟨_, later, afterBodies, hfirst, hrest, rfl⟩ := Walk.answers_mapM_cons.mp hanswers
  obtain ⟨parts', rows, between, hlifted, hgrows, -, hnone, rfl, hbodies⟩ :=
    exists_of_hoistStatement hstatementSound hhead hpending hfirst
  obtain ⟨condition', rfl⟩ := List.length_eq_one_iff.mp hlifted.length_eq
  obtain ⟨afterThen, hthen, hbodies⟩ := Walk.answers_forM_cons.mp hbodies
  obtain ⟨_, helse, hbodies⟩ := Walk.answers_forM_cons.mp hbodies
  obtain rfl := Walk.answers_forM_nil.mp hbodies
  obtain ⟨thenBody', rowsThen, editedThen, hhoistedThen, hgrowsThen, hpermThen, hshapedThen,
    hnoneThen⟩ := exists_of_hoistBody hnested (.thenBody id)
      (.branch condition'.id thenBody.heads elseBody.heads)
        [] hgrows (by simp) (by simp [Node.lists])
      rfl hthenShaped hthenSound hthenSeparate hthenApart hnone hthen
  obtain ⟨elseBody', rowsElse, editedElse, hhoistedElse, hgrowsElse, hpermElse, hshapedElse,
    hnoneElse⟩ := exists_of_hoistBody hnested (.elseBody id)
      (.branch condition'.id thenBody'.heads elseBody.heads) _ hgrowsThen (by simp)
      (by simp [Node.lists]) rfl helseShaped helseSound helseSeparate helseApart hnoneThen helse
  obtain ⟨rest', rowsRest, editedRest, hhoisted, hregrows, hflatten, hnone'⟩ := hlater _ _ _
    hrestShaped (fun other hother => (hrestSound other hother).congr hgrowsElse.signatures)
    (hrestSeparate.of_grows hgrowsElse hrestApart.symm) hnoneElse hrest
  have hgrowsRest := hgrowsElse.append hregrows.grows hrestApart hrestSeparate.lt_size
  have hkeeps : ∀ (rows'' : List Row) {program : Program} {old : List NodeId} {rows' : List Row}
      {trees : List Tree}, draft.program.Grows program old rows' trees →
        rows ++ rowsThen ++ rowsElse ++ rowsRest = rows' ++ rows'' → ∀ (index : Nat) declared,
          program.vars[index]? = some declared → draft'.program.vars[index]? = some declared := by
    intro rows'' program old rows' trees hfirst hsplit index declared
    rw [hsplit] at hgrowsRest
    exact hfirst.getElem?_vars_of_append hgrowsRest
  have hdeclares := (hgrows.declares hlifted.temporaries_eq).mono
    (hkeeps (rowsThen ++ rowsElse ++ rowsRest) hgrows (by simp))
    (hgrowsRest.signatures.trans hgrows.signatures.symm)
  have hhoistedThen := hhoistedThen.mono (hkeeps (rowsElse ++ rowsRest) hgrowsThen (by simp))
    (hgrowsRest.signatures.trans hgrowsThen.signatures.symm)
  have hhoistedElse := hhoistedElse.mono (hkeeps rowsRest hgrowsElse rfl)
    (hgrowsRest.signatures.trans hgrowsElse.signatures.symm)
  refine ⟨.prepend (rows.map Row.statement) (.branch ⟨id, .branch condition'.id thenBody'.heads
    elseBody'.heads, [condition']⟩ thenBody' elseBody' rest'),
    rows ++ (rowsThen ++ rowsElse ++ rowsRest),
    ⟨id, .branch condition'.id thenBody'.heads elseBody'.heads, [condition']⟩ ::
      (editedThen ++ editedElse ++ editedRest), .branch hlifted hdeclares hhoistedThen hhoistedElse
        (hhoisted.congr hgrowsElse.signatures), ⟨?_, ?_, ?_⟩, ?_, hnone'⟩
  · rw [Code.ids_branch]
    simpa [List.append_assoc, Node.withBody] using hgrowsRest
  · rw [Code.statements_prepend, Code.statements]
    exact perm_prepend (perm_append (perm_append hpermThen hpermElse) hregrows.perm)
  · exact Code.shaped_prepend.mpr ⟨lists_of_mem_rows, ⟨_, rfl⟩, hshapedThen, hshapedElse,
      hregrows.shaped⟩
  · rw [List.flatten_cons, hflatten, Code.heads_prepend, List.map_map]
    simp [Code.heads, Function.comp_def, Row.statement]

theorem hoistsStatements_loop (hnested : HoistsLists limit budget) {statement : Tree}
    {body rest : Code} (hlater : HoistsStatements limit budget rest) :
    HoistsStatements limit budget (.loop statement body rest) := by
  intro draft draft' answers hshaped hsound hseparate hpending hanswers
  obtain ⟨hnode, hbodyShaped, hrestShaped⟩ := hshaped
  obtain ⟨hstatementSound, hlaterSound⟩ := List.forall_mem_cons.mp hsound
  obtain ⟨hbodySound, hrestSound⟩ := List.forall_mem_append.mp hlaterSound
  obtain ⟨id, rfl⟩ := hstatementSound.exists_of_loop hnode
  obtain ⟨hhead, hbodySeparate, hrestSeparate⟩ := hseparate.of_loop
  obtain ⟨hbodyApart, hrestApart⟩ := hseparate.disjoint_of_loop
  obtain ⟨_, later, afterBody, hfirst, hrest, rfl⟩ := Walk.answers_mapM_cons.mp hanswers
  obtain ⟨parts', rows, between, hlifted, hgrows, -, hnone, rfl, hbodies⟩ :=
    exists_of_hoistStatement hstatementSound hhead hpending hfirst
  obtain ⟨rfl, rfl, -, hsize⟩ := hlifted.of_nil
  obtain ⟨_, hbody, hbodies⟩ := Walk.answers_forM_cons.mp hbodies
  obtain rfl := Walk.answers_forM_nil.mp hbodies
  obtain ⟨body', rowsBody, editedBody, hhoistedBody, hgrowsBody, hpermBody, hshapedBody,
    hnoneBody⟩ := exists_of_hoistBody hnested (.loopBody id) (.loop body.heads) [] hgrows (by simp)
      (by simp [Node.lists]) rfl hbodyShaped hbodySound hbodySeparate hbodyApart hnone hbody
  obtain ⟨rest', rowsRest, editedRest, hhoisted, hregrows, hflatten, hnone'⟩ := hlater _ _ _
    hrestShaped (fun other hother => (hrestSound other hother).congr hgrowsBody.signatures)
    (hrestSeparate.of_grows hgrowsBody hrestApart.symm) hnoneBody hrest
  have hgrowsRest := hgrowsBody.append hregrows.grows hrestApart hrestSeparate.lt_size
  have hhoistedBody := hhoistedBody.mono (fun _ _ => hgrowsBody.getElem?_vars_of_append hgrowsRest)
    (hgrowsRest.signatures.trans hgrowsBody.signatures.symm)
  rw [hsize] at hhoistedBody
  refine ⟨.loop ⟨id, .loop body'.heads, []⟩ body' rest', rowsBody ++ rowsRest,
    ⟨id, .loop body'.heads, []⟩ :: (editedBody ++ editedRest),
    .loop hhoistedBody (hhoisted.congr hgrowsBody.signatures), ⟨?_, ?_, ?_⟩, ?_, hnone'⟩
  · rw [Code.ids_loop]
    simpa [List.append_assoc, Node.withBody] using hgrowsRest
  · have hperm := perm_append hpermBody hregrows.perm
    rw [Code.statements]
    exact (hperm.cons _).trans List.perm_middle.symm
  · exact ⟨rfl, hshapedBody, hregrows.shaped⟩
  · rw [List.flatten_cons, hflatten]
    simp [Code.heads]

/-- By induction on the code, from what a walk makes of the lists that its statements own. -/
theorem hoistsStatements (hnested : HoistsLists limit budget) (code : Code) :
    HoistsStatements limit budget code := by
  induction code with
  | nil =>
    intro draft draft' answers _ _ _ hpending hanswers
    obtain ⟨rfl, rfl⟩ := Walk.answers_mapM_nil.mp hanswers
    have hnothing : draft.program.Grows draft.program ([].flatMap Tree.ids) [] [] :=
      .of_draws (by simp) (by simp)
    exact ⟨.nil, [], [], .nil _, ⟨hnothing, by simp [Code.statements], trivial⟩, rfl, hpending⟩
  | step _ _ ih => exact hoistsStatements_step ih
  | branch _ _ _ _ _ _ ih => exact hoistsStatements_branch hnested ih
  | loop _ _ _ _ ih => exact hoistsStatements_loop hnested ih

theorem hoistsLists (limit budget : Nat) : HoistsLists limit budget := by
  induction budget with
  | zero => exact fun _ _ _ _ _ _ _ _ _ hanswers => absurd hanswers Walk.answers_throw
  | succ budget ih =>
    intro ref code draft draft' hlist hshaped hsound hseparate hpending hanswers
    simp only [hoistList_succ, Walk.answers_bind, answers_ask, Walk.answers_modify] at hanswers
    obtain ⟨statements, _, ⟨hstatements, rfl⟩, answers, between, hrows, program, _, ⟨hset, rfl⟩,
      rfl⟩ := hanswers
    obtain rfl := Except.ok.inj (hlist.symm.trans hstatements)
    obtain ⟨code', rows, edited, hhoisted, hregrows, hflatten, hnone⟩ :=
      hoistsStatements ih code draft between answers hshaped hsound hseparate hpending hrows
    rw [hflatten] at hset
    exact ⟨between.program, code', rows, edited, hhoisted, hregrows, hset, hnone⟩

end ThreeAddress

end ShaderIR
