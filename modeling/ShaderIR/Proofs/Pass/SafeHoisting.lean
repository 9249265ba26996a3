import ShaderIR.Proofs.Pass.HoistingRuns
import ShaderIR.Proofs.Pass.SafeEdits

/-!
Bringing a checked program into three-address form does not crash: what is taken out says itself of
which type it is (`ThreeAddress.reliance`), and the lists of a program stay where they are while it
is edited (`Program.Outlines.returns_hoistSubexpressions`).
-/

set_option autoImplicit false

namespace ShaderIR

namespace ThreeAddress

open Edit

variable {limit budget : Nat} {draft draft' : Draft Unit}

/-! ### Expressions -/

/-- Every draft will do. -/
theorem reliance : Reliance remembers verdict (fun _ => True) fun _ => True where
  congr _ _ _ _ := trivial
  kept _ _ _ _ := trivial
  typed {_ _ tree _ _} hlifts _ _ htaken _ := by
    obtain ⟨id, node, children⟩ := tree
    cases hlifts.lifted with
    | kept _ hchildren _ =>
      cases node with
      | apply op operands ty => exact ⟨ty, by rw [Tree.withChildren, Tree.ty?_mk]; rfl⟩
      | _ => exact absurd rfl htaken

theorem safe_hoistExpression (limit budget : Nat) (tree : Tree) :
    Safe (fun _ => True) (hoistExpression limit budget) tree := by
  induction budget generalizing tree with
  | zero => exact fun _ _ _ => Walk.returns_throw
  | succ budget ih =>
    intro draft hseparate _
    have hedit : ∀ child ∈ tree.children,
        Edits remembers verdict .value (hoistExpression limit budget) child :=
      fun child _ => edits_hoistExpression limit budget child
    have hchildren : Walk.Returns (editChildren (hoistExpression limit budget) tree.id) draft :=
      safe_editChildren reliance hedit (fun child _ => ih child)
        (fun _ _ => trivial) draft hseparate trivial
    unfold hoistExpression
    refine Walk.ReturnsUnless.bind hchildren fun _ between hanswers => ?_
    obtain ⟨children, rows, -, hgrows, -⟩ := exists_of_editChildren hedit hseparate hanswers
    have hdraws := hgrows.draws (tree.withChildren children) (by simp)
    refine Walk.ReturnsUnless.bind (returns_ask hdraws.node_eq) fun node _ hanswer => ?_
    obtain ⟨hnode, rfl⟩ := answers_ask.mp hanswer
    split
    · next hcompound =>
      have htaken : verdict tree ≠ none := by
        rw [isCompound_of_editChildren hedit hseparate hanswers hnode] at hcompound
        simp [verdict, hcompound]
      exact Walk.ReturnsUnless.bind (returns_materialize_of_editChildren reliance hedit
        (fun _ _ => trivial) hseparate trivial htaken hanswers) fun _ _ _ => returns_readOf
    · exact Walk.returns_pure

theorem safe_hoistValue (limit budget : Nat) (tree : Tree) :
    Safe (fun _ => True) (hoistValue limit budget) tree := by
  intro draft hseparate _
  unfold hoistValue
  refine Walk.ReturnsUnless.bind (returns_ask (hseparate.draws tree List.mem_cons_self).node_eq)
    fun node _ hanswer => ?_
  obtain ⟨-, rfl⟩ := answers_ask.mp hanswer
  split
  · exact Walk.ReturnsUnless.bind (safe_editChildren reliance (fun child _ =>
        edits_hoistExpression limit _ child) (fun child _ => safe_hoistExpression limit _ child)
        (fun _ _ => trivial) draft hseparate trivial) fun _ _ _ => Walk.returns_pure
  · exact safe_hoistExpression limit budget tree draft hseparate trivial

theorem safe_rules (limit budget : Nat) :
    (rules limit budget).Safe (fun _ => True) fun _ => True where
  value tree _ := safe_hoistValue limit budget tree
  target _ hplace _ := safe_editPlace reliance (edits_hoistExpression limit)
    (fun budget tree _ => safe_hoistExpression limit budget tree) budget hplace fun _ _ => trivial
  operand tree _ := safe_hoistExpression limit budget tree
  place _ hplace _ := safe_editPlace reliance (edits_hoistExpression limit)
    (fun budget tree _ => safe_hoistExpression limit budget tree) budget hplace fun _ _ => trivial

/-! ### Lists -/

/-- Bringing a list into three-address form does not crash, wherever it stands. -/
def ReturnsLists (limit budget : Nat) : Prop :=
  ∀ (ref : ListRef) (code : Code) (draft : Draft Unit), draft.program.list ref = .ok code.heads →
    (ref = .root ∨ ∃ owner node, draft.program.node owner = .ok node ∧
      ref ∈ node.lists owner ∧ owner ∉ code.ids) →
    code.Shaped → (∀ statement ∈ code.statements, draft.program.Sound statement) →
    draft.program.Separate code.statements → draft.pending = [] →
      Walk.Returns (hoistList limit budget ref) draft

/-- One statement of a list, when this is so for the lists that it owns. -/
theorem returns_hoistStatement {statement : Tree} (hsound : draft.program.Sound statement)
    (hseparate : draft.program.Separate [statement])
    (hbodies : ∀ (parts' : List Tree) (rows : List Row) (between : Draft Unit),
      draft.program.Grows between.program statement.ids rows [statement.withChildren parts'] →
        parts'.length = statement.children.length → between.pending = [] →
          Walk.Returns ((statement.node.lists statement.id).forM (hoistList limit budget))
          between) : Walk.Returns (hoistStatement limit budget statement.id) draft := by
  refine Walk.ReturnsUnless.bind (returns_editStatement reliance (lifting_rules limit budget)
    (safe_rules limit budget) hsound hseparate (fun _ _ _ _ => trivial) trivial)
    fun _ edited hedit => ?_
  obtain ⟨parts', rows, hlifted, hgrows, -, hnested, -⟩ :=
    exists_of_editListed hsound hseparate hedit
  refine Walk.ReturnsUnless.bind returns_takePending fun _ _ htaken => ?_
  obtain ⟨rfl, rfl⟩ := Prod.mk.inj (Walk.answers_modifyGet.mp htaken)
  refine Walk.ReturnsUnless.bind (returns_ask hnested) fun lists _ hanswer => ?_
  obtain ⟨hfound, rfl⟩ := answers_ask.mp hanswer
  obtain rfl : statement.node.lists statement.id = lists :=
    Except.ok.inj (hnested.symm.trans hfound)
  have hlength : parts'.length = statement.children.length := by
    rw [hlifted.length_eq, ← Program.map_snd_parts hsound .root, List.length_map]
  exact Walk.ReturnsUnless.bind (hbodies parts' rows _ hgrows hlength rfl) fun _ _ _ =>
    Walk.returns_pure

/-- What comes behind a statement and its lists is still there when these have been edited. -/
theorem separate_of_hoistStatement {one rest : Code} {id : NodeId} (hheads : one.heads = [id])
    (hshaped : one.Shaped) (hsound : ∀ statement ∈ one.statements, draft.program.Sound statement)
    (hseparate : draft.program.Separate (one.statements ++ rest.statements))
    (hpending : draft.pending = []) {answer : List NodeId}
    (hanswers : Walk.Answers (hoistStatement limit budget id) draft answer draft') :
    draft'.program.Separate rest.statements ∧
      draft'.program.signatures = draft.program.signatures ∧ draft'.pending = [] := by
  obtain ⟨one', rows, edited, -, hregrows, -, hnone⟩ := hoistsStatements (hoistsLists limit budget)
    one draft draft' [answer] hshaped hsound (hseparate.left one.statements) hpending (by
      rw [hheads]
      exact Walk.answers_mapM_cons.mpr
        ⟨answer, [], draft', hanswers, Walk.answers_mapM_nil.mpr ⟨rfl, rfl⟩, rfl⟩)
  exact ⟨(hseparate.right one.statements).of_grows hregrows.grows
    (hseparate.disjoint one.statements).symm, hregrows.grows.signatures, hnone⟩

/-- A list that a statement owns, after the statement itself and perhaps others of its lists. -/
theorem returns_hoistBody (hnested : ReturnsLists limit budget) {program : Program}
    {old : List NodeId} {rows : List Row} {id : NodeId} (ref : ListRef)
    (node : Node) {children : List Tree} (trees : List Tree) {code : Code}
    (hgrows : program.Grows draft.program old rows (⟨id, node, children⟩ :: trees))
    (hold : id ∈ old) (href : ref ∈ node.lists id) (hbody : node.bodyAt ref = code.heads)
    (hshaped : code.Shaped) (hsound : ∀ statement ∈ code.statements, program.Sound statement)
    (hseparate : program.Separate code.statements)
    (hdisjoint : old.Disjoint code.ids) (hpending : draft.pending = []) :
    Walk.Returns (hoistList limit budget ref) draft := by
  have hnode := (hgrows.draws ⟨id, node, children⟩ (by simp)).node_eq
  exact hnested ref code draft (hbody ▸ Program.list_of_mem_lists hnode href)
    (Or.inr ⟨id, node, hnode, href, fun hmem => hdisjoint hold hmem⟩) hshaped
    (fun other hother => (hsound other hother).congr hgrows.signatures)
      (hseparate.of_grows hgrows hdisjoint.symm) hpending

theorem returns_hoistStatements (hnested : ReturnsLists limit budget) {code : Code}
    (hshaped : code.Shaped) (hsound : ∀ statement ∈ code.statements, draft.program.Sound statement)
    (hseparate : draft.program.Separate code.statements) (hpending : draft.pending = []) :
    Walk.Returns (code.heads.mapM (hoistStatement limit budget)) draft := by
  induction code generalizing draft with
  | nil =>
    rw [Code.heads, List.mapM_nil]
    exact Walk.returns_pure
  | step statement rest ih =>
    obtain ⟨hlists, hrestShaped⟩ := hshaped
    obtain ⟨hstatementSound, hrestSound⟩ := List.forall_mem_cons.mp hsound
    rw [Code.heads, List.mapM_cons]
    refine Walk.ReturnsUnless.bind (returns_hoistStatement hstatementSound
      (hseparate.left [statement]) fun parts' rows between hgrows _ hnone => ?_)
      fun answer between hfirst => ?_
    · rw [hlists]
      exact Walk.returns_pure
    · have hone : (Code.step statement .nil).heads = [statement.id] := rfl
      obtain ⟨hrest, hsignatures, hnone⟩ := separate_of_hoistStatement hone ⟨hlists, trivial⟩
        (List.forall_mem_singleton.mpr hstatementSound) hseparate hpending hfirst
      exact Walk.ReturnsUnless.bind (ih hrestShaped
        (fun other hother => (hrestSound other hother).congr hsignatures) hrest hnone)
        fun _ _ _ => Walk.returns_pure
  | branch statement thenBody elseBody rest _ _ ih =>
    obtain ⟨⟨condition, hnode⟩, hthenShaped, helseShaped, hrestShaped⟩ := hshaped
    obtain ⟨hstatementSound, hlaterSound⟩ := List.forall_mem_cons.mp hsound
    obtain ⟨hbodiesSound, hrestSound⟩ := List.forall_mem_append.mp hlaterSound
    obtain ⟨hthenSound, helseSound⟩ := List.forall_mem_append.mp hbodiesSound
    obtain ⟨id, condition, rfl⟩ := hstatementSound.exists_of_branch hnode
    obtain ⟨hhead, hthenSeparate, helseSeparate, -⟩ := hseparate.of_branch
    obtain ⟨hthenApart, helseApart, -⟩ := hseparate.disjoint_of_branch
    rw [Code.heads, List.mapM_cons]
    refine Walk.ReturnsUnless.bind (returns_hoistStatement hstatementSound hhead
      fun parts' rows between hgrows hlength hnone => ?_) fun answer between hfirst => ?_
    · obtain ⟨condition', rfl⟩ := List.length_eq_one_iff.mp hlength
      refine Walk.ReturnsUnless.bind (returns_hoistBody hnested (.thenBody id)
        (.branch condition'.id thenBody.heads elseBody.heads) [] hgrows (by simp)
        (by simp [Node.lists]) rfl hthenShaped hthenSound hthenSeparate hthenApart hnone)
        fun _ afterThen hthen => ?_
      obtain ⟨thenBody', rowsThen, editedThen, -, hgrowsThen, -, -, hnoneThen⟩ :=
        exists_of_hoistBody (hoistsLists limit budget) (.thenBody id)
        (.branch condition'.id thenBody.heads elseBody.heads) [] hgrows (by simp)
        (by simp [Node.lists]) rfl hthenShaped hthenSound hthenSeparate hthenApart hnone hthen
      refine Walk.ReturnsUnless.bind (returns_hoistBody hnested (.elseBody id)
        (.branch condition'.id thenBody'.heads elseBody.heads) _ hgrowsThen (by simp)
        (by simp [Node.lists]) rfl helseShaped helseSound helseSeparate helseApart hnoneThen)
        fun _ _ _ => Walk.returns_pure
    · have hone : (Code.branch ⟨id, .branch condition.id thenBody.heads elseBody.heads, [condition]⟩
          thenBody elseBody .nil).heads = [id] := rfl
      obtain ⟨hrest, hsignatures, hnone⟩ := separate_of_hoistStatement hone
        ⟨⟨condition.id, rfl⟩, hthenShaped, helseShaped, trivial⟩
        (List.forall_mem_cons.mpr ⟨hstatementSound, by simpa [Code.statements] using hbodiesSound⟩)
        (by simpa [Code.statements] using hseparate) hpending hfirst
      exact Walk.ReturnsUnless.bind (ih hrestShaped
        (fun other hother => (hrestSound other hother).congr hsignatures) hrest hnone)
        fun _ _ _ => Walk.returns_pure
  | loop statement body rest _ ih =>
    obtain ⟨hnode, hbodyShaped, hrestShaped⟩ := hshaped
    obtain ⟨hstatementSound, hlaterSound⟩ := List.forall_mem_cons.mp hsound
    obtain ⟨hbodySound, hrestSound⟩ := List.forall_mem_append.mp hlaterSound
    obtain ⟨id, rfl⟩ := hstatementSound.exists_of_loop hnode
    obtain ⟨hhead, hbodySeparate, -⟩ := hseparate.of_loop
    rw [Code.heads, List.mapM_cons]
    refine Walk.ReturnsUnless.bind (returns_hoistStatement hstatementSound hhead
      fun parts' rows between hgrows hlength hnone => ?_) fun answer between hfirst => ?_
    · obtain rfl := List.eq_nil_of_length_eq_zero hlength
      exact Walk.ReturnsUnless.bind (returns_hoistBody hnested (.loopBody id) (.loop body.heads)
        [] hgrows (by simp) (by simp [Node.lists]) rfl hbodyShaped hbodySound hbodySeparate
        hseparate.disjoint_of_loop.1 hnone) fun _ _ _ => Walk.returns_pure
    · have hone : (Code.loop ⟨id, .loop body.heads, []⟩ body .nil).heads = [id] := rfl
      obtain ⟨hrest, hsignatures, hnone⟩ := separate_of_hoistStatement hone
        ⟨rfl, hbodyShaped, trivial⟩
        (List.forall_mem_cons.mpr ⟨hstatementSound, by simpa [Code.statements] using hbodySound⟩)
        (by simpa [Code.statements] using hseparate) hpending hfirst
      exact Walk.ReturnsUnless.bind (ih hrestShaped
        (fun other hother => (hrestSound other hother).congr hsignatures) hrest hnone)
        fun _ _ _ => Walk.returns_pure

theorem returnsLists (limit budget : Nat) : ReturnsLists limit budget := by
  induction budget with
  | zero => exact fun _ _ _ _ _ _ _ _ _ => Walk.returns_throw
  | succ budget ih =>
    intro ref code draft hlist howned hshaped hsound hseparate hpending
    rw [hoistList_succ]
    refine Walk.ReturnsUnless.bind (returns_ask hlist) fun statements _ hanswer => ?_
    obtain ⟨hstatements, rfl⟩ := answers_ask.mp hanswer
    obtain rfl : code.heads = statements := Except.ok.inj (hlist.symm.trans hstatements)
    refine Walk.ReturnsUnless.bind (returns_hoistStatements ih hshaped hsound hseparate hpending)
      fun rows between hrows => ?_
    obtain ⟨code', made, edited, -, hregrows, -, -⟩ :=
      hoistsStatements (hoistsLists limit budget) code draft between rows hshaped hsound hseparate
        hpending hrows
    obtain ⟨after, hset⟩ : ∃ program, between.program.setList ref rows.flatten = .ok program := by
      rcases howned with rfl | ⟨owner, node, hnode, href, hapart⟩
      · exact ⟨_, rfl⟩
      · have hframe := hregrows.grows.frame owner (Program.lt_size_of_node hnode) hapart
        exact ⟨_, Program.setList_of_mem_lists (hframe.trans hnode) href _⟩
    exact Walk.ReturnsUnless.bind (returns_ask hset) fun _ _ _ => Walk.returns_modify

end ThreeAddress

/-! ### The pass -/

namespace Program

variable {program : Program}

theorem exists_fitsWithin (budget : Nat) {tree : Tree} (hdraws : program.Draws tree) :
    ∃ fits, program.fitsWithin budget tree.id = .ok fits := by
  induction budget generalizing tree with
  | zero => exact ⟨false, rfl⟩
  | succ budget ih =>
    have hall {trees : List Tree} (htrees : ∀ child ∈ trees, program.Draws child) :
        ∃ fits, (trees.map Tree.id).allM (program.fitsWithin budget) = .ok fits := by
      induction trees with
      | nil => exact ⟨true, rfl⟩
      | cons child trees ihtrees =>
        rw [List.forall_mem_cons] at htrees
        obtain ⟨first, hfirst⟩ := ih htrees.1
        rw [List.map_cons, List.allM, hfirst]
        cases first with
        | false => exact ⟨false, rfl⟩
        | true => exact ihtrees htrees.2
    obtain ⟨fits, hfits⟩ := hall fun child => hdraws.child
    refine ⟨fits, ?_⟩
    rw [fitsWithin, hdraws.node_eq]
    change tree.node.children.allM _ = _
    rw [hdraws.children_eq, hfits]

/-- A statement of a list owns lists that hold codes in their turn. -/
theorem DrawsCode.exists_of_mem_heads {code : Code}
    (hdrawn : program.DrawsCode code) : ∀ id ∈ code.heads,
    ∃ statement, statement.id = id ∧ program.Draws statement ∧ ∀ ref ∈ statement.node.lists id,
      ∃ body, program.DrawsCode body ∧ program.list ref = .ok body.heads := by
  induction hdrawn with
  | nil => simp [Code.heads]
  | @step statement rest hstatement hlists _ ih =>
    exact List.forall_mem_cons.mpr ⟨⟨statement, rfl, hstatement, by simp [hlists]⟩, ih⟩
  | @branch statement condition thenBody elseBody rest hstatement hnode hthen helse _ _ _ ih =>
    refine List.forall_mem_cons.mpr ⟨⟨statement, rfl, hstatement, ?_⟩, ih⟩
    have hbranch := hnode ▸ hstatement.node_eq
    simpa [hnode, Node.lists] using ⟨⟨thenBody, hthen, list_thenBody hbranch⟩, elseBody, helse,
      list_elseBody hbranch⟩
  | @loop statement body rest hstatement hnode hbody _ _ ih =>
    refine List.forall_mem_cons.mpr ⟨⟨statement, rfl, hstatement, ?_⟩, ih⟩
    simpa [hnode, Node.lists] using ⟨body, hbody, list_loopBody (hnode ▸ hstatement.node_eq)⟩

theorem returns_checkDepthWithin {spared : Crash → Prop} (limit budget : Nat) {ref : ListRef}
    {code : Code} (hdrawn : program.DrawsCode code) (hlist : program.list ref = .ok code.heads) :
    Query.ReturnsUnless (program.checkDepthWithin limit budget ref) spared := by
  induction budget generalizing ref code with
  | zero => exact Query.returns_throw
  | succ budget ih =>
    unfold checkDepthWithin
    refine Query.ReturnsUnless.bind (Query.returns_liftCrash_of_eq hlist)
      fun statements hstatements => ?_
    obtain rfl : code.heads = statements :=
      Except.ok.inj (hlist.symm.trans (Query.answers_liftCrash.mp hstatements))
    refine Query.returns_forM fun id hid => ?_
    obtain ⟨statement, rfl, hstatement, hbodies⟩ := hdrawn.exists_of_mem_heads id hid
    obtain ⟨fits, hfits⟩ := exists_fitsWithin (budget + 1) hstatement
    have hnested : program.nestedLists statement.id = .ok (statement.node.lists statement.id) :=
      bind_eq_ok_iff.mpr ⟨_, hstatement.node_eq, rfl⟩
    have hlater : Query.ReturnsUnless (do
        (← program.nestedLists statement.id).forM (program.checkDepthWithin limit budget) :
          Query PassError Unit) spared := by
      refine Query.ReturnsUnless.bind (Query.returns_liftCrash_of_eq hnested) fun lists hlists => ?_
      obtain rfl : statement.node.lists statement.id = lists :=
        Except.ok.inj (hnested.symm.trans (Query.answers_liftCrash.mp hlists))
      refine Query.returns_forM fun ref href => ?_
      obtain ⟨body, hbody, hlist⟩ := hbodies ref href
      exact ih hbody hlist
    refine Query.ReturnsUnless.bind (Query.returns_liftCrash_of_eq hfits) fun fits _ => ?_
    cases fits with
    | false => exact Query.ReturnsUnless.bind Query.returns_throw fun _ _ => hlater
    | true => exact hlater

theorem Outlines.returns_hoistSubexpressions {code : Code}
    (houtlines : program.Outlines code) (limit : Nat) :
    Walk.Returns (hoistSubexpressions limit) program := by
  have hdepth : Query.Returns (program.checkDepth limit) :=
    returns_checkDepthWithin limit _ houtlines.draws (congrArg Except.ok houtlines.body)
  have hlist :
      Walk.Returns (ThreeAddress.hoistList limit (limit + 1) .root) { program, memory := () } :=
    ThreeAddress.returnsLists limit _ .root code _ (congrArg Except.ok houtlines.body) (Or.inl rfl)
      houtlines.draws.shaped houtlines.sound ⟨houtlines.draws.statement, houtlines.nodup⟩ rfl
  unfold hoistSubexpressions
  refine Walk.ReturnsUnless.bind Walk.returns_get fun _ _ hget => ?_
  obtain ⟨rfl, rfl⟩ := Walk.answers_get.mp hget
  refine Walk.ReturnsUnless.bind (Walk.returns_attempt.mpr (Walk.returns_liftQuery.mpr hdepth))
    fun outcome between _ => ?_
  cases outcome with
  | error failure =>
    exact Walk.ReturnsUnless.bind Walk.returns_modify fun _ _ _ => Walk.returns_throw
  | ok =>
    dsimp only
    refine Walk.ReturnsUnless.bind (Walk.returns_liftCrash.mpr hlist) fun reached _ _ => ?_
    exact Walk.ReturnsUnless.bind Walk.returns_set fun _ _ _ =>
      Walk.ReturnsUnless.bind Walk.returns_liftExcept fun _ _ _ =>
      Walk.returns_pure

end Program

end ShaderIR
