import ShaderIR.Proofs.Numbering.Safety
import ShaderIR.Proofs.Pass.SafeHoisting
import ShaderIR.Proofs.Pass.SharedBlocks
import ShaderIR.Proofs.Pass.WellFormed

/-!
Sharing that does not crash. It asks for the types of what it takes out, when operands of that may
be reads of temporaries already. It gets them if only computations are taken out that say themselves
of which type they are (`SharingPlan.reliance_of_declared`), and also if what shares a number had
one type before (`SharingPlan.reliance_of_consistent`). Then the statements of a block withstand
sharing (`SharingPlan.Withstands`), so no block stops the pass (`returns_shareBlocks`), and checked
programs pass through both passes (`Program.returns_passes`).
-/

set_option autoImplicit false

namespace ShaderIR

open Program Edit

namespace SharingPlan

variable {plan : SharingPlan} {draft draft' : Draft Temporaries} {relevant : Tree → Prop}

/-! ### What sharing relies on -/

/-- Every draft will do if all that is taken out says itself of which type it is. -/
theorem reliance_of_declared (hdeclared : ∀ tree, relevant tree → plan.verdict tree ≠ none →
    tree.node.kind = .expression ∨ tree.node.kind = .texture) :
    Reliance id plan.verdict relevant fun _ => True where
  congr _ _ _ _ := trivial
  kept _ _ _ _ := trivial
  typed {_ _ tree _ _} hlifts _ hrelevant htaken _ := by
    have hkind := hdeclared tree (hrelevant tree tree.mem_subtrees_self) htaken
    obtain ⟨id, node, children⟩ := tree
    cases hlifts.lifted with
    | kept _ hchildren _ =>
      cases node with
      | apply op operands ty => exact ⟨ty, by rw [Tree.withChildren, Tree.ty?_mk]; rfl⟩
      | texture op channel operands ty => exact ⟨ty, by rw [Tree.withChildren, Tree.ty?_mk]; rfl⟩
      | _ => simp [Node.kind] at hkind

/-- Temporaries have the types that what they hold had in an earlier program, whose variables are
all still there. -/
structure Remains (plan : SharingPlan) (relevant : Tree → Prop) (origin : Program)
    (draft : Draft Temporaries) : Prop where
  vars : ∀ (index : Nat) declared, origin.vars[index]? = some declared →
    draft.program.vars[index]? = some declared
  signatures : draft.program.signatures = origin.signatures
  typed : draft.memory.Typed origin draft.program relevant plan.verdict

theorem Remains.grow {origin : Program} (hremains : plan.Remains relevant origin draft)
    (hvars : ∀ (index : Nat) declared, draft.program.vars[index]? = some declared →
      draft'.program.vars[index]? = some declared)
    (hsignatures : draft'.program.signatures = draft.program.signatures) :
    (∀ (index : Nat) declared, origin.vars[index]? = some declared →
      draft'.program.vars[index]? = some declared) ∧
      draft'.program.signatures = origin.signatures ∧
        draft.memory.Typed origin draft'.program relevant plan.verdict := by
  refine ⟨fun index declared hdeclared => hvars index declared
    (hremains.vars index declared hdeclared), hsignatures.trans hremains.signatures,
    fun number temporary hlookup tree htree hverdict ty hty => ?_⟩
  obtain ⟨declared, hdeclared, rfl⟩ :=
    Option.map_eq_some_iff.mp (hremains.typed number temporary hlookup tree htree hverdict ty hty)
  rw [hvars _ _ hdeclared, Option.map_some]

section Consistent

variable {origin : Program} (hconsistent : plan.verdict.Consistent origin relevant)

include hconsistent

theorem Remains.lifted (hremains : plan.Remains relevant origin draft)
    {forest : List (Role × Tree)} {forest' : List Tree}
    {rows : List Row} (hlifts : Lifts id plan.verdict draft draft' forest forest' rows)
    (hlinked : ∀ item ∈ forest, item.2.Linked)
    (hrelevant : ∀ item ∈ forest, ∀ below ∈ item.2.subtrees, relevant below) :
    List.Forall₂ (fun item tree' => item.2.KeepsType origin draft'.program tree') forest forest' ∧
      plan.Remains relevant origin draft' := by
  obtain ⟨hvars, hsignatures, htyped⟩ :=
    hremains.grow (fun _ _ => hlifts.grows.getElem?_vars) hlifts.grows.signatures
  obtain ⟨hparts, hmemory⟩ :=
    hlifts.lifted.typed hvars hsignatures hconsistent hlifts.declares hlinked hrelevant htyped
  exact ⟨hparts, hvars, hsignatures, hmemory⟩

/-- A draft will do in which temporaries have the types that what they hold had before, if all that
is taken out had a type and what is taken out under one number had the same. -/
theorem reliance_of_consistent
    (hty : ∀ tree, relevant tree → plan.verdict tree ≠ none → ∃ ty, tree.ty? origin = some ty) :
    Reliance id plan.verdict relevant (plan.Remains relevant origin) where
  congr hremains hvars hsignatures hmemory := by
    obtain ⟨hvars, hsignatures, htyped⟩ := hremains.grow (fun _ _ => hvars ▸ id) hsignatures
    exact ⟨hvars, hsignatures, hmemory ▸ htyped⟩
  kept hlifts hlinked hrelevant hremains := (hremains.lifted hconsistent hlifts hlinked hrelevant).2
  typed {_ _ tree _ _} hlifts hlinked hrelevant htaken hremains := by
    obtain ⟨hparts, -⟩ :=
      hremains.lifted hconsistent hlifts (by simpa using hlinked) (by simpa using hrelevant)
    obtain ⟨ty, hty⟩ := hty tree (hrelevant tree tree.mem_subtrees_self) htaken
    exact ⟨ty, (List.forall₂_cons.mp hparts).1 ty hty⟩

/-- Editing a statement keeps this. -/
theorem Remains.edited (hremains : plan.Remains relevant origin draft)
    {statement : Tree} {rows : List Row} {trees : List Tree}
    (hedited : plan.Edited draft.program draft'.program draft.memory
      draft.program.vars.size statement rows trees draft'.memory draft'.program.vars.size)
    (hvars : ∀ (index : Nat) declared, draft.program.vars[index]? = some declared →
      draft'.program.vars[index]? = some declared)
    (hsignatures : draft'.program.signatures = draft.program.signatures)
    (hlinked : statement.Linked) (hrelevant : ∀ below ∈ statement.subtrees, relevant below)
    (hsound : draft.program.Sound statement) :
    plan.Remains relevant origin draft' := by
  obtain ⟨hvars, hsignatures, htyped⟩ := hremains.grow hvars hsignatures
  exact ⟨hvars, hsignatures,
    hedited.typed hconsistent hvars hsignatures hremains.signatures hlinked hrelevant hsound htyped⟩

end Consistent

/-! ### Expressions and statements -/

section Statements

variable {relies : Draft Temporaries → Prop} (hreliance : Reliance id plan.verdict relevant relies)

@[simp] theorem returns_temporary? {number : ValueNumber} :
    Walk.Returns (temporary? number) draft :=
  Walk.ReturnsUnless.bind Walk.returns_get fun _ _ _ => Walk.returns_pure

@[simp] theorem returns_copyTo {target : NodeId} {temporary : VarId} :
    Walk.Returns (copyTo target temporary) draft :=
  Walk.ReturnsUnless.bind returns_readOf fun _ _ _ => returns_addNode

include hreliance

theorem safe_shareExpression (budget : Nat) (tree : Tree)
    (hrelevant : ∀ below ∈ tree.subtrees, relevant below) :
    Safe relies (plan.shareExpression budget) tree := by
  induction budget generalizing tree with
  | zero => exact fun _ _ _ => Walk.returns_throw
  | succ budget ih =>
    intro draft hseparate hrelies
    have hedit : ∀ child ∈ tree.children,
        Edit.Edits id plan.verdict .value (plan.shareExpression budget) child :=
      fun child _ => plan.edits_shareExpression budget child
    have hchildren : Walk.Returns (editChildren (plan.shareExpression budget) tree.id) draft :=
      safe_editChildren hreliance hedit (fun child hchild => ih child fun below hbelow =>
        hrelevant below (Tree.mem_subtrees_of_mem_children hchild hbelow)) hrelevant draft
          hseparate hrelies
    unfold shareExpression
    split
    · exact Walk.ReturnsUnless.bind hchildren fun _ _ _ => Walk.returns_pure
    · next number hlookup =>
      refine Walk.ReturnsUnless.bind returns_temporary? fun found _ hfound => ?_
      obtain ⟨-, rfl⟩ := answers_temporary?.mp hfound
      cases found with
      | some temporary =>
        exact Walk.ReturnsUnless.bind returns_markChanged fun _ _ _ => returns_readOf
      | none =>
        have htaken : plan.verdict tree ≠ none := by simp [verdict, hlookup]
        exact Walk.ReturnsUnless.bind hchildren fun _ between hanswers => Walk.ReturnsUnless.bind
          (returns_materialize_of_editChildren hreliance hedit hrelevant hseparate hrelies htaken
            hanswers) fun _ _ _ => Walk.ReturnsUnless.bind Walk.returns_modify fun _ _ _ =>
            returns_readOf

theorem safe_sharePlace {tree : Tree} (hplace : tree.isPlace = true)
    (hrelevant : ∀ below ∈ tree.subtrees, relevant below)
    (budget : Nat) : Safe relies (editPlace plan.limit plan.shareExpression budget) tree :=
  safe_editPlace hreliance plan.edits_shareExpression
    (safe_shareExpression hreliance) budget hplace hrelevant

theorem safe_rules : plan.rules.Safe relevant relies where
  value tree hrelevant := safe_shareExpression hreliance plan.limit tree hrelevant
  target _ hplace hrelevant := safe_sharePlace hreliance hplace hrelevant (plan.limit + 1)
  operand tree hrelevant := safe_shareExpression hreliance plan.limit tree hrelevant
  place _ hplace hrelevant := safe_sharePlace hreliance hplace hrelevant plan.limit

/-- A repeated call whose result is used is shared. -/
theorem returns_shareCall {call : NodeId} {number : ValueNumber} {callee : SignatureId}
    {arguments : List Tree} {target : Tree} {signature : Signature}
    (hsignature : draft.program.signature callee = .ok signature)
    (hplace : target.isPlace = true) (hseparate : draft.program.Separate (arguments ++ [target]))
    (hrelevant : ∀ operand ∈ arguments ++ [target], ∀ below ∈ operand.subtrees, relevant below)
    (hrelies : relies draft) :
    Walk.Returns (plan.shareCall call number callee (arguments.map Tree.id) target.id) draft := by
  obtain ⟨harguments, htarget⟩ := List.forall_mem_append.mp hrelevant
  rw [List.forall_mem_singleton] at htarget
  unfold shareCall
  refine Walk.ReturnsUnless.bind returns_temporary? fun found _ hfound => ?_
  obtain ⟨-, rfl⟩ := answers_temporary?.mp hfound
  cases found with
  | some temporary =>
    exact Walk.ReturnsUnless.bind (safe_sharePlace hreliance hplace htarget plan.limit draft
      (hseparate.right arguments) hrelies) fun _ _ _ => Walk.ReturnsUnless.bind returns_copyTo
        fun _ _ _ => Walk.ReturnsUnless.bind returns_markChanged fun _ _ _ => Walk.returns_pure
  | none =>
    have hedit :
        ∀ argument ∈ arguments, Edit.Edits id plan.verdict .value plan.shareOperand argument :=
      fun argument _ => plan.edits_shareExpression plan.limit argument
    refine Walk.ReturnsUnless.bind (returns_mapM hreliance hedit (fun argument hmem =>
      safe_shareExpression hreliance plan.limit argument (harguments argument hmem)) harguments
        (hseparate.left _)
      hrelies) fun answers between hanswers => ?_
    obtain ⟨arguments', rows, -, hlifts⟩ := lifts_mapM hedit (hseparate.left _) hanswers
    have hlater : between.program.Separate [target] := by
      have hforest : draft.program.Separate
          ((arguments.map (Role.value, ·) ++ [(Role.place, target)]).map Prod.snd) := by
        simpa using hseparate
      simpa using hlifts.separate hforest
    have hrelies' := hreliance.kept hlifts
      (by simpa using fun argument hmem => ((hseparate.left _).draws argument hmem).linked) (by
          simpa using harguments) hrelies
    refine Walk.ReturnsUnless.bind (safe_sharePlace hreliance hplace htarget plan.limit between
      hlater hrelies') fun _ after hwritten => ?_
    obtain ⟨target', rows', -, hlifts'⟩ :=
      plan.editsPlace_sharePlace hplace between after hlater hwritten
    have hfound : after.program.signature callee = .ok signature := by
      rw [Program.signature, hlifts'.grows.signatures, hlifts.grows.signatures]
      exact hsignature
    exact Walk.ReturnsUnless.bind (returns_ask hfound) fun _ _ _ =>
      Walk.ReturnsUnless.bind returns_addTemporary fun _ _ _ =>
      Walk.ReturnsUnless.bind returns_readOf fun _ _ _ =>
        Walk.ReturnsUnless.bind returns_setNode fun _ _ _ =>
        Walk.ReturnsUnless.bind returns_copyTo fun _ _ _ =>
          Walk.ReturnsUnless.bind Walk.returns_modify fun _ _ _ =>
          Walk.ReturnsUnless.bind returns_markChanged fun _ _ _ => Walk.returns_pure

/-- A sound statement is shared. -/
theorem returns_shareStatement {statement : Tree} (hsound : draft.program.Sound statement)
    (hseparate : draft.program.Separate [statement])
    (hrelevant : ∀ operand ∈ statement.children, ∀ below ∈ operand.subtrees, relevant below)
    (hrelies : relies draft) : Walk.Returns (plan.shareStatement statement.id) draft := by
  have hdraws := hseparate.draws statement List.mem_cons_self
  unfold shareStatement
  refine Walk.ReturnsUnless.bind (returns_ask hdraws.node_eq) fun found _ hanswer => ?_
  obtain ⟨hfound, rfl⟩ := answers_ask.mp hanswer
  obtain rfl : statement.node = found := Except.ok.inj (hdraws.node_eq.symm.trans hfound)
  split
  · next callee arguments target number hnode hnumber =>
    cases hsound with
    | call id callee' operands result signature hsignature hlength hwritten hresult =>
      obtain ⟨rfl, rfl, hresultId⟩ := Node.call.inj hnode
      obtain ⟨place, rfl, rfl⟩ := Option.map_eq_some_iff.mp hresultId
      exact returns_shareCall hreliance hsignature
        (hresult place rfl) hseparate.children.1 hrelevant hrelies
    | _ => cases hnode
  · exact Walk.returns_pure
  · exact Walk.ReturnsUnless.bind (returns_editStatement hreliance plan.lifting_rules
      (safe_rules hreliance) hsound hseparate hrelevant hrelies) fun _ _ _ => Walk.returns_pure

end Statements

/-! ### Statements one after the other -/

/-- Sharing in these statements, one after the other, does not crash, whatever is written to lists
in between. -/
def Withstands (plan : SharingPlan) : List NodeId → Draft Temporaries → Prop
  | [], _ => True
  | id :: rest, draft =>
    Walk.Returns (plan.shareStatement id) draft ∧ ∀ replaced between program,
      Walk.Answers (plan.shareStatement id) draft replaced between →
        program.bare = between.program.bare →
        Withstands plan rest { between with program, pending := [] }

theorem Withstands.left {first second : List NodeId}
    (hwithstands : plan.Withstands (first ++ second) draft) :
    plan.Withstands first draft := by
  induction first generalizing draft with
  | nil => trivial
  | cons id first ih =>
    exact ⟨hwithstands.1, fun _ _ _ hshares hprogram => ih (hwithstands.2 _ _ _ hshares hprogram)⟩

/-- When some of the statements have been shared, the others still withstand it. -/
theorem Withstands.after {entries : List (NodeId × List NodeId)} {rest : List NodeId}
    (hwithstands : plan.Withstands (entries.map Prod.fst ++ rest) draft)
    (hsteps : plan.Steps draft entries draft') :
    plan.Withstands rest draft' := by
  induction hsteps with
  | nil => exact hwithstands
  | cons hpending hshares hprogram _ ih => exact ih (hwithstands.2 _ _ _ hshares hprogram)

/-- Sound statements that have nothing in common withstand sharing, if their edits keep what sharing
relies on. -/
theorem withstands {relies : Draft Temporaries → Prop}
    (hreliance : Reliance id plan.verdict relevant relies)
    {statements : List Tree} (hrelevant : ∀ statement ∈ statements, ∀ operand ∈ statement.children,
      ∀ below ∈ operand.subtrees, relevant below) (hedited : ∀ statement ∈ statements,
      ∀ (draft draft' : Draft Temporaries) (rows : List Row) (trees : List Tree),
      plan.Edited draft.program draft'.program draft.memory draft.program.vars.size
      statement rows trees draft'.memory draft'.program.vars.size →
      (∀ (index : Nat) declared, draft.program.vars[index]? = some declared →
        draft'.program.vars[index]? = some declared) →
        draft'.program.signatures = draft.program.signatures →
      draft.program.Sound statement → relies draft → relies draft')
    (hsound : ∀ statement ∈ statements, draft.program.SoundStatement statement)
    (hpurely : ∀ statement ∈ statements, plan.SharesPurely draft.program statement)
    (hseparate : draft.program.bare.Separate (statements.map Tree.bare))
    (hmemory : ∀ number temporary, draft.memory.lookup number = some temporary →
      temporary.index < draft.program.vars.size) (hrelies : relies draft) :
    plan.Withstands (statements.map Tree.id) draft := by
  induction statements generalizing draft with
  | nil => trivial
  | cons statement statements ih =>
    rw [List.forall_mem_cons] at hrelevant hedited hsound hpurely
    obtain ⟨drawn, hdrawn, hsame⟩ :=
      (hseparate.draws statement.bare (by simp)).exists_of_bare hsound.1.operands
    have hid := Tree.id_eq_of_bare_eq hsame
    have hdrawnIds :
        drawn.ids = statement.ids := by rw [← drawn.ids_bare, hsame, statement.ids_bare]
    have hsoundDrawn := hsound.1.of_bare_eq hsame.symm
    have hseparateDrawn : draft.program.Separate [drawn] := by
      refine ⟨by simpa using hdrawn, ?_⟩
      have hnodup := (hseparate.left [statement.bare]).nodup
      simpa [hdrawnIds] using hnodup
    have hoperands := Tree.children_eq_of_bare_eq hsame
    rw [List.map_cons, Withstands, ← hid]
    refine ⟨returns_shareStatement hreliance hsoundDrawn.sound hseparateDrawn
      (hoperands ▸ hrelevant.1) hrelies, fun replaced between program hshares hprogram => ?_⟩
    obtain ⟨rows, trees, hone, hyields, -, rfl⟩ :=
      exists_of_shareStatement hsoundDrawn.sound hseparateDrawn hshares
    obtain ⟨hvars, hsignatures⟩ := vars_eq_of_bare_eq hprogram
    obtain ⟨hmade, hmemory'⟩ :=
      hone.sound hsoundDrawn hdrawn.linked (hpurely.1.of_bare_eq hsame.symm) hyields.signatures
      (size_le_of_getElem? hyields.vars) le_rfl hmemory
    have hbare := hyields.bare fun tree htree => (hmade tree htree).operands
    rw [← hprogram] at hbare
    have hdisjoint := hseparate.disjoint [statement.bare]
    obtain ⟨trees', hone', -⟩ := hone.of_bare_eq hsame
    have hrelies' := hedited.1 draft between rows trees' hone' hyields.vars hyields.signatures
      hsound.1.sound hrelies
    have hsignatures' : program.signatures = draft.program.signatures := hbare.signatures
    exact ih hrelevant.2 hedited.2 (fun other hother =>
        (hsound.2 other hother).mono (size_le_of_getElem? hbare.vars) hsignatures')
      (fun other hother => (hpurely.2 other hother).of_signatures hsignatures') (hbare.separate
        (hseparate.right [statement.bare]) (by simpa [hdrawnIds] using hdisjoint.symm))
      (by simpa [hvars] using hmemory') (hreliance.congr hrelies' hvars hsignatures rfl)

/-! ### Ranges -/

variable {origin : Program} {code : Code} {territory : NodeId → NodeId → Prop}
  {row : NodeId → List NodeId} {edited statements : List NodeId} {range : BlockRange}

section Ranges

variable (hframes : origin.Frames code) (hdivides : origin.Divides code territory)
  (hcovers : range.Covers code statements)

include hframes hdivides hcovers

theorem returns_shareInRange {id : NodeId} (hreturns : Walk.Returns (plan.shareStatement id) draft)
    (hshared : origin.Shared code territory row edited draft.program)
    (hpending : draft.pending = [])
    (hid : id ∈ statements) (hnew : id ∉ edited) (hfits : origin.FitsStatement plan.limit id)
    (hpurely : (plan.targets.lookup id).isSome → origin.CallsPurely id) :
    Walk.Returns (plan.shareInRange (range.expanded row) id) draft := by
  obtain ⟨before, after, -, hlist, hposition⟩ := exists_list_of_mem hframes hcovers hshared hid hnew
  have hshares :=
    ensures_shareStatement_of_shared hframes hdivides hcovers hshared hpending hid hfits hpurely
  unfold shareInRange
  refine Walk.ReturnsUnless.bind (returns_ask hposition) fun place _ hanswer => ?_
  obtain ⟨hplace, rfl⟩ := answers_ask.mp hanswer
  obtain rfl : some (before.flatMap row).length = place :=
    Except.ok.inj (hposition.symm.trans hplace)
  refine Walk.ReturnsUnless.bind (Walk.returns_attempt.mpr hreturns)
    fun outcome between houtcome => ?_
  have hkept :
      between.program.list range.list = .ok (before.flatMap row ++ id :: after.flatMap row) := by
    have hattempt := Walk.answers_attempt.mp houtcome
    cases outcome with
    | error failure => exact (hshares.of_fails hattempt).elim
    | ok replaced => exact (hshares.of_answers hattempt).2.2.1 _ _ hlist
  refine Walk.ReturnsUnless.bind returns_takePending fun pending taken htaken => ?_
  obtain ⟨rfl, rfl⟩ := Prod.mk.inj (Walk.answers_modifyGet.mp htaken)
  refine Walk.ReturnsUnless.bind (returns_ask hkept) fun found _ hfound => ?_
  obtain ⟨-, rfl⟩ := answers_ask.mp hfound
  obtain ⟨program, hset⟩ := exists_setList hkept (found.take (before.flatMap row).length ++
    (between.pending ++ outcome.toOption.getD [id]) ++ found.drop ((before.flatMap row).length + 1))
  exact Walk.ReturnsUnless.bind (returns_ask hset) fun _ _ _ =>
    Walk.ReturnsUnless.bind Walk.returns_modify fun _ _ _ =>
      Walk.ReturnsUnless.bind Walk.returns_liftExcept fun _ _ _ => Walk.returns_pure

theorem returns_foldlM_shareInRange {todo : List NodeId} (htodo : todo ⊆ statements)
    (hnodup : todo.Nodup) (hwithstands : plan.Withstands todo draft)
    (hshared : origin.Shared code territory row edited draft.program)
    (hpending : draft.pending = []) (hnew : edited.Disjoint todo)
    (hfits : ∀ statement ∈ todo, origin.FitsStatement plan.limit statement)
    (hpurely : ∀ statement ∈ todo,
      (plan.targets.lookup statement).isSome → origin.CallsPurely statement) :
    Walk.Returns (todo.foldlM plan.shareInRange (range.expanded row)) draft := by
  induction todo generalizing row edited draft with
  | nil => exact Walk.returns_pure
  | cons id todo ih =>
    rw [List.cons_subset] at htodo
    rw [List.nodup_cons] at hnodup
    rw [List.disjoint_cons_right] at hnew
    rw [List.forall_mem_cons] at hfits hpurely
    rw [List.foldlM_cons]
    refine Walk.ReturnsUnless.bind (returns_shareInRange hframes hdivides hcovers hwithstands.1
      hshared hpending htodo.1 hnew.1 hfits.1 hpurely.1) fun range' between hanswers => ?_
    obtain ⟨row', hshared', hpending', rfl, -, hsteps⟩ := (ensures_shareInRange hframes hdivides
      hcovers hshared hpending htodo.1 hnew.1 hfits.1 hpurely.1).of_answers hanswers
    exact ih htodo.2 hnodup.2 (hwithstands.after hsteps) hshared' hpending'
      (List.disjoint_cons_left.mpr ⟨hnodup.1, hnew.2⟩) hfits.2 hpurely.2

theorem returns_shareRange (hwithstands : plan.Withstands statements draft)
    (hshared : origin.Shared code territory row edited draft.program)
    (hpending : draft.pending = []) (hnew : edited.Disjoint statements)
    (hfits : ∀ statement ∈ statements, origin.FitsStatement plan.limit statement)
    (hpurely : ∀ statement ∈ statements,
      (plan.targets.lookup statement).isSome → origin.CallsPurely statement) :
    Walk.Returns (plan.shareRange (range.expanded row)) draft := by
  have hstatements := statements_expanded hframes hcovers hshared hnew
  unfold shareRange
  refine Walk.ReturnsUnless.bind (returns_ask hstatements) fun found _ hanswer => ?_
  obtain ⟨hfound, rfl⟩ := answers_ask.mp hanswer
  obtain rfl : statements = found := Except.ok.inj (hstatements.symm.trans hfound)
  exact returns_foldlM_shareInRange hframes hdivides hcovers (List.Subset.refl _)
    (hcovers.nodup hframes.nodup_order) hwithstands hshared hpending hnew hfits hpurely

end Ranges

theorem returns_shareRanges (hframes : origin.Frames code)
    (hdivides : origin.Divides code territory) {ranges : List BlockRange}
    {rows : List (List NodeId)} (hcovers : List.Forall₂ (BlockRange.Covers code) ranges rows)
    (hnodup : rows.flatten.Nodup) (hwithstands : plan.Withstands rows.flatten draft)
    (hshared : origin.Shared code territory row edited draft.program)
    (hpending : draft.pending = []) (hnew : edited.Disjoint rows.flatten)
    (hfits : ∀ statement ∈ rows.flatten, origin.FitsStatement plan.limit statement)
    (hpurely : ∀ statement ∈ rows.flatten,
      (plan.targets.lookup statement).isSome → origin.CallsPurely statement) :
    Walk.Returns ((ranges.map (BlockRange.expanded row)).mapM plan.shareRange) draft := by
  induction hcovers generalizing row edited draft with
  | nil =>
    rw [List.map_nil, List.mapM_nil]
    exact Walk.returns_pure
  | @cons range statements ranges rows hfirst hrest ih =>
    rw [List.flatten_cons] at hnodup hwithstands hnew hfits hpurely
    rw [List.nodup_append'] at hnodup
    rw [List.disjoint_append_right] at hnew
    rw [List.forall_mem_append] at hfits hpurely
    have hrange :=
      ensures_shareRange hframes hdivides hfirst hshared hpending hnew.1 hfits.1 hpurely.1
    rw [List.map_cons, List.mapM_cons]
    refine Walk.ReturnsUnless.bind (returns_shareRange hframes hdivides hfirst hwithstands.left
      hshared hpending hnew.1 hfits.1 hpurely.1) fun range' between hanswers => ?_
    obtain ⟨row', hshared', hpending', -, hsame, hsteps⟩ := hrange.of_answers hanswers
    have hlater : plan.Withstands rows.flatten between := by
      refine Withstands.after ?_ hsteps
      simpa [Function.comp_def] using hwithstands
    rw [map_expanded_congr hrest fun statement hmem => hsame statement fun h => hnodup.2.2 h hmem]
    exact Walk.ReturnsUnless.bind (ih hnodup.2.1 hlater hshared' hpending'
      (List.disjoint_append_left.mpr ⟨hnew.2, hnodup.2.2⟩) hfits.2 hpurely.2) fun _ _ _ =>
      Walk.returns_pure

end SharingPlan

/-! ### Blocks -/

section Blocks

variable {origin : Program} {code : Code}
  {territory : NodeId → NodeId → Prop} {row : NodeId → List NodeId}
  {edited : List NodeId} {graph : Graph} {config : Config} {workspace : Workspace}

/-- A block that was numbered before all sharing is shared. -/
theorem returns_shareBlock (hframes : origin.Frames code) (hdivides : origin.Divides code territory)
    (hdepicts : graph.Depicts origin code) {block : BasicBlock}
    (hblock : block ∈ graph.blocks) {numbering : Numbering}
    (hnumbering : Query.Answers (origin.numberStatements (block.row origin) config) numbering)
    (hwithstands : numbering.poisoned = false →
      (SharingPlan.ofNumbering numbering config).Withstands (block.row origin)
      { program := workspace.program, memory := [] })
    (hshared : workspace.Shared origin graph code territory row edited)
    (hnew : edited.Disjoint (block.row origin)) :
    Walk.Returns (shareBlock block.id numbering config) workspace := by
  unfold shareBlock
  dsimp only
  split
  · exact Walk.returns_pure
  · next hplan =>
    obtain ⟨hpoisoned, -⟩ : numbering.poisoned = false ∧ _ := by simpa using hplan
    obtain ⟨hfits, hnotes⟩ := fits_of_numberStatements hnumbering hpoisoned
    obtain ⟨rows, hcovers, hrows⟩ := (hdepicts.holds block hblock).covers
    have hfound := hshared.block_eq hblock
    have hpending :
        ({ program := workspace.program, memory := [] } : Draft Temporaries).pending = [] := rfl
    have hranges := SharingPlan.returns_shareRanges hframes hdivides hcovers
      (hrows ▸ hdepicts.nodup_row hframes.nodup_order hblock)
        (hrows ▸ hwithstands hpoisoned) hshared.shared hpending (hrows ▸ hnew) (hrows ▸ hfits)
        fun statement _ hlookup => SharingPlan.callsPurely_of_lookup hnotes hlookup
    refine Walk.ReturnsUnless.bind Walk.returns_get fun _ _ hget => ?_
    obtain ⟨rfl, rfl⟩ := Walk.answers_get.mp hget
    refine Walk.ReturnsUnless.bind (Walk.returns_liftCrash_of_eq hfound) fun found _ hanswer => ?_
    obtain ⟨hanswered, rfl⟩ := Walk.answers_liftCrash.mp hanswer
    obtain rfl : block.expanded row = found := Except.ok.inj (hfound.symm.trans hanswered)
    refine Walk.ReturnsUnless.bind (Walk.returns_liftCrash.mpr hranges) fun _ _ _ => ?_
    refine Walk.ReturnsUnless.bind Walk.returns_modify fun _ _ _ =>
      Walk.ReturnsUnless.bind Walk.returns_liftExcept fun ranges _ _ => ?_
    have hmodify : workspace.graph.modifyBlock block.id (fun block => { block with ranges }) =
        .ok (workspace.graph.setSlot block.id (some { block.expanded row with ranges })) := by
      rw [Graph.modifyBlock, hfound]
      rfl
    exact Walk.ReturnsUnless.bind (Walk.returns_liftCrash_of_eq hmodify) fun _ _ _ =>
      Walk.ReturnsUnless.bind Walk.returns_modify fun _ _ _ => Walk.returns_pure

/-- Blocks that were numbered before all sharing are shared, if their statements withstand it
whatever has been shared elsewhere. -/
theorem returns_shareBlocks (houtlines : origin.Outlines code)
    (hdepicts : graph.Depicts origin code)
    {blocks : List BasicBlock} {numberings : List (BlockId × Numbering)}
    (trees : BasicBlock → List Tree) (hblocks : blocks ⊆ graph.blocks)
    (hentries : List.Forall₂ (fun block entry => block.id = entry.1 ∧
        Query.Answers (origin.numberStatements (block.row origin) config) entry.2)
      blocks numberings) (hnodup : (blocks.map BasicBlock.id).Nodup)
    (hnew : ∀ block ∈ blocks, edited.Disjoint (block.row origin))
    (htrees : ∀ block ∈ blocks, trees block ⊆ code.statements ∧
      (trees block).map Tree.id = block.row origin) (hwithstands : ∀ block ∈ blocks, ∀ numbering,
      Query.Answers (origin.numberStatements (block.row origin) config) numbering →
      numbering.poisoned = false →
        ∀ program : Program, (∀ (index : Nat) declared, origin.vars[index]? = some declared →
          program.vars[index]? = some declared) → program.signatures = origin.signatures →
            program.bare.Separate ((trees block).map Tree.bare) →
              (SharingPlan.ofNumbering numbering config).Withstands
              (block.row origin) { program, memory := [] })
    (hshared : workspace.Shared origin graph code (fun _ _ => True) row edited)
    (hvars : ∀ (index : Nat) declared, origin.vars[index]? = some declared →
      workspace.program.vars[index]? = some declared)
    (hsignatures : workspace.program.signatures = origin.signatures)
    (hseparate : workspace.program.bare.Separate ((blocks.flatMap trees).map Tree.bare)) :
    Walk.Returns (shareBlocks numberings config) workspace := by
  have hframes := houtlines.frames
  have hdivides := origin.divides_all code
  unfold shareBlocks
  induction hentries generalizing row edited workspace with
  | nil => exact Walk.returns_pure
  | @cons block entry blocks numberings hentry hlater ih =>
    obtain ⟨hid, hnumbering⟩ := hentry
    rw [List.cons_subset] at hblocks
    rw [List.forall_mem_cons] at hnew htrees hwithstands
    rw [List.map_cons, List.nodup_cons] at hnodup
    rw [List.flatMap_cons, List.map_append] at hseparate
    obtain ⟨hsubset, hids⟩ := htrees.1
    have hfirst :=
      returns_shareBlock hframes hdivides hdepicts hblocks.1 hnumbering (fun hpoisoned =>
        hwithstands.1 _ hnumbering hpoisoned _ hvars hsignatures hseparate.left) hshared hnew.1
    change Walk.Returns ((do let _ ← shareBlock entry.1 entry.2 config) >>= fun _ =>
      numberings.forM _) _
    rw [← hid]
    refine Walk.ReturnsUnless.bind (Walk.ReturnsUnless.bind hfirst fun _ _ _ => Walk.returns_pure)
      fun _ between hanswers => ?_
    obtain ⟨_, _, hone, hpure⟩ := Walk.answers_bind.mp hanswers
    obtain ⟨-, rfl⟩ := Walk.answers_pure.mp hpure
    obtain ⟨row', hshared', -, hsteps⟩ := (ensures_shareBlock_steps hframes hdivides hdepicts
      hblocks.1 hnumbering hshared hnew.1).of_answers hone
    rw [← hids] at hsteps
    obtain ⟨edit, -, -, -, hyields, -, -⟩ := hsteps.exists_edit (fun statement hmem =>
        SoundStatement.mono ⟨houtlines.sound _ (hsubset hmem), houtlines.operands _ (hsubset hmem)⟩
        (size_le_of_getElem? hvars) hsignatures) (fun hpoisoned statement hmem =>
        BlockEdit.sharesPurely_of_numberStatements hnumbering hpoisoned
        (houtlines.draws.statement _ (hsubset hmem)) hsignatures) hseparate.left
    refine ih hblocks.2 hnodup.2 (fun other hother => List.disjoint_append_left.mpr
      ⟨hnew.2 other hother, fun statement hmem hmem' => ?_⟩) htrees.2 hwithstands.2 hshared'
      (fun index declared hdeclared => hyields.vars index declared (hvars index declared hdeclared))
      (hyields.signatures.trans hsignatures)
      (hyields.separate hseparate.right (by simpa using hseparate.disjoint.symm))
    obtain rfl := hdepicts.eq_of_mem_row hframes.nodup_order hblocks.1 (hblocks.2 hother) hmem hmem'
    exact hnodup.1 (List.mem_map_of_mem hother)

end Blocks

/-! ### The pass -/

/-- Without swizzles and dereferences, only what says itself of which type it is can be shared as an
operand. -/
theorem NodeKinds.declared_of_contains {kinds : NodeKinds} {node : Node}
    (hswizzle : kinds.contains .swizzle = false) (hderef : kinds.contains .deref = false)
    (hoperand : node.isStatement = false) (hcontains : kinds.contains node.kind = true) :
    node.kind = .expression ∨ node.kind = .texture := by
  cases node with
  | apply => exact Or.inl rfl
  | texture => exact Or.inr rfl
  | swizzle => exact absurd (hcontains.symm.trans hswizzle) (by simp)
  | index | field => exact absurd (hcontains.symm.trans hderef) (by simp)
  | constant | «variable» => cases hcontains
  | _ => cases hoperand

namespace Program

variable {program : Program} {config : Config} {code : Code} {graph : Graph}

/-- The graph of a framed code is built, or the code is refused. -/
theorem Frames.returns_build (hframes : program.Frames code) (config : Config) :
    Query.Returns (Graph.build program config) := by
  obtain ⟨hdepth, -⟩ | ⟨-, hfails⟩ := hframes.outcome_of_partition config.maxDepth
  · cases hrefusal : code.order.findSome? program.refusal? with
    | some reason =>
      have hobeys := Graph.obeys_linked hframes hdepth
      rw [hrefusal] at hobeys
      exact (Graph.fails_build_of_linked hobeys).returns
    | none =>
      obtain ⟨_, _, _, -, -, ⟨_, -, -, hfails⟩ | ⟨-, hbuild⟩⟩ :=
        Graph.exists_merged_of_frames hframes hdepth hrefusal
      · exact hfails.returns
      · exact hbuild.returns
  · exact (Graph.fails_build_of_linked (Query.fails_bind.mpr (Or.inl hfails))).returns

theorem Outlines.returns_numberBlocks (houtlines : program.Outlines code)
    (hdepicts : graph.Depicts program code)
    (config : Config) : Query.Returns (graph.numberBlocks program config) := by
  refine Query.returns_mapM fun block hblock => ?_
  have hstatements := (hdepicts.holds block hblock).statements houtlines.frames
  refine Query.ReturnsUnless.bind (Query.returns_liftCrash_of_eq hstatements)
    fun statements hanswer => ?_
  obtain rfl : block.row program = statements :=
    Except.ok.inj (hstatements.symm.trans (Query.answers_liftCrash.mp hanswer))
  refine Query.ReturnsUnless.bind ?_ fun _ _ => Query.returns_pure
  obtain ⟨trees, hsubset, hids⟩ := hdepicts.exists_trees hblock
  rw [← hids]
  rcases program.outcome_of_numberStatements (fun _ hmem =>
    houtlines.draws.statement _ (hsubset hmem)) (fun _ hmem => houtlines.sound _ (hsubset hmem))
      (fun _ hmem => houtlines.operands _ (hsubset hmem)) config
    with ⟨_, hanswers, -⟩ | hfails | hexhausted
  · exact hanswers.returns
  · exact hfails.returns
  · exact fun cause hcrash => Except.error.inj (hexhausted.symm.trans hcrash) ▸ trivial

/-- In each block, all nodes that share a number which occurs more than once have one type. -/
def SharesOneType (program : Program) (config : Config) : Prop :=
  ∀ graph, Query.Answers (Graph.build program config) graph → ∀ block ∈ graph.blocks,
    ∀ statements numbering, block.statements program = .ok statements →
      Query.Answers (program.numberStatements statements config) numbering →
      ∀ number, 1 < numbering.redundancy number →
        ∃ ty, ∀ id, (id, number) ∈ numbering.occurrences → program.typeOf id = .ok ty

/-- The statements of a block withstand sharing, whatever has been shared elsewhere. -/
theorem Outlines.withstands (houtlines : program.Outlines code)
    (hbuild : Query.Answers (Graph.build program config) graph)
    (htypes : config.eligible.contains .swizzle = false ∧ config.eligible.contains .deref = false ∨
      program.SharesOneType config) (hdepicts : graph.Depicts program code) {block : BasicBlock}
    (hblock : block ∈ graph.blocks) {trees : List Tree} (hsubset : trees ⊆ code.statements)
    (hids : trees.map Tree.id = block.row program) {numbering : Numbering}
    (hnumbering : Query.Answers (program.numberStatements (block.row program) config) numbering)
    {other : Program} (hvars : ∀ (index : Nat) declared, program.vars[index]? = some declared →
      other.vars[index]? = some declared) (hsignatures : other.signatures = program.signatures)
    (hseparate : other.bare.Separate (trees.map Tree.bare)) :
    (SharingPlan.ofNumbering numbering config).Withstands (block.row program)
      { program := other, memory := [] } := by
  have hdraws : ∀ statement ∈ trees, program.Draws statement := fun statement hmem =>
    houtlines.draws.statement _ (hsubset hmem)
  have hsound : ∀ statement ∈ trees, program.SoundStatement statement := fun statement hmem =>
    ⟨houtlines.sound _ (hsubset hmem), houtlines.operands _ (hsubset hmem)⟩
  have hcontains : ∀ statement ∈ trees, ∀ operand ∈ statement.children,
      ∀ below ∈ operand.subtrees, code.Contains below :=
    fun statement hmem operand hoperand below hbelow =>
      ⟨statement, hsubset hmem, Tree.mem_subtrees_of_mem_children hoperand hbelow⟩
  rw [← hids] at hnumbering ⊢
  obtain ⟨final, hnumbers, rfl, hpoisoned, -⟩ :=
    exists_numbers_of_numberStatements hdraws (fun statement hmem => (hsound statement hmem).sound)
      (fun statement hmem => (hsound statement hmem).operands) hnumbering
  have hpurely : ∀ statement ∈ trees,
      (SharingPlan.ofNumbering final.numbering config).SharesPurely other statement :=
    fun statement hmem => BlockEdit.sharesPurely_of_numberStatements hnumbering hpoisoned
      (hdraws statement hmem) hsignatures
  have hmono : ∀ statement ∈ trees, other.SoundStatement statement := fun statement hmem =>
    (hsound statement hmem).mono (size_le_of_getElem? hvars) hsignatures
  have hnumbered :
      ∀ tree, code.Contains tree →
        (SharingPlan.ofNumbering final.numbering config).verdict tree ≠ none →
      ∃ number, (SharingPlan.ofNumbering final.numbering config).verdict tree =
        some (some number) := by
    intro tree _ htaken
    obtain ⟨shared, hshared⟩ := Option.ne_none_iff_exists'.mp htaken
    obtain ⟨number, -, rfl⟩ := Option.map_eq_some_iff.mp hshared
    exact ⟨number, hshared⟩
  rcases htypes with ⟨hswizzle, hderef⟩ | htypes
  · -- what is taken out of operands says itself of which type it is
    have hnodup : (trees.flatMap Tree.ids).Nodup := by
      rw [← Tree.flatMap_ids_bare]
      exact hseparate.nodup
    have hnumbersBlock : program.NumbersBlock config trees final :=
      ⟨hnumbers, hdraws, hsound, hnodup⟩
    have hdeclared : ∀ tree, code.Contains tree ∧ tree.node.isStatement = false →
        (SharingPlan.ofNumbering final.numbering config).verdict tree ≠ none →
          tree.node.kind = .expression ∨ tree.node.kind = .texture := by
      rintro tree ⟨htree, hoperand⟩ htaken
      obtain ⟨number, hnumber⟩ := hnumbered tree htree htaken
      obtain ⟨heligible, -⟩ := hnumbersBlock.notes (houtlines.draws_of_contains htree)
        (SharingPlan.noted_of_verdict hnumber).1
      exact NodeKinds.declared_of_contains hswizzle hderef hoperand heligible
    exact SharingPlan.withstands (SharingPlan.reliance_of_declared hdeclared) (fun statement hmem
      operand hoperand below hbelow => ⟨hcontains statement hmem operand hoperand below hbelow,
        ((hsound statement hmem).operands operand hoperand below hbelow).operand⟩)
      (fun _ _ _ _ _ _ _ _ _ _ _ => trivial) hmono hpurely hseparate (by simp) trivial
  · -- what shares a number has the type that it had before
    have hstatements := (hdepicts.holds block hblock).statements houtlines.frames
    have htype := htypes graph hbuild block hblock _ _ hstatements (hids ▸ hnumbering)
    have hconsistent :
        (SharingPlan.ofNumbering final.numbering config).verdict.Consistent program code.Contains :=
      consistent_of_sameType houtlines fun first second number hfirst hsecond hrepeated => by
        obtain ⟨ty, hty⟩ := htype number hrepeated
        intro found
        rw [hty first hfirst, hty second hsecond]
    refine SharingPlan.withstands
      (SharingPlan.reliance_of_consistent hconsistent fun tree hrelevant htaken => ?_) hcontains
      (fun statement hmem draft draft' rows trees hedited hvars hsignatures hsound hremains => ?_)
        hmono hpurely hseparate (by simp) ⟨hvars, hsignatures, Temporaries.typed_nil _ _ _ _⟩
    · obtain ⟨number, hnumber⟩ := hnumbered tree hrelevant htaken
      obtain ⟨hoccurrence, hrepeated⟩ := SharingPlan.noted_of_verdict hnumber
      obtain ⟨ty, hty⟩ := htype number hrepeated
      exact ⟨ty, (houtlines.draws_of_contains hrelevant).ty?_of_typeOf (hty _ hoccurrence)⟩
    · exact hremains.edited hconsistent hedited hvars hsignatures (hdraws statement hmem).linked
        (fun below hbelow => ⟨statement, hsubset hmem, hbelow⟩) hsound

theorem Outlines.returns_localCse (houtlines : program.Outlines code)
    (htypes : config.eligible.contains .swizzle = false ∧
      config.eligible.contains .deref = false ∨ program.SharesOneType config) :
    Walk.Returns (localCse config) program := by
  have hframes := houtlines.frames
  have heliminate : Walk.Returns (eliminateRepeated config) program := by
    unfold eliminateRepeated
    refine Walk.ReturnsUnless.bind Walk.returns_get fun _ _ hget => ?_
    obtain ⟨rfl, rfl⟩ := Walk.answers_get.mp hget
    refine Walk.ReturnsUnless.bind (Walk.returns_liftQuery.mpr (hframes.returns_build config))
      fun graph _ hanswer => ?_
    obtain ⟨hbuild, rfl⟩ := Walk.answers_liftQuery.mp hanswer
    have hdepicts := (Graph.built_of_frames hframes hbuild).depicts
    refine Walk.ReturnsUnless.bind (Walk.returns_liftQuery.mpr
      (houtlines.returns_numberBlocks hdepicts config)) fun numberings _ hanswer => ?_
    obtain ⟨hnumberings, rfl⟩ := Walk.answers_liftQuery.mp hanswer
    have hentries := (answers_numberBlocks_iff hframes hdepicts).mp hnumberings
    obtain ⟨trees, htrees, hstatements⟩ := houtlines.exists_trees hdepicts
    have hshare : Walk.Returns (shareBlocks numberings config) ⟨program, graph⟩ :=
      returns_shareBlocks houtlines hdepicts trees (List.Subset.refl _) hentries
        hdepicts.located.nodup_ids (fun _ _ => List.disjoint_nil_left _) htrees
          (fun block hblock _ hnumbering _ _ hvars hsignatures hseparate =>
            houtlines.withstands hbuild htypes hdepicts hblock (htrees block hblock).1
              (htrees block hblock).2 hnumbering hvars hsignatures hseparate)
          (workspace_shared hframes hdepicts) (fun _ _ => id) rfl
            (hstatements ▸ houtlines.separate_bare)
    exact Walk.ReturnsUnless.bind (Walk.returns_liftCrash.mpr hshare)
      fun _ _ _ => Walk.ReturnsUnless.bind Walk.returns_set fun _ _ _ =>
        Walk.ReturnsUnless.bind Walk.returns_liftExcept fun _ _ _ => Walk.returns_pure
  unfold localCse
  refine Walk.ReturnsUnless.bind (Walk.returns_attempt.mpr heliminate) fun outcome _ _ => ?_
  split
  · exact Walk.returns_pure
  · exact Walk.ReturnsUnless.bind Walk.returns_modify fun _ _ _ => Walk.returns_throw
  · exact Walk.returns_throw

/-! ### Both passes -/

/-- The passes do not crash on a program that passes the check: hoisting never does, and sharing
does not if neither swizzles nor indices and fields are eligible, or if what shares a number has one
type. -/
theorem returns_passes (hcheck : program.check = .ok ()) :
    (∀ limit, Walk.Returns (hoistSubexpressions limit) program) ∧
      ∀ config, config.eligible.contains .swizzle = false ∧
        config.eligible.contains .deref = false ∨ program.SharesOneType config →
        Walk.Returns (localCse config) program := by
  obtain ⟨code, houtlines⟩ := exists_outlines_of_check hcheck
  exact ⟨houtlines.returns_hoistSubexpressions, fun config => houtlines.returns_localCse⟩

/-- A lane of a vector that is read twice. -/
def doubledLane : Program where
  nodes := #[.variable ⟨0⟩, .variable ⟨1⟩,
    .swizzle ⟨1⟩ ⟨[Fin.last 3], List.cons_ne_nil _ _, Nat.le_add_left 1 3⟩, .variable ⟨1⟩,
    .swizzle ⟨3⟩ ⟨[Fin.last 3], List.cons_ne_nil _ _, Nat.le_add_left 1 3⟩,
    .apply .add [⟨2⟩, ⟨4⟩] .float, .assign ⟨0⟩ ⟨5⟩ 0]
  vars := #[⟨"y", .float, .auto⟩, ⟨"v", .vector .float 4, .input⟩]
  body := [⟨6⟩]

theorem sharesOneType_doubledLane : doubledLane.SharesOneType { eligible := .all } := by
  intro graph hbuild block hblock statements numbering hstatements hnumbering number hrepeated
  have hgraph : (Graph.build doubledLane { eligible := .all }).run =
      .ok (.ok ⟨#[some ⟨⟨0⟩, [⟨.root, ⟨6⟩, ⟨6⟩⟩], [], []⟩], false⟩) := rfl
  obtain rfl := Except.ok.inj (Except.ok.inj (hgraph.symm.trans hbuild))
  obtain rfl : block = ⟨⟨0⟩, [⟨.root, ⟨6⟩, ⟨6⟩⟩], [], []⟩ := by simpa [Graph.blocks] using hblock
  obtain rfl : [⟨6⟩] = statements := Except.ok.inj hstatements
  have hfound : ((doubledLane.numberStatements [⟨6⟩] { eligible := .all }).run.map
        (·.map Numbering.occurrences)) =
      .ok (.ok [(⟨2⟩, ⟨1⟩), (⟨4⟩, ⟨1⟩), (⟨5⟩, ⟨2⟩)]) := by decide +kernel
  rw [hnumbering] at hfound
  refine ⟨.float, fun id hid => ?_⟩
  rw [show numbering.occurrences = _ from Except.ok.inj (Except.ok.inj hfound)] at hid
  simp only [List.mem_cons, Prod.mk.injEq, List.not_mem_nil, or_false] at hid
  rcases hid with ⟨rfl, -⟩ | ⟨rfl, -⟩ | ⟨rfl, -⟩ <;> rfl

theorem returns_passes_doubledLane :
    doubledLane.check = .ok () ∧ doubledLane.SharesOneType { eligible := .all } ∧
    Walk.Returns (hoistSubexpressions 8) doubledLane ∧
    Walk.Returns (localCse { eligible := .all }) doubledLane :=
  have hreturns := returns_passes (show doubledLane.check = .ok () from rfl)
  ⟨rfl, sharesOneType_doubledLane, hreturns.1 8, hreturns.2 _ (Or.inr sharesOneType_doubledLane)⟩

/-- A number and a record that are computed alike, where a field of the record is read twice. -/
def negatedRecord : Program where
  nodes := #[.variable ⟨0⟩, .variable ⟨1⟩, .apply .neg [⟨1⟩] .float, .assign ⟨0⟩ ⟨2⟩ 0,
    .variable ⟨2⟩, .variable ⟨1⟩, .apply .neg [⟨5⟩] (.record "R" [("a", .float)]),
    .field ⟨6⟩ 0, .assign ⟨4⟩ ⟨7⟩ 0, .variable ⟨2⟩, .variable ⟨1⟩,
    .apply .neg [⟨10⟩] (.record "R" [("a", .float)]), .field ⟨11⟩ 0, .assign ⟨9⟩ ⟨12⟩ 0]
  vars := #[⟨"y", .float, .auto⟩, ⟨"x", .float, .input⟩, ⟨"z", .float, .auto⟩]
  body := [⟨3⟩, ⟨8⟩, ⟨13⟩]

/-- Every node has a type, but a temporary that holds the number stands for the record, and it has
no fields. -/
theorem not_returns_passes_negatedRecord : negatedRecord.check = .ok () ∧
    (∀ index < negatedRecord.nodes.size, ∃ ty, negatedRecord.typeOf ⟨index⟩ = .ok ty) ∧
      ¬ Walk.Returns (localCse { eligible := .all }) negatedRecord := by
  refine ⟨rfl, fun index hindex => ?_, ?_⟩
  · have hall : ∀ index < negatedRecord.nodes.size, (negatedRecord.typeOf ⟨index⟩).isOk = true := by
        decide +kernel
    have htyped := hall index hindex
    cases hty : negatedRecord.typeOf ⟨index⟩ with
    | ok ty => exact ⟨ty, rfl⟩
    | error cause =>
      rw [hty] at htyped
      cases htyped
  · have hcrash : ((localCse { eligible := .all }).runFrom negatedRecord).map Prod.fst =
        .error .noSuchField := by
      decide +kernel
    cases hrun : (localCse { eligible := .all }).runFrom negatedRecord with
    | ok reached =>
      rw [hrun] at hcrash
      cases hcrash
    | error cause =>
      rw [hrun] at hcrash
      obtain rfl := Except.error.inj hcrash
      exact fun hreturns => hreturns _ hrun

end Program

end ShaderIR
