import ShaderIR.Pass.Sharing
import ShaderIR.Proofs.Pass.StatementEdits

/-!
What sharing makes of a statement, as a relation on trees. A repeated expression is lifted out of
its statement; of a repeated call the result goes into a temporary, which is copied to the old
place, and later calls leave nothing but such a copy (`SharingPlan.Edited`).
`SharingPlan.exists_of_shareStatement` says that this is what `SharingPlan.shareStatement` does to a
sound statement.
-/

set_option autoImplicit false

namespace ShaderIR

open Edit

namespace SharingPlan

/-- A node that occurs more than once is taken out, and remembered under its number. -/
def verdict (plan : SharingPlan) : Verdict := fun tree =>
  (plan.targets.lookup tree.id).map some

variable {plan : SharingPlan} {draft draft' : Draft Temporaries}

theorem verdict_eq_some_iff {tree : Tree} {number : ValueNumber} :
    plan.verdict tree = some (some number) ↔ plan.targets.lookup tree.id = some number := by
  simp [verdict]

/-! ### Expressions -/

theorem answers_temporary? {number : ValueNumber} {answer : Option VarId} :
    Walk.Answers (temporary? number) draft answer draft' ↔
      draft.memory.lookup number = answer ∧ draft = draft' := by
  unfold temporary?
  simp only [Walk.answers_bind, Walk.answers_get, Walk.answers_pure]
  constructor
  · rintro ⟨_, _, ⟨rfl, rfl⟩, hlookup, rfl⟩
    exact ⟨hlookup, rfl⟩
  · rintro ⟨hlookup, rfl⟩
    exact ⟨_, _, ⟨rfl, rfl⟩, hlookup, rfl⟩

/-- Sharing what is repeated in an expression lifts it. -/
theorem edits_shareExpression (plan : SharingPlan) (budget : Nat) (tree : Tree) :
    Edits id plan.verdict .value (plan.shareExpression budget) tree := by
  induction budget generalizing tree with
  | zero => exact fun _ _ _ _ hanswers => absurd hanswers Walk.answers_throw
  | succ budget ih =>
    intro draft answer draft' hseparate hanswers
    unfold shareExpression at hanswers
    split at hanswers
    · next hlookup =>
      simp only [Walk.answers_bind, Walk.answers_pure] at hanswers
      obtain ⟨⟨⟩, _, hchildren, rfl, rfl⟩ := hanswers
      exact lifts_kept (Or.inr ⟨rfl, by rw [verdict, hlookup, Option.map_none]⟩)
        (fun child _ => ih child) hseparate hchildren
    · next number hlookup =>
      have htaken := verdict_eq_some_iff.mpr hlookup
      obtain ⟨found, _, hfound, hanswers⟩ := Walk.answers_bind.mp hanswers
      obtain ⟨hmemory, rfl⟩ := answers_temporary?.mp hfound
      cases found with
      | some temporary =>
        simp only [markChanged, Walk.answers_bind, Walk.answers_modify] at hanswers
        obtain ⟨⟨⟩, _, rfl, hread⟩ := hanswers
        refine lifts_reused htaken hmemory ?_ hread
        exact ⟨rfl, rfl, rfl⟩
      | none =>
        simp only [remember, Walk.answers_bind, Walk.answers_modify] at hanswers
        obtain ⟨⟨⟩, between, hchildren, temporary, stored, hstored, ⟨⟩, _, rfl, hread⟩ := hanswers
        refine lifts_stored htaken (by simpa using hmemory)
          (fun child _ => ih child) hseparate hchildren hstored ?_ hread
        exact ⟨rfl, rfl, rfl⟩

theorem editsPlace_sharePlace (plan : SharingPlan) {tree : Tree} (hplace : tree.isPlace = true) :
    EditsPlace id plan.verdict plan.sharePlace tree :=
  editsPlace plan.edits_shareExpression plan.limit hplace

theorem lifting_rules (plan : SharingPlan) : plan.rules.Lifting id plan.verdict .value where
  value := plan.edits_shareExpression plan.limit
  target _ hplace := editsPlace plan.edits_shareExpression (plan.limit + 1) hplace
  operand := plan.edits_shareExpression plan.limit
  place _ hplace := plan.editsPlace_sharePlace hplace

end SharingPlan

/-! ### Trees that come up -/

/-- The trees are made of new nodes and of these old ones, no node occurs twice in them, and other
nodes are as before. -/
structure Program.Yields (program program' : Program) (old : List NodeId) (trees : List Tree) :
    Prop where
  size_le : program.nodes.size ≤ program'.nodes.size
  frame : ∀ id : NodeId, id.index < program.nodes.size → id ∉ old →
    program'.node id = program.node id
  vars : ∀ (index : Nat) declared, program.vars[index]? = some declared →
    program'.vars[index]? = some declared
  signatures : program'.signatures = program.signatures
  draws : ∀ tree ∈ trees, program'.Draws tree
  nodup : (trees.flatMap Tree.ids).Nodup
  fresh : ∀ id ∈ trees.flatMap Tree.ids, id ∈ old ∨ program.nodes.size ≤ id.index

theorem Program.Grows.yields {program program' : Program} {old : List NodeId}
    {rows : List Row} {trees : List Tree} (hgrows : program.Grows program' old rows trees) :
    program.Yields program' old (rows.map Row.statement ++ trees) where
  size_le := hgrows.size_le
  frame := hgrows.frame
  vars _ _ := hgrows.getElem?_vars
  signatures := hgrows.signatures
  draws := hgrows.draws
  nodup := hgrows.nodup
  fresh := hgrows.fresh

namespace Program.Yields

variable {program program' : Program} {old old' : List NodeId}
  {trees trees' children others : List Tree} (hyields : program.Yields program' old trees)

include hyields

theorem mono (hold : old ⊆ old') : program.Yields program' old' trees where
  size_le := hyields.size_le
  frame id hlt hid := hyields.frame id hlt fun hmem => hid (hold hmem)
  vars := hyields.vars
  signatures := hyields.signatures
  draws := hyields.draws
  nodup := hyields.nodup
  fresh id hid := (hyields.fresh id hid).imp_left fun hmem => hold hmem

theorem perm (hperm : trees'.Perm trees) : program.Yields program' old trees' where
  size_le := hyields.size_le
  frame := hyields.frame
  vars := hyields.vars
  signatures := hyields.signatures
  draws tree htree := hyields.draws tree (hperm.mem_iff.mp htree)
  nodup := (hperm.flatMap_right _).nodup_iff.mpr hyields.nodup
  fresh id hid := hyields.fresh id ((hperm.flatMap_right _).mem_iff.mp hid)

theorem lt_size {id : NodeId} (hid : id ∈ trees.flatMap Tree.ids) :
    id.index < program'.nodes.size := by
  obtain ⟨tree, htree, hid⟩ := List.mem_flatMap.mp hid
  exact (hyields.draws tree htree).lt_size hid

/-- A new temporary is declared. -/
theorem withTemporary (ty : Ty) : program.Yields (program'.withTemporary ty) old trees where
  size_le := hyields.size_le
  frame := hyields.frame
  vars index declared hdeclared := by
    have hkept := hyields.vars index declared hdeclared
    change (program'.vars.push _)[index]? = _
    rw [Array.getElem?_push_lt (Array.getElem?_eq_some_iff.mp hkept).choose,
      ← Array.getElem?_eq_getElem, hkept]
  signatures := hyields.signatures
  draws tree htree := (hyields.draws tree htree).congr fun _ _ => rfl
  nodup := hyields.nodup
  fresh := hyields.fresh

/-- A node that stands in no tree so far becomes the parent of some of them. -/
theorem put {program'' : Program} {id : NodeId} {node : Node}
    (hsize : program'.nodes.size ≤ program''.nodes.size)
    (hframe : ∀ other : NodeId, other.index < program'.nodes.size → other ≠ id →
      program''.node other = program'.node other) (hvars : program''.vars = program'.vars)
    (hsignatures : program''.signatures = program'.signatures)
    (hnode : program''.node id = .ok node) (hchildren : node.children = children.map Tree.id)
    (hperm : trees.Perm (children ++ others)) (hid : id ∉ trees.flatMap Tree.ids)
    (hfresh : id ∈ old ∨ program.nodes.size ≤ id.index) :
    program.Yields program'' old (⟨id, node, children⟩ :: others) := by
  have hdraws : ∀ tree ∈ children ++ others, program''.Draws tree := fun tree htree => by
    have htree := hperm.mem_iff.mpr htree
    exact (hyields.draws tree htree).congr fun other hother =>
      hframe other ((hyields.draws tree htree).lt_size hother) fun hsame =>
        hid (hsame ▸ List.mem_flatMap.mpr ⟨tree, htree, hother⟩)
  obtain ⟨hchildrenDrawn, hothers⟩ := List.forall_mem_append.mp hdraws
  have hids : ((⟨id, node, children⟩ :: others : List Tree).flatMap Tree.ids).Perm
      (id :: trees.flatMap Tree.ids) := by
    rw [List.flatMap_cons, Tree.ids_mk, List.cons_append, ← List.flatMap_append]
    exact ((hperm.flatMap_right _).symm).cons _
  refine ⟨hyields.size_le.trans hsize, fun other hlt hother => ?_, ?_, ?_,
    List.forall_mem_cons.mpr ⟨.intro hnode hchildren hchildrenDrawn, hothers⟩, ?_,
    fun other hother => ?_⟩
  · rw [hframe other (hlt.trans_le hyields.size_le), hyields.frame other hlt hother]
    rintro rfl
    exact hfresh.elim hother fun hnew => by omega
  · rw [hvars]
    exact hyields.vars
  · rw [hsignatures, hyields.signatures]
  · exact hids.nodup_iff.mpr (List.nodup_cons.mpr ⟨hid, hyields.nodup⟩)
  · rcases List.mem_cons.mp (hids.mem_iff.mp hother) with rfl | hother
    · exact hfresh
    · exact hyields.fresh other hother

/-- A new node becomes the parent of some trees. -/
theorem withNode {node : Node} (hchildren : node.children = children.map Tree.id)
    (hperm : trees.Perm (children ++ others)) :
    program.Yields (program'.withNode node) old
      (⟨⟨program'.nodes.size⟩, node, children⟩ :: others) :=
  hyields.put (by simp) (fun other hlt _ => node_withNode_of_lt _ _ hlt) rfl rfl
    (node_withNode_self _ _) hchildren
    hperm (fun hmem => Nat.lt_irrefl _ (hyields.lt_size hmem)) (Or.inr hyields.size_le)

/-- An old node becomes the parent of some trees. -/
theorem setNode {id : NodeId} {node : Node} (hold : id ∈ old) (hlt : id.index < program.nodes.size)
    (hid : id ∉ trees.flatMap Tree.ids) (hchildren : node.children = children.map Tree.id)
    (hperm : trees.Perm (children ++ others)) :
    program.Yields (program'.setNode id node) old (⟨id, node, children⟩ :: others) :=
  hyields.put (by simp [Program.setNode]) (fun other _ hne => node_setNode_of_ne _ _ hne) rfl rfl
    (node_setNode_self _ _ (hlt.trans_le hyields.size_le)) hchildren hperm hid (Or.inl hold)

end Program.Yields

theorem Edit.Lifts.declares {verdict : Verdict} {draft draft' : Draft Temporaries}
    {forest : List (Role × Tree)} {forest' : List Tree} {rows : List Row}
    (hlifts : Lifts id verdict draft draft' forest forest' rows) :
    Lifted.Declares draft'.program rows :=
  hlifts.grows.declares hlifts.lifted.temporaries_eq

/-! ### Statements -/

namespace SharingPlan

/-- A read of a temporary. -/
abbrev readTree (leaf : NodeId) (temporary : VarId) : Tree :=
  ⟨leaf, .variable temporary, []⟩

/-- A copy of a temporary to a place. -/
abbrev copyTree (copy leaf : NodeId) (temporary : VarId) (target : Tree) : Tree :=
  ⟨copy, .assign target.id leaf 0, [readTree leaf temporary, target]⟩

/-- A call whose result is used. -/
abbrev callTree (id : NodeId) (callee : SignatureId) (arguments : List Tree)
    (result : Tree) : Tree :=
  ⟨id, .call callee (arguments.map Tree.id) (some result.id), arguments ++ [result]⟩

/-- A statement has been shared: the rows have been taken out of it, and the trees stand for what
was left of it. Before and after, the memory tells which temporaries hold which numbers, and the
next temporary has this index. -/
inductive Edited (plan : SharingPlan) (program program' : Program) :
    Temporaries → Nat → Tree → List Row →
    List Tree → Temporaries → Nat → Prop
  /-- Only operands have been edited. -/
  | operands {memory memory' : Temporaries} {next next' : Nat}
    {statement : Tree} {parts' : List Tree} {rows : List Row}
    (hnumber : ∀ callee arguments result, statement.node = .call callee arguments result →
      plan.targets.lookup statement.id = none)
    (hlifted : Lifted plan.verdict memory next (program.parts .value statement)
      parts' rows memory' next') (hdeclares : Lifted.Declares program' rows) :
    Edited plan program program' memory next statement rows
      [statement.withChildren parts'] memory' next'
  /-- A call whose result is not used stays. -/
  | dropped {memory : Temporaries} {next : Nat} {id : NodeId}
    {callee : SignatureId} {arguments : List Tree}
    {number : ValueNumber} (hnumber : plan.targets.lookup id = some number) :
    Edited plan program program' memory
      next ⟨id, .call callee (arguments.map Tree.id) none, arguments⟩ []
        [⟨id, .call callee (arguments.map Tree.id) none, arguments⟩] memory next
  /-- The first call of its number stores its result in a temporary. -/
  | first {memory memory₁ : Temporaries} {next next₁ : Nat} {id place copy leaf : NodeId}
    {callee : SignatureId} {arguments arguments' : List Tree}
    {target target' : Tree} {rows : List Row} {number : ValueNumber}
    {signature : Signature} {name : String} (hnumber : plan.targets.lookup id = some number)
    (hfresh : memory.lookup number = none) (hsignature : program.signature callee = .ok signature)
    (hlifted : Lifted plan.verdict memory
      next (arguments.map (Role.value, ·) ++ [(Role.place, target)])
      (arguments' ++ [target']) rows memory₁ next₁) (hdeclares : Lifted.Declares program' rows)
    (hdeclared : program'.vars[next₁]? = some ⟨name, signature.returnTy, .temporary⟩) :
    Edited plan program program' memory next (callTree id callee arguments target) rows
        [callTree id callee arguments' (readTree place ⟨next₁⟩), copyTree copy leaf ⟨next₁⟩ target']
        ((number, ⟨next₁⟩) :: memory₁) (next₁ + 1)
  /-- A later call is replaced by a copy. -/
  | again {memory memory' : Temporaries} {next next' : Nat} {id copy leaf : NodeId}
    {callee : SignatureId} {arguments : List Tree} {target target' : Tree}
    {rows : List Row} {number : ValueNumber} {temporary : VarId}
    (hnumber : plan.targets.lookup id = some number) (hheld : memory.lookup number = some temporary)
    (hlifted : Lifted plan.verdict memory next [(Role.place, target)] [target'] rows memory' next')
    (hdeclares : Lifted.Declares program' rows) :
    Edited plan program program' memory next (callTree id callee arguments target) rows
        [copyTree copy leaf temporary target'] memory' next'

variable {plan : SharingPlan} {draft draft' : Draft Temporaries}

theorem Edited.mono {program program₁ program' : Program} {memory memory' : Temporaries}
    {next next' : Nat} {statement : Tree} {rows : List Row} {trees : List Tree}
    (hedited : plan.Edited program program₁ memory next statement rows trees memory' next')
    (hvars : ∀ (index : Nat) declared, program₁.vars[index]? = some declared →
      program'.vars[index]? = some declared)
    (hsignatures : program'.signatures = program₁.signatures) :
    plan.Edited program program' memory next statement rows trees memory' next' := by
  cases hedited with
  | operands hnumber hlifted hdeclares =>
    exact .operands hnumber hlifted (hdeclares.mono hvars hsignatures)
  | dropped hnumber => exact .dropped hnumber
  | first hnumber hfresh hsignature hlifted hdeclares hdeclared =>
    exact .first hnumber hfresh hsignature hlifted (hdeclares.mono hvars hsignatures)
      (hvars _ _ hdeclared)
  | again hnumber hheld hlifted hdeclares =>
    exact .again hnumber hheld hlifted (hdeclares.mono hvars hsignatures)

theorem of_answers_copyTo {target : NodeId} {temporary : VarId} {answer : NodeId}
    (hanswers : Walk.Answers (copyTo target temporary) draft answer draft') :
    answer = ⟨draft.program.nodes.size + 1⟩ ∧ draft' = { draft with
      program := ((draft.program.withNode (.variable temporary)).withNode
        (.assign target ⟨draft.program.nodes.size⟩ 0)) } := by
  unfold copyTo at hanswers
  simp only [Walk.answers_bind, answers_readOf, answers_addNode] at hanswers
  obtain ⟨_, _, ⟨-, rfl, rfl⟩, -, rfl, rfl⟩ := hanswers
  exact ⟨congrArg NodeId.mk (Array.size_push _), rfl⟩

/-- A copy of a temporary to a place that stands in no tree. -/
theorem yields_copy {program program' : Program}
    {old : List NodeId} {trees others : List Tree} {target : Tree}
    {place : NodeId} (hplace : target.id = place) (hyields : program.Yields program' old trees)
    (hperm : trees.Perm (target :: others)) (temporary : VarId) :
    ∃ leaf, program.Yields ((program'.withNode (.variable temporary)).withNode
      (.assign place ⟨program'.nodes.size⟩ 0)) old
        (copyTree ⟨program'.nodes.size + 1⟩ leaf temporary target :: others) := by
  subst hplace
  have hleaf : program.Yields (program'.withNode (.variable temporary)) old
      (readTree ⟨program'.nodes.size⟩ temporary :: trees) := hyields.withNode rfl (.refl _)
  have hcopy : program.Yields _ old (copyTree ⟨(program'.withNode (.variable temporary)).nodes.size⟩
      ⟨program'.nodes.size⟩ temporary target :: others) := hleaf.withNode rfl (hperm.cons _)
  exact ⟨_, by simpa using hcopy⟩

/-- A call of arguments that stand in no tree, whose result goes into a new temporary. -/
theorem yields_call {program program' : Program} {old : List NodeId}
    {trees arguments others : List Tree} (hyields : program.Yields program' old trees)
    (hperm : trees.Perm (arguments ++ others)) {id : NodeId}
    (hold : id ∈ old) (hlt : id.index < program.nodes.size) (hid : id ∉ trees.flatMap Tree.ids)
    (callee : SignatureId) (ty : Ty) :
    program.Yields (((program'.withTemporary ty).withNode (.variable ⟨program'.vars.size⟩)).setNode
      id (.call callee (arguments.map Tree.id) (some ⟨program'.nodes.size⟩))) old
        (callTree id callee arguments (readTree ⟨program'.nodes.size⟩ ⟨program'.vars.size⟩) ::
          others) := by
  have hread :
      program.Yields _ old (readTree ⟨program'.nodes.size⟩ ⟨program'.vars.size⟩ :: trees) :=
    (hyields.withTemporary ty).withNode rfl (.refl _)
  refine hread.setNode hold hlt ?_ (by simp [Node.children]) ?_
  · rw [List.flatMap_cons, Tree.ids_mk, List.flatMap_nil, List.singleton_append,
      List.mem_cons, not_or]
    refine ⟨?_, hid⟩
    rintro rfl
    exact Nat.lt_irrefl _ (hlt.trans_le hyields.size_le)
  · rw [List.append_assoc, List.singleton_append]
    exact (hperm.cons _).trans List.perm_middle.symm

/-- What sharing makes of a statement of a draft. -/
def Edits (plan : SharingPlan) (draft draft' : Draft Temporaries) (statement : Tree)
    (answer : List NodeId) : Prop :=
  ∃ rows trees, plan.Edited draft.program draft'.program draft.memory
    draft.program.vars.size statement rows trees draft'.memory draft'.program.vars.size ∧
    draft.program.Yields draft'.program statement.ids (rows.map Row.statement ++ trees) ∧
    draft'.pending = draft.pending ++ rows.map Row.id ∧ answer = trees.map Tree.id

theorem exists_of_shareCall {statement : Tree} {number : ValueNumber} {callee : SignatureId}
    {arguments : List Tree} {target : Tree} {signature : Signature}
    (hcall : statement = callTree statement.id callee arguments target)
    (hsignature : draft.program.signature callee = .ok signature) (hplace : target.isPlace = true)
    (hnumber : plan.targets.lookup statement.id = some number)
    (hseparate : draft.program.Separate [statement]) {answer : List NodeId} (hanswers : Walk.Answers
      (plan.shareCall statement.id number callee (arguments.map Tree.id) target.id) draft answer
      draft') : plan.Edits draft draft' statement answer := by
  obtain ⟨id, node, children⟩ := statement
  obtain ⟨rfl, rfl⟩ : node = .call callee (arguments.map Tree.id) (some target.id) ∧
      children = arguments ++ [target] := by simpa using hcall
  obtain ⟨hchildren, hroot⟩ := hseparate.children
  have hlt := Program.lt_size_of_node (hseparate.draws _ List.mem_cons_self).node_eq
  unfold shareCall at hanswers
  obtain ⟨found, _, hfound, hanswers⟩ := Walk.answers_bind.mp hanswers
  obtain ⟨hmemory, rfl⟩ := answers_temporary?.mp hfound
  cases found with
  | some temporary =>
    simp only [markChanged, Walk.answers_bind, Walk.answers_modify, Walk.answers_pure] at hanswers
    obtain ⟨⟨⟩, between, htarget, _, _, hcopy, ⟨⟩, _, rfl, rfl, rfl⟩ := hanswers
    obtain ⟨rfl, rfl⟩ := of_answers_copyTo hcopy
    obtain ⟨target', rows, hsame, hlifts⟩ := plan.editsPlace_sharePlace hplace draft between
      (hchildren.right arguments) htarget
    obtain ⟨leaf, hyields⟩ := yields_copy hsame
      (hlifts.grows.yields.perm (List.perm_append_singleton target' _).symm) (.refl _) temporary
    refine ⟨rows, _,
      .again hnumber hmemory hlifts.lifted (hlifts.declares.mono (fun _ _ h => h) rfl),
      (hyields.mono ?_).perm (List.perm_append_singleton _ _), hlifts.pending, rfl⟩
    intro other hother
    simp only [List.map_cons, List.map_nil, List.flatMap_cons, List.flatMap_nil, List.append_nil]
      at hother
    simp [hother]
  | none =>
    simp only [markChanged, remember, Walk.answers_bind, Walk.answers_modify, Walk.answers_pure,
      answers_ask, answers_addTemporary, answers_readOf, answers_setNode] at hanswers
    obtain ⟨answers, between, harguments, ⟨⟩, after, htarget, found, _, ⟨hfound, rfl⟩, _, _,
      ⟨-, rfl, rfl⟩, _, _, ⟨-, rfl, rfl⟩, ⟨⟩, _, rfl, _, _, hcopy, ⟨⟩, _, rfl, ⟨⟩, _, rfl, rfl,
      rfl⟩ := hanswers
    obtain ⟨rfl, rfl⟩ := of_answers_copyTo hcopy
    obtain ⟨arguments', rows, rfl, hlifts⟩ := lifts_mapM (fun argument _ =>
      plan.edits_shareExpression plan.limit argument) (hchildren.left arguments) harguments
    have hforest : draft.program.Separate
        ((arguments.map (Role.value, ·) ++ [(Role.place, target)]).map Prod.snd) := by
      simpa using hchildren
    obtain ⟨target', rows', hsame, hlifts'⟩ := plan.editsPlace_sharePlace hplace between after
      (by simpa using hlifts.separate hforest) htarget
    have hboth := hlifts.append hlifts' hforest
    obtain rfl : signature = found := by
      rw [Program.signature, hboth.grows.signatures] at hfound
      exact Except.ok.inj (hsignature.symm.trans hfound)
    have hold :
        ((arguments.map (Role.value, ·) ++ [(Role.place, target)]).map Prod.snd).flatMap Tree.ids =
        (arguments ++ [target]).flatMap Tree.ids := by simp
    have hgrows := hboth.grows
    rw [hold] at hgrows
    have hperm : ((rows ++ rows').map Row.statement ++ (arguments' ++ [target'])).Perm
        (arguments' ++ target' :: (rows ++ rows').map Row.statement) := by
      rw [← List.append_assoc]
      refine (List.perm_append_singleton _ _).trans (((List.perm_append_comm).cons _).trans ?_)
      exact List.perm_middle.symm
    have hcalled := yields_call (hgrows.yields.mono (List.subset_cons_self id _)) hperm
      List.mem_cons_self hlt (hgrows.not_mem_of_lt hlt hroot) callee signature.returnTy
    obtain ⟨leaf, hyields⟩ :=
      yields_copy hsame hcalled (List.Perm.swap _ _ _) ⟨after.program.vars.size⟩
    have hdeclares :
        Lifted.Declares (after.program.withTemporary signature.returnTy) (rows ++ rows') :=
      hboth.declares.mono (fun index declared hdeclared => by
        change (after.program.vars.push _)[index]? = _
        rw [Array.getElem?_push_lt (Array.getElem?_eq_some_iff.mp hdeclared).choose,
          ← Array.getElem?_eq_getElem, hdeclared]) rfl
    dsimp only [Edits]
    refine ⟨rows ++ rows', [callTree id callee arguments' (readTree ⟨after.program.nodes.size⟩
      ⟨after.program.vars.size⟩), copyTree _ leaf ⟨after.program.vars.size⟩ target'], ?_,
      (hyields.mono ?_).perm ?_, hboth.pending, rfl⟩
    · have hsize : (after.program.withTemporary signature.returnTy).vars.size =
          after.program.vars.size + 1 :=
        Array.size_push _
      have hedited (place copy : NodeId) : plan.Edited draft.program
          (after.program.withTemporary signature.returnTy) draft.memory draft.program.vars.size
          (callTree id callee arguments target) (rows ++ rows')
          [callTree id callee arguments' (readTree place ⟨after.program.vars.size⟩),
            copyTree copy leaf ⟨after.program.vars.size⟩ target']
          ((number, ⟨after.program.vars.size⟩) :: after.memory) (after.program.vars.size + 1) :=
        .first hnumber hmemory hsignature hboth.lifted hdeclares Array.getElem?_push_size
      rw [← hsize] at hedited
      exact (hedited _ _).mono (fun _ _ h => h) rfl
    · rw [Tree.ids_mk]
      exact List.Subset.refl _
    · exact List.perm_append_comm.trans (List.Perm.swap _ _ _)

/-- Sharing what is repeated in a sound statement edits it. -/
theorem exists_of_shareStatement {statement : Tree} (hsound : draft.program.Sound statement)
    (hseparate : draft.program.Separate [statement]) {answer : List NodeId}
    (hanswers : Walk.Answers (plan.shareStatement statement.id) draft answer draft') :
    plan.Edits draft draft' statement answer := by
  have hdraws := hseparate.draws statement List.mem_cons_self
  have hoperands : (∀ callee arguments result, statement.node = .call callee arguments result →
      plan.targets.lookup statement.id = none) →
        Walk.Answers (editStatement plan.rules statement.id) draft () draft' →
          answer = [statement.id] →
          plan.Edits draft draft' statement answer := by
    rintro hnumber hedit rfl
    obtain ⟨parts', rows, hlifted, hgrows, hpending⟩ :=
      exists_of_editStatement plan.lifting_rules hsound hseparate hedit
    exact ⟨rows, _, .operands hnumber hlifted (hgrows.declares hlifted.temporaries_eq),
      hgrows.yields, hpending, rfl⟩
  unfold shareStatement at hanswers
  simp only [Walk.answers_bind, answers_ask] at hanswers
  obtain ⟨found, _, ⟨hfound, rfl⟩, hanswers⟩ := hanswers
  obtain rfl : statement.node = found := Except.ok.inj (hdraws.node_eq.symm.trans hfound)
  split at hanswers
  · next callee arguments target number hnode hnumber =>
    cases hsound with
    | call id callee' operands result signature hsignature hlength hwritten hresult =>
      obtain ⟨rfl, rfl, hresultId⟩ := Node.call.inj hnode
      obtain ⟨place, rfl, rfl⟩ := Option.map_eq_some_iff.mp hresultId
      exact exists_of_shareCall rfl hsignature (hresult place rfl) hnumber hseparate hanswers
    | _ => cases hnode
  · next callee arguments number hnode hnumber =>
    cases hsound with
    | call id callee' operands result signature hsignature hlength hwritten hresult =>
      obtain ⟨rfl, rfl, hresultId⟩ := Node.call.inj hnode
      obtain rfl := Option.map_eq_none_iff.mp hresultId
      obtain ⟨rfl, rfl⟩ := Walk.answers_pure.mp hanswers
      simp only [Option.map_none, Option.toList_none, List.append_nil] at hseparate hnumber hdraws ⊢
      have hgrows := Program.Grows.of_draws hseparate.draws hseparate.nodup
      refine ⟨[], _, .dropped hnumber, ?_, by simp, rfl⟩
      simpa using hgrows.yields
    | _ => cases hnode
  · next hcall hdropped =>
    simp only [Walk.answers_bind, Walk.answers_pure] at hanswers
    obtain ⟨⟨⟩, _, hedit, rfl, rfl⟩ := hanswers
    refine hoperands (fun callee arguments result hnode => ?_) hedit rfl
    cases hlookup : plan.targets.lookup statement.id with
    | none => rfl
    | some number =>
      cases result with
      | none => exact (hdropped _ _ _ hnode hlookup).elim
      | some target => exact (hcall _ _ _ _ hnode hlookup).elim

end SharingPlan

end ShaderIR
