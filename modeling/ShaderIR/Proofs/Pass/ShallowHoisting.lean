import ShaderIR.Pass.ThreeAddress
import ShaderIR.Proofs.Pass.Atomicity

/-!
Hoisting in programs that fit. The check beforehand passes exactly if the statements of every list
nest within what is left of the limit there (`Program.FitsCode`). Where no statement comes twice in
the text, hoisting then gets through the whole program, and no statement comes twice afterwards
either (`Program.StatementsOnce.ensures_hoistSubexpressions`): while it runs, rows stand for the
statements reached so far, and the lists that are finished hold these rows (`Program.Expanding`).
-/

set_option autoImplicit false

namespace ShaderIR

open Program Edit

/-! ### The check beforehand -/

theorem Query.answers_forM {ε α : Type}
    {step : α → Query ε PUnit} {items : List α} {answer : PUnit} :
    Query.Answers (items.forM step) answer ↔ ∀ item ∈ items, Query.Answers (step item) ⟨⟩ := by
  induction items with
  | nil => exact iff_of_true rfl (by simp)
  | cons first rest ih =>
    change Query.Answers (step first >>= fun _ => rest.forM step) answer ↔ _
    rw [Query.answers_bind, List.forall_mem_cons, ← ih]
    exact ⟨fun ⟨_, hfirst, hrest⟩ => ⟨hfirst, hrest⟩, fun ⟨hfirst, hrest⟩ => ⟨⟨⟩, hfirst, hrest⟩⟩

theorem Query.exists_of_fails_forM {ε α : Type} {step : α → Query ε PUnit}
    {items : List α} {failure : ε} (hfails : Query.Fails (items.forM step) failure) :
    ∃ item ∈ items, Query.Fails (step item) failure := by
  induction items with
  | nil => exact (Query.fails_pure hfails).elim
  | cons first rest ih =>
    change Query.Fails (step first >>= fun _ => rest.forM step) failure at hfails
    rcases Query.fails_bind.mp hfails with hfirst | ⟨_, -, hrest⟩
    · exact ⟨first, List.mem_cons_self, hfirst⟩
    · obtain ⟨item, hitem, hfails⟩ := ih hrest
      exact ⟨item, List.mem_cons_of_mem _ hitem, hfails⟩

namespace Program

variable {program program' origin : Program} {limit budget : Nat} {id : NodeId} {ref : ListRef}
  {code part : Code}

theorem fitsWithin_eq_true_iff :
    program.fitsWithin budget id = .ok true ↔ program.Fits budget id := by
  have hall {step : NodeId → Except Crash Bool} {ids : List NodeId} :
      ids.allM step = .ok true ↔ ∀ child ∈ ids, step child = .ok true := by
    induction ids with
    | nil => exact iff_of_true rfl (by simp)
    | cons child ids ih =>
      rw [List.allM, bind_eq_ok_iff, List.forall_mem_cons, ← ih]
      constructor
      · rintro ⟨answer, hfirst, hrest⟩
        cases answer with
        | false => cases hrest
        | true => exact ⟨hfirst, hrest⟩
      · exact fun ⟨hfirst, hrest⟩ => ⟨true, hfirst, hrest⟩
  induction budget generalizing id with
  | zero => exact iff_of_false (by simp [fitsWithin, pure, Except.pure]) False.elim
  | succ budget ih =>
    rw [fitsWithin, bind_eq_ok_iff]
    simp only [hall, ih]
    rfl

theorem answers_checkDepthWithin_succ :
    Query.Answers (program.checkDepthWithin limit (budget + 1) ref) () ↔
    ∃ statements, program.list ref = .ok statements ∧ ∀ statement ∈ statements,
      ∃ node, program.node statement = .ok node ∧ program.Fits (budget + 1) statement ∧
        ∀ body ∈ node.lists statement,
          Query.Answers (program.checkDepthWithin limit budget body) () := by
  rw [checkDepthWithin, Query.answers_bind]
  simp only [Query.answers_liftCrash, Query.answers_forM]
  refine exists_congr fun statements => and_congr_right fun _ => forall₂_congr fun statement _ => ?_
  constructor
  · intro hchecked
    obtain ⟨fits, hfits, hchecked⟩ := Query.answers_bind.mp hchecked
    cases fits with
    | false =>
      obtain ⟨_, hthrow, -⟩ := Query.answers_bind.mp hchecked
      exact absurd hthrow Query.answers_throw
    | true =>
      obtain ⟨lists, hlists, hbodies⟩ := Query.answers_bind.mp hchecked
      obtain ⟨node, hnode, hpure⟩ := bind_eq_ok_iff.mp (Query.answers_liftCrash.mp hlists)
      obtain rfl := Except.ok.inj hpure
      exact ⟨node, hnode, fitsWithin_eq_true_iff.mp (Query.answers_liftCrash.mp hfits),
        Query.answers_forM.mp hbodies⟩
  · rintro ⟨node, hnode, hfits, hbodies⟩
    exact Query.answers_bind.mpr ⟨true,
      Query.answers_liftCrash.mpr (fitsWithin_eq_true_iff.mpr hfits),
      Query.answers_bind.mpr ⟨node.lists statement,
        Query.answers_liftCrash.mpr (nestedLists_of_node hnode), Query.answers_forM.mpr hbodies⟩⟩

/-- The check fails for one reason only. -/
theorem eq_of_fails_checkDepthWithin {failure : PassError}
    (hfails : Query.Fails (program.checkDepthWithin limit budget ref) failure) :
    failure = .tooDeep limit := by
  induction budget generalizing ref with
  | zero => exact (Query.fails_throw.mp hfails).symm
  | succ budget ih =>
    rw [checkDepthWithin, Query.fails_bind] at hfails
    obtain hlist | ⟨statements, -, hfails⟩ := hfails
    · exact (Query.fails_liftCrash hlist).elim
    obtain ⟨statement, -, hfails⟩ := Query.exists_of_fails_forM hfails
    obtain hfits | ⟨fits, -, hfails⟩ := Query.fails_bind.mp hfails
    · exact (Query.fails_liftCrash hfits).elim
    have hbodies (hfails : Query.Fails (liftM (program.nestedLists statement) >>= fun lists =>
        lists.forM (program.checkDepthWithin limit budget)) failure) : failure =
          .tooDeep limit := by
      obtain hlists | ⟨lists, -, hfails⟩ := Query.fails_bind.mp hfails
      · exact (Query.fails_liftCrash hlists).elim
      · obtain ⟨body, -, hfails⟩ := Query.exists_of_fails_forM hfails
        exact ih hfails
    cases fits with
    | false =>
      obtain hthrow | ⟨_, -, hfails⟩ := Query.fails_bind.mp hfails
      · exact (Query.fails_throw.mp hthrow).symm
      · exact hbodies hfails
    | true => exact hbodies hfails

/-- The statements of a code nest within a budget, and what stands in a body within one level
less. -/
def FitsCode (program : Program) : (budget : Nat) → Code → Prop
  | budget, .nil => 0 < budget
  | budget, .step statement rest => program.Fits budget statement.id ∧ program.FitsCode budget rest
  | budget, .branch statement thenBody elseBody rest =>
    program.Fits budget statement.id ∧
    (program.FitsCode (budget - 1) thenBody ∧ program.FitsCode (budget - 1) elseBody) ∧
    program.FitsCode budget rest
  | budget, .loop statement body rest =>
    program.Fits budget statement.id ∧ program.FitsCode (budget - 1) body ∧
      program.FitsCode budget rest

theorem FitsCode.pos (hfits : program.FitsCode budget code) : 0 < budget := by
  induction code generalizing budget with
  | nil => exact hfits
  | step _ _ ih => exact ih hfits.2
  | branch _ _ _ _ _ _ ih | loop _ _ _ _ ih => exact ih hfits.2.2

/-- A list that has been checked is that of a code. -/
theorem exists_framed_of_checkDepthWithin
    (hchecked : Query.Answers (program.checkDepthWithin limit budget ref) ()) :
    ∃ code, program.FramesCode code ∧ program.list ref = .ok code.heads := by
  induction budget generalizing ref with
  | zero => exact (Query.answers_throw hchecked).elim
  | succ budget ih =>
    obtain ⟨statements, hlist, hstatements⟩ := answers_checkDepthWithin_succ.mp hchecked
    suffices hcode : ∃ code, program.FramesCode code ∧ code.heads = statements by
      obtain ⟨code, hframed, rfl⟩ := hcode
      exact ⟨code, hframed, hlist⟩
    clear hlist
    induction statements with
    | nil => exact ⟨.nil, .nil, rfl⟩
    | cons statement rest ihrest =>
      obtain ⟨⟨node, hnode, -, hbodies⟩, hrest⟩ := List.forall_mem_cons.mp hstatements
      obtain ⟨code, hframed, rfl⟩ := ihrest hrest
      cases node with
      | branch condition thenIds elseIds =>
        simp only [Node.lists, List.forall_mem_cons] at hbodies
        obtain ⟨thenBody, hthen, hthenList⟩ := ih hbodies.1
        obtain ⟨elseBody, helse, helseList⟩ := ih hbodies.2.1
        obtain rfl := Except.ok.inj ((list_thenBody hnode).symm.trans hthenList)
        obtain rfl := Except.ok.inj ((list_elseBody hnode).symm.trans helseList)
        exact ⟨.branch ⟨statement, _, []⟩ thenBody elseBody code,
          .branch hnode rfl hthen helse hframed, rfl⟩
      | loop ids =>
        obtain ⟨body, hbody, hlist⟩ := ih (hbodies _ (List.mem_singleton_self _))
        obtain rfl := Except.ok.inj ((list_loopBody hnode).symm.trans hlist)
        exact ⟨.loop ⟨statement, _, []⟩ body code, .loop hnode rfl hbody hframed, rfl⟩
      | _ => exact ⟨.step ⟨statement, _, []⟩ code, .step hnode rfl hframed, rfl⟩

/-- A list of a code passes the check exactly if the code fits. -/
theorem FramesCode.answers_checkDepthWithin_iff (hframed : program.FramesCode code)
    (hlist : program.list ref = .ok code.heads) :
    Query.Answers (program.checkDepthWithin limit budget ref) () ↔
      program.FitsCode budget code := by
  -- nothing fits within no level at all, and the list plays no part otherwise
  have hcode {code : Code} {budget : Nat} {ref : ListRef}
      (hlist : program.list ref = .ok code.heads) (hstatements : ∀ budget,
        (∀ statement ∈ code.heads, ∃ node, program.node statement = .ok node ∧
        program.Fits (budget + 1) statement ∧
          ∀ body ∈ node.lists statement,
          Query.Answers (program.checkDepthWithin limit budget body) ()) ↔
        program.FitsCode (budget + 1) code) :
      Query.Answers (program.checkDepthWithin limit budget ref) () ↔
        program.FitsCode budget code := by
    cases budget with
    | zero => exact iff_of_false Query.answers_throw fun hfits => hfits.pos.false
    | succ budget =>
      rw [← hstatements, answers_checkDepthWithin_succ]
      simp only [hlist, Except.ok.injEq, exists_eq_left']
  refine hcode hlist ?_
  clear hlist
  induction hframed with
  | nil => exact fun budget => iff_of_true (by simp [Code.heads]) budget.succ_pos
  | step hstatement hlists _ ih =>
    intro budget
    rw [Code.heads, List.forall_mem_cons, ih]
    simp [hstatement, hlists, FitsCode]
  | branch hstatement hnode _ _ _ ihthen ihelse ih =>
    intro budget
    rw [Code.heads, List.forall_mem_cons, ih]
    rw [hnode] at hstatement
    simp [hstatement, Node.lists, FitsCode, hcode (list_thenBody hstatement) ihthen,
      hcode (list_elseBody hstatement) ihelse, and_assoc]
  | loop hstatement hnode _ _ ihbody ih =>
    intro budget
    rw [Code.heads, List.forall_mem_cons, ih]
    rw [hnode] at hstatement
    simp [hstatement, Node.lists, FitsCode, hcode (list_loopBody hstatement) ihbody, and_assoc]

theorem Fits.place (hfits : program.Fits budget id) : program.FitsPlace budget id := by
  induction budget generalizing id with
  | zero => exact hfits.elim
  | succ budget ih =>
    obtain ⟨node, hnode, hchildren⟩ := hfits
    refine ⟨node, hnode, ?_⟩
    cases node with
    | index base place =>
      exact ⟨hchildren place (by simp [Node.children]),
        ih (hchildren base (by simp [Node.children]))⟩
    | field record number => exact ih (hchildren record (by simp [Node.children]))
    | _ => trivial

/-- The operands of a statement that fits do so within one level less, if its callee is known. -/
theorem Fits.statement (hfits : program.Fits (budget + 1) id) (hcallee : ∀ callee arguments result,
      program.node id = .ok (.call callee arguments result) → ∃ signature,
    program.signature callee = .ok signature) :
    program.FitsStatement budget id := by
  obtain ⟨node, hnode, hchildren⟩ := hfits
  refine ⟨node, hnode, ?_⟩
  cases node with
  | assign target value mask =>
    exact ⟨hchildren value (by simp [Node.children]),
      (hchildren target (by simp [Node.children])).place⟩
  | call callee arguments result =>
    obtain ⟨signature, hsignature⟩ := hcallee _ _ _ hnode
    have hargument : ∀ argument ∈ arguments, program.Fits budget argument := fun argument hmem =>
      hchildren argument (List.mem_append_left _ hmem)
    refine ⟨signature, hsignature, fun passed hmem => ?_, fun _ => hargument, fun target htarget =>
      (hchildren target (List.mem_append_right _ (Option.mem_toList.mpr htarget))).place⟩
    have hpassed := hargument passed.2 (List.of_mem_zip hmem).2
    unfold FitsPassed
    split
    · exact hpassed
    · exact hpassed.place
  | branch condition => exact hchildren condition (by simp [Node.children])
  | ret operand | discard operand =>
    exact fun value hvalue => hchildren value (Option.mem_toList.mpr hvalue)
  | _ => trivial

end Program

/-! ### Statements -/

namespace ThreeAddress

variable {scope : Scope} {limit budget : Nat} {draft : Draft Unit}

/-- Hoisting never fails on an expression that fits the budget. -/
theorem shallow_hoistExpression (limit : Nat) (scope : Scope) (budget : Nat) :
    Shallow scope budget (hoistExpression limit budget) := by
  induction budget with
  | zero =>
    rintro id draft (⟨-, hfits⟩ | ⟨hpos, -⟩)
    · exact hfits.elim
    · exact absurd hpos (Nat.lt_irrefl 0)
  | succ budget ih =>
    intro id draft hfits hevolved
    simp only [hoistExpression, Walk.ensures_bind, ensures_ask]
    refine (ih.editChildren hfits hevolved).mono (fun _ between hadvances node _ => ?_) fun _ _ =>
      False.elim
    split
    · rw [Walk.ensures_bind]
      refine (ensures_materialize (hadvances.stillFits hfits).stowable hadvances.evolved).mono
        (fun temporary draft' hadvances' => ?_) fun _ _ => False.elim
      exact ensures_readOf ⟨(hadvances.trans hadvances').withNode (.variable temporary),
        Or.inr ⟨temporary, node_withNode_self _ _⟩⟩
    · exact ⟨hadvances, Or.inl rfl⟩

theorem shallow_hoistValue (limit : Nat) (scope : Scope) (budget : Nat) :
    Shallow scope budget (hoistValue limit budget) := by
  intro id draft hfits hevolved
  simp only [hoistValue, Walk.ensures_bind, ensures_ask]
  intro node _
  split
  · obtain ⟨budget, rfl⟩ : ∃ less, budget = less + 1 := by
      refine ⟨budget - 1, ?_⟩
      rcases hfits with ⟨-, hfits⟩ | ⟨hpos, -⟩
      · have := hfits.pos
        omega
      · omega
    simp only [Walk.ensures_bind, Walk.ensures_pure]
    exact ((shallow_hoistExpression limit scope budget).editChildren hfits hevolved).mono
      (fun _ _ hadvances => ⟨hadvances, Or.inl rfl⟩) fun _ _ => False.elim
  · exact shallow_hoistExpression limit scope budget id draft hfits hevolved

theorem shallow_rules (limit : Nat) (scope : Scope) (budget : Nat) :
    ShallowRules scope budget (rules limit budget) where
  value := shallow_hoistValue limit scope budget
  target := shallow_editPlace (shallow_hoistExpression limit scope)
  operand := shallow_hoistExpression limit scope budget
  place := shallow_editPlace (shallow_hoistExpression limit scope)

/-- Hoisting never fails on a statement that fits the budget. -/
theorem ensures_editStatement {id : NodeId}
    (hprogram : draft.program = scope.origin) (hpending : draft.pending = [])
    (hcovers : scope.covers id) (hfits : scope.origin.Fits (budget + 1) id) :
    Walk.Ensures (editStatement (rules limit budget) id) draft
      (fun _ draft' => draft'.Evolved scope) fun _ _ => False := by
  by_cases hcallee : ∀ callee arguments result,
    scope.origin.node id = .ok (.call callee arguments result) →
      ∃ signature, scope.origin.signature callee = .ok signature
  · exact (shallow_rules limit scope budget).ensures_editStatement hcovers
      (hfits.statement hcallee) hprogram (.start hprogram hpending)
  -- a call of an unknown function crashes
  · simp only [not_forall] at hcallee
    obtain ⟨callee, arguments, result, hnode, hnone⟩ := hcallee
    simp only [editStatement, Walk.ensures_bind, ensures_ask, hprogram]
    intro node hfound
    obtain rfl := Except.ok.inj (hnode.symm.trans hfound)
    simp only [editCall, Walk.ensures_bind, ensures_ask, hprogram]
    exact fun signature hsignature => absurd ⟨signature, hsignature⟩ hnone

end ThreeAddress

/-! ### Programs on the way -/

namespace Program

/-- Rows of statements stand for some of the statements of a program. The lists that are finished
hold these rows, and the others hold what they held. -/
structure Expanding (origin : Program) (code : Code) (row : NodeId → List NodeId)
    (finished : ListRef → Prop) (program : Program) : Prop where
  trims : origin.Trims program
  written : ∀ entry ∈ code.lists .root, finished entry.1 →
    program.list entry.1 = .ok (entry.2.flatMap row)
  unwritten : ∀ entry ∈ code.lists .root, ¬ finished entry.1 → program.list entry.1 = .ok entry.2
  nodup : (code.order.flatMap row).Nodup
  rows : ∀ statement ∈ code.order, origin.RowFor program statement (row statement)

variable {origin program program' : Program} {code : Code} {row : NodeId → List NodeId}
  {finished : ListRef → Prop} {id : NodeId}

theorem expanding_self (hframes : origin.Frames code) :
    origin.Expanding code (fun id => [id]) (fun _ => False) origin where
  trims := .refl origin
  written _ _ := False.elim
  unwritten entry hentry _ := hframes.list_of_mem_lists hentry
  nodup := by rw [List.flatMap_singleton']; exact hframes.nodup_order
  rows _ _ := rowFor_singleton ..

namespace Expanding

variable (hexpanding : origin.Expanding code row finished program)

include hexpanding

theorem expanded (hfinished : ∀ entry ∈ code.lists .root, finished entry.1) :
    origin.Expanded code row program :=
  ⟨hexpanding.trims, fun entry hentry => hexpanding.written entry hentry (hfinished entry hentry),
    hexpanding.nodup, hexpanding.rows⟩

/-- A statement in an unfinished list gets a row. -/
theorem replace (hframes : origin.Frames code) (hid : id ∈ code.order) (hself : row id = [id])
    (hunfinished : ∀ entry ∈ code.lists .root, id ∈ entry.2 → ¬ finished entry.1)
    (htrims : program.Trims program')
    (hkept : ∀ ref statements, program.list ref = .ok statements → program'.list ref =
      .ok statements) {replaced : List NodeId} (hrow : program.RowFor program' id replaced) :
    origin.Expanding code (Function.update row id replaced) finished program' where
  trims := hexpanding.trims.trans htrims
  written entry hentry hfinished := by
    have hnot : id ∉ entry.2 := fun hmem => hunfinished entry hentry hmem hfinished
    rw [List.flatMap_congr fun statement hstatement =>
      Function.update_of_ne (ne_of_mem_of_not_mem hstatement hnot) replaced row]
    exact hkept _ _ (hexpanding.written entry hentry hfinished)
  unwritten entry hentry hnot := hkept _ _ (hexpanding.unwritten entry hentry hnot)
  nodup := hrow.nodup_update hframes.nodup_order hexpanding.nodup hid hself fun other hother =>
    (hexpanding.rows other hother).lt_size
      ((hframes.framed.lt_size hother).trans_le hexpanding.trims.size)
  rows statement hstatement := by
    by_cases hsame : statement = id
    · subst hsame
      rw [Function.update_self]
      exact hrow.since hexpanding.trims (hframes.framed.lt_size hid)
    · rw [Function.update_of_ne hsame]
      exact (hexpanding.rows statement hstatement).trans htrims

/-- A list whose statements have their rows is finished. -/
theorem finish (hframes : origin.Frames code) {entry : ListRef × List NodeId}
    (hentry : entry ∈ code.lists .root) (hunfinished : ¬ finished entry.1)
    (hset : program.setList entry.1 (entry.2.flatMap row) = .ok program') :
    origin.Expanding code row (fun ref => finished ref ∨ ref = entry.1) program' := by
  have hold := hexpanding.unwritten entry hentry hunfinished
  have htrims := trims_setList hset hold
  refine ⟨hexpanding.trims.trans htrims, fun other hother hfinished => ?_,
    fun other hother hnot => ?_, hexpanding.nodup,
    fun statement hstatement => (hexpanding.rows statement hstatement).trans htrims⟩
  · by_cases hsame : other.1 = entry.1
    · obtain rfl : other = entry := Prod.ext hsame (Except.ok.inj
        ((hframes.list_of_mem_lists hother).symm.trans (hsame ▸ hframes.list_of_mem_lists hentry)))
      exact list_setList_self hset hold
    · exact list_setList_of_ne hset hold hsame
        (hexpanding.written other hother (hfinished.resolve_right hsame))
  · rw [not_or] at hnot
    exact list_setList_of_ne hset hold hnot.2 (hexpanding.unwritten other hother hnot.1)

end Expanding

end Program

/-! ### Lists -/

open ThreeAddress

/-- A walk is about to hoist the statements of a part of a code, which belong to a list. Neither
they nor the lists that they own have been reached. -/
structure Draft.Before (origin : Program) (code part : Code) (current : ListRef × List NodeId)
    (row : NodeId → List NodeId) (finished : ListRef → Prop) (draft : Draft Unit) : Prop where
  expanding : origin.Expanding code row finished draft.program
  pending : draft.pending = []
  selves : ∀ id ∈ part.order, row id = [id]
  listed : current ∈ code.lists .root
  heads : part.heads ⊆ current.2
  unfinished : ¬ finished current.1
  unowned : ∀ owner ∈ part.order, current.1.owner? ≠ some owner
  owners : ∀ ref, finished ref → ∀ owner ∈ part.order, ref.owner? ≠ some owner

/-- A walk has hoisted the statements of a part of a code and finished the lists that they own. -/
structure Draft.After (origin : Program) (code part : Code) (row : NodeId → List NodeId)
    (finished : ListRef → Prop) (row' : NodeId → List NodeId) (draft : Draft Unit) : Prop where
  expanding : origin.Expanding code row' (fun ref => finished ref ∨ ref ∈ part.bodies.map Prod.fst)
    draft.program
  pending : draft.pending = []
  others : ∀ id ∉ part.order, row' id = row id

/-- A part of a code. -/
structure Code.Includes (code part : Code) : Prop where
  order : part.order ⊆ code.order
  bodies : part.bodies ⊆ code.bodies
  nodup : part.order.Nodup

/-- Hoisting gets through the statements of a part of a code. -/
def Code.Hoists (origin : Program) (code : Code) (limit : Nat) (part : Code) : Prop :=
  ∀ budget row finished draft current, code.Includes part → origin.FitsCode (budget + 1) part →
    Draft.Before origin code part current row finished draft →
    Walk.Ensures (part.heads.mapM fun statement => do
      editStatement (rules limit budget) statement
      let hoisted ← takePending
      (← ask fun program => program.nestedLists statement).forM (hoistList limit budget)
      return hoisted ++ [statement]) draft (fun rows draft' => ∃ row', rows = part.heads.map row' ∧
        Draft.After origin code part row finished row' draft') fun _ _ => False

variable {origin : Program} {code part : Code}
  {current : ListRef × List NodeId} {row : NodeId → List NodeId}
  {finished : ListRef → Prop} {limit budget : Nat} {draft : Draft Unit} {id : NodeId}

/-- The statement itself, before the lists that it owns. -/
theorem Draft.Before.ensures_editStatement
    (hbefore : draft.Before origin code part current row finished) (hframes : origin.Frames code)
    (hincludes : code.Includes part) (hid : id ∈ part.heads) (hfits : origin.Fits (budget + 1) id) :
    Walk.Ensures (editStatement (rules limit budget) id) draft (fun _ between =>
        origin.Expanding code (Function.update row id (between.pending ++ [id])) finished
        between.program) fun _ _ => False := by
  have hmem := part.heads_subset_order hid
  have hold := (hframes.framed.lt_size (hincludes.order hmem)).trans_le hbefore.expanding.trims.size
  let scope : Scope := ⟨draft.program, fun _ => True, fun _ => True, fun _ _ => trivial,
    fun _ _ _ _ _ _ => Or.inl trivial⟩
  have hedit : Walk.Ensures (editStatement (rules limit budget) id) draft
      (fun _ between => between.Evolved scope) fun _ _ => False :=
    ThreeAddress.ensures_editStatement rfl hbefore.pending trivial
      (hbefore.expanding.trims.fits hfits)
  refine hedit.mono (fun _ between hevolved => ?_) fun _ _ => False.elim
  refine hbefore.expanding.replace hframes (hincludes.order hmem) (hbefore.selves id hmem)
    (fun entry hentry hlisted => ?_) hevolved.trims hevolved.lists (hevolved.rowFor_self hold)
  obtain rfl :=
    Code.eq_of_mem_lists hframes.nodup_order hentry hbefore.listed hlisted (hbefore.heads hid)
  exact hbefore.unfinished

/-- A list whose statements hoisting gets through. -/
theorem Code.Hoists.ensures_hoistList {body : Code} {ref : ListRef}
    (hhoists : code.Hoists origin limit body) (hframes : origin.Frames code)
    (hincludes : code.Includes body) (hfits : origin.FitsCode budget body)
    (hbefore : draft.Before origin code body (ref, body.heads) row finished) :
    Walk.Ensures (hoistList limit budget ref) draft (fun _ draft' => ∃ row',
      origin.Expanding code row'
        (fun other => finished other ∨ other ∈ (body.lists ref).map Prod.fst) draft'.program ∧
      draft'.pending = [] ∧ ∀ id ∉ body.order, row' id = row id) fun _ _ => False := by
  obtain ⟨budget, rfl⟩ : ∃ less, budget = less + 1 := ⟨budget - 1, by have := hfits.pos; omega⟩
  have hlist := hbefore.expanding.unwritten _ hbefore.listed hbefore.unfinished
  simp only [hoistList, Walk.ensures_bind, ensures_ask, Walk.ensures_modify]
  intro statements hstatements
  obtain rfl : body.heads = statements := Except.ok.inj (hlist.symm.trans hstatements)
  refine (hhoists budget row finished draft _ hincludes hfits hbefore).mono ?_ fun _ _ => False.elim
  rintro rows draft' ⟨row', rfl, hafter⟩ program hset
  have hunfinished : ¬ (finished ref ∨ ref ∈ body.bodies.map Prod.fst) := by
    rintro (hfinished | hbody)
    · exact hbefore.unfinished hfinished
    · obtain ⟨entry, hentry, rfl⟩ := List.mem_map.mp hbody
      obtain ⟨owner, howner, hentry⟩ := Code.exists_owner_of_mem_bodies hentry
      exact hbefore.unowned owner howner hentry
  rw [← List.flatMap_def] at hset
  have hdone := hafter.expanding.finish hframes hbefore.listed hunfinished hset
  refine ⟨row', ?_, hafter.pending, hafter.others⟩
  convert hdone using 2 with other
  simp only [Code.lists, List.map_cons, List.mem_cons]
  rw [or_assoc, or_comm (a := other = ref)]

/-! ### Statements with their bodies -/

/-- A part of a code is a statement with its bodies, followed by the rest. -/
structure Code.Splits (part : Code) (owner : NodeId) (owned : List (ListRef × Code)) (rest : Code) :
    Prop where
  heads : part.heads = owner :: rest.heads
  order : part.order = owner :: (owned.flatMap (fun body => body.2.order) ++ rest.order)
  bodies : part.bodies = owned.flatMap (fun body => body.2.lists body.1) ++ rest.bodies
  owner : ∀ body ∈ owned, body.1.owner? = some owner
  refs : (owned.map Prod.fst).Nodup

theorem Code.exists_owner_of_mem_lists {body : Code} {ref other : ListRef}
    (hother : other ∈ (body.lists ref).map Prod.fst) :
    other = ref ∨ ∃ found ∈ body.order, other.owner? = some found := by
  rw [lists, List.map_cons, List.mem_cons] at hother
  refine hother.imp_right fun hother => ?_
  obtain ⟨entry, hentry, rfl⟩ := List.mem_map.mp hother
  exact exists_owner_of_mem_bodies hentry

/-- Hoisting gets through the bodies of a statement. -/
theorem Code.ensures_forM_hoistList (hframes : origin.Frames code)
    (draft : Draft Unit) {bodies : List (ListRef × Code)} {owner : NodeId}
    (hhoists : ∀ body ∈ bodies, code.Hoists origin limit body.2)
    (hfits : ∀ body ∈ bodies, origin.FitsCode budget body.2)
    (hincludes : ∀ body ∈ bodies, code.Includes body.2)
    (hlisted : ∀ body ∈ bodies, (body.1, body.2.heads) ∈ code.bodies)
    (howned : ∀ body ∈ bodies, body.1.owner? = some owner) (hrefs : (bodies.map Prod.fst).Nodup)
    (hnodup : (bodies.flatMap fun body => body.2.order).Nodup)
    (howner : owner ∉ bodies.flatMap fun body => body.2.order)
    (hexpanding : origin.Expanding code row finished draft.program) (hpending : draft.pending = [])
    (hselves : ∀ id ∈ bodies.flatMap fun body => body.2.order, row id = [id])
    (hunfinished : ∀ body ∈ bodies, ¬ finished body.1) (howners : ∀ ref,
      finished ref → ∀ found ∈ bodies.flatMap fun body => body.2.order, ref.owner? ≠ some found) :
    Walk.Ensures ((bodies.map Prod.fst).forM (hoistList limit budget)) draft
      (fun _ draft' => ∃ row', origin.Expanding code row' (fun ref => finished ref ∨
          ref ∈ (bodies.flatMap fun body => body.2.lists body.1).map Prod.fst) draft'.program ∧
      draft'.pending = [] ∧ ∀ id ∉ bodies.flatMap fun body => body.2.order, row' id = row id)
      fun _ _ => False := by
  induction bodies generalizing row finished draft with
  | nil => exact ⟨row, by simpa using hexpanding, hpending, fun _ _ => rfl⟩
  | cons body bodies ih =>
    simp only [List.flatMap_cons, List.nodup_append', List.mem_append, not_or]
      at hnodup howner hselves howners
    obtain ⟨hbodyNodup, hnodup, hapart⟩ := hnodup
    simp only [List.forall_mem_cons] at hhoists hfits hincludes hlisted howned hunfinished
    rw [List.map_cons, List.nodup_cons] at hrefs
    have hbefore : draft.Before origin code body.2 (body.1, body.2.heads) row finished :=
      ⟨hexpanding, hpending, fun id hid => hselves id (Or.inl hid),
        List.mem_cons_of_mem _ hlisted.1, List.Subset.refl _,
        hunfinished.1, fun found hfound hsame =>
          howner.1 (Option.some.inj (howned.1.symm.trans hsame) ▸ hfound),
        fun ref href found hfound => howners ref href found (Or.inl hfound)⟩
    change Walk.Ensures (hoistList limit budget body.1 >>= fun _ =>
      (bodies.map Prod.fst).forM (hoistList limit budget)) draft _ _
    refine Walk.ensures_bind.mpr
      ((hhoists.1.ensures_hoistList hframes hincludes.1 hfits.1 hbefore).mono ?_ fun _ _ =>
        False.elim)
    rintro _ between ⟨row₁, hexpanding₁, hpending₁, hothers₁⟩
    refine (ih between hhoists.2 hfits.2 hincludes.2 hlisted.2 howned.2 hrefs.2 hnodup howner.2
      hexpanding₁ hpending₁ ?_ ?_ ?_).mono ?_ fun _ _ => False.elim
    · exact fun id hid => (hothers₁ id fun hmem => hapart hmem hid).trans (hselves id (Or.inr hid))
    · rintro other hother (hfinished | hmem)
      · exact hunfinished.2 other hother hfinished
      · rcases Code.exists_owner_of_mem_lists hmem with hsame | ⟨found, hfound, hsame⟩
        · exact hrefs.1 (List.mem_map.mpr ⟨other, hother, hsame⟩)
        · exact howner.1 (Option.some.inj ((howned.2 other hother).symm.trans hsame) ▸ hfound)
    · rintro ref (hfinished | hmem) found hfound hsame
      · exact howners ref hfinished found (Or.inr hfound) hsame
      · rcases Code.exists_owner_of_mem_lists hmem with rfl | ⟨other, hother, hsame'⟩
        · exact howner.2 (Option.some.inj (howned.1.symm.trans hsame) ▸ hfound)
        · exact hapart hother (Option.some.inj (hsame'.symm.trans hsame) ▸ hfound)
    · rintro _ draft' ⟨row₂, hexpanding₂, hpending₂, hothers₂⟩
      refine ⟨row₂, ?_, hpending₂, fun id hid => ?_⟩
      · simpa only [List.flatMap_cons, List.map_append, List.mem_append, or_assoc] using hexpanding₂
      · rw [List.flatMap_cons, List.mem_append, not_or] at hid
        rw [hothers₂ id hid.2, hothers₁ id hid.1]

/-- The lists that a statement owns when it has been edited are those that it owned at first. -/
theorem Program.Trims.nestedLists_eq {program program' : Program} (htrims : program.Trims program')
    {id : NodeId} {node : Node} (hnode : program.node id = .ok node) :
    program'.nestedLists id = .ok (node.lists id) := by
  obtain ⟨node', hnode', hresembles, -⟩ := htrims.node id node hnode
  rw [nestedLists_of_node hnode', hresembles.lists_eq id]

/-- Hoisting gets through a statement with its bodies and what follows. -/
theorem Code.Hoists.cons (hframes : origin.Frames code) {node : Node}
    (bodies : List (ListRef × Code)) {rest : Code} (hnode : origin.node id = .ok node)
    (hlists : node.lists id = bodies.map Prod.fst) (hsplits : part.Splits id bodies rest)
    (hfits : ∀ budget, origin.FitsCode budget part → origin.Fits budget id ∧
      (∀ body ∈ bodies, origin.FitsCode (budget - 1) body.2) ∧ origin.FitsCode budget rest)
    (hbodies : ∀ body ∈ bodies, code.Hoists origin limit body.2)
    (hrest : code.Hoists origin limit rest) :
    code.Hoists origin limit part := by
  intro budget row finished draft current hincludes hpart hbefore
  obtain ⟨hidFits, hbodiesFits, hrestFits⟩ := hfits _ hpart
  have hnodup := hincludes.nodup
  simp only [hsplits.order, List.nodup_cons, List.mem_append, not_or, List.nodup_append'] at hnodup
  obtain ⟨⟨hidBodies, hidRest⟩, hbodiesNodup, hrestNodup, hapart⟩ := hnodup
  have hid : id ∈ part.heads := hsplits.heads ▸ List.mem_cons_self
  have hbodyOrder {found : NodeId} (hfound : found ∈ bodies.flatMap fun body => body.2.order) :
      found ∈ part.order := by
    simp [hsplits.order, hfound]
  have hrestOrder {found : NodeId} (hfound : found ∈ rest.order) : found ∈ part.order := by
    simp [hsplits.order, hfound]
  have hinside := hincludes.bodies
  rw [hsplits.bodies, List.append_subset] at hinside
  have hbodyLists : ∀ body ∈ bodies, body.2.lists body.1 ⊆ code.bodies :=
    fun body hbody entry hentry =>
    hinside.1 (List.mem_flatMap.mpr ⟨body, hbody, hentry⟩)
  have hbodyIncludes : ∀ body ∈ bodies, code.Includes body.2 := fun body hbody =>
    ⟨fun found hfound => hincludes.order (hbodyOrder (List.mem_flatMap.mpr ⟨body, hbody, hfound⟩)),
      fun entry hentry => hbodyLists body hbody (List.mem_cons_of_mem _ hentry),
      (List.nodup_flatMap.mp hbodiesNodup).1 body hbody⟩
  rw [hsplits.heads]
  simp only [List.mapM_cons, Walk.ensures_bind, ensures_takePending, ensures_ask, Walk.ensures_pure]
  refine (hbefore.ensures_editStatement hframes hincludes hid hidFits).mono
    (fun _ between hexpanding lists hnested => ?_) fun _ _ => False.elim
  obtain rfl := Except.ok.inj ((hexpanding.trims.nestedLists_eq hnode).symm.trans hnested)
  rw [hlists]
  refine (Code.ensures_forM_hoistList hframes { between with pending := [] } hbodies
    hbodiesFits hbodyIncludes (fun body hbody => hbodyLists body hbody List.mem_cons_self)
      hsplits.owner hsplits.refs hbodiesNodup hidBodies hexpanding rfl
      (fun found hfound => ?_) (fun body hbody hfinished => ?_) fun ref href found hfound =>
      hbefore.owners ref href found (hbodyOrder hfound)).mono ?_ fun _ _ => False.elim
  · rw [Function.update_of_ne (ne_of_mem_of_not_mem hfound hidBodies)]
    exact hbefore.selves found (hbodyOrder hfound)
  · exact hbefore.owners _ hfinished id (part.heads_subset_order hid) (hsplits.owner body hbody)
  rintro _ afterBodies ⟨row₁, hexpanding₁, hpending₁, hothers₁⟩
  -- what is finished by then belongs to the statement or to one in its bodies
  have howner {ref : ListRef}
      (href : ref ∈ (bodies.flatMap fun body => body.2.lists body.1).map Prod.fst) :
      ∃ found ∈ part.order, found ∉ rest.order ∧ ref.owner? = some found := by
    obtain ⟨entry, hentry, rfl⟩ := List.mem_map.mp href
    obtain ⟨body, hbody, hentry⟩ := List.mem_flatMap.mp hentry
    rcases Code.exists_owner_of_mem_lists (List.mem_map_of_mem hentry)
      with hsame | ⟨found, hfound, hsame⟩
    · exact ⟨id, part.heads_subset_order hid, hidRest, hsame ▸ hsplits.owner body hbody⟩
    · have hfound : found ∈ bodies.flatMap fun body => body.2.order :=
        List.mem_flatMap.mpr ⟨body, hbody, hfound⟩
      exact ⟨found, hbodyOrder hfound, hapart hfound, hsame⟩
  have hrow : ∀ found ∈ rest.order, row₁ found = row found := fun found hfound => by
    rw [hothers₁ found fun hmem => hapart hmem hfound,
      Function.update_of_ne (ne_of_mem_of_not_mem hfound hidRest)]
  have hlater : Draft.Before origin code rest current row₁ _ afterBodies := {
    expanding := hexpanding₁
    pending := hpending₁
    selves :=
      fun found hfound => (hrow found hfound).trans (hbefore.selves found (hrestOrder hfound))
    listed := hbefore.listed
    heads := fun found hfound => hbefore.heads (hsplits.heads ▸ List.mem_cons_of_mem _ hfound)
    unfinished := by
      rintro (hfinished | href)
      · exact hbefore.unfinished hfinished
      · obtain ⟨found, hfound, -, hsame⟩ := howner href
        exact hbefore.unowned found hfound hsame
    unowned := fun found hfound => hbefore.unowned found (hrestOrder hfound)
    owners := by
      rintro ref (hfinished | href) found hfound hsame
      · exact hbefore.owners ref hfinished found (hrestOrder hfound) hsame
      · obtain ⟨other, -, hother, hsame'⟩ := howner href
        exact hother (Option.some.inj (hsame'.symm.trans hsame) ▸ hfound) }
  have hrestIncludes : code.Includes rest :=
    ⟨fun found hfound => hincludes.order (hrestOrder hfound), hinside.2, hrestNodup⟩
  refine (hrest budget row₁ _ afterBodies current hrestIncludes hrestFits hlater).mono ?_ fun _ _ =>
    False.elim
  rintro rows draft' ⟨row₂, rfl, hexpanding₂, hpending₂, hothers₂⟩
  refine ⟨row₂, ?_, ?_, hpending₂, fun found hfound => ?_⟩
  · rw [List.map_cons, hothers₂ id hidRest, hothers₁ id hidBodies, Function.update_self]
  · simpa only [hsplits.bodies, List.map_append, List.mem_append, or_assoc] using hexpanding₂
  · simp only [hsplits.order, List.mem_cons, List.mem_append, not_or] at hfound
    rw [hothers₂ found hfound.2.2, hothers₁ found hfound.2.1, Function.update_of_ne hfound.1]

/-- Hoisting gets through all parts of a code. -/
theorem Program.Frames.hoists (hframes : origin.Frames code)
    (limit : Nat) (hframed : origin.FramesCode part) :
    code.Hoists origin limit part := by
  induction hframed with
  | nil =>
    intro budget row finished draft current _ _ hbefore
    rw [Code.heads, List.mapM_nil]
    exact ⟨row, rfl, by simpa [Code.bodies] using hbefore.expanding, hbefore.pending,
      fun _ _ => rfl⟩
  | step hstatement hlists _ ih =>
    exact .cons hframes [] hstatement hlists ⟨rfl, Code.order_step .., rfl, by simp, List.nodup_nil⟩
      (fun budget hfits => ⟨hfits.1, by simp, hfits.2⟩) (by simp) ih
  | @branch statement condition thenBody elseBody rest hstatement hnode _ _ _ ihthen ihelse ih =>
    rw [hnode] at hstatement
    exact .cons hframes [(.thenBody statement.id, thenBody), (.elseBody statement.id, elseBody)]
      hstatement rfl ⟨rfl, by simp, by simp [Code.bodies, Code.lists], by
           simp [ListRef.owner?], by simp⟩ (fun budget hfits =>
        ⟨hfits.1, by simpa using hfits.2.1, hfits.2.2⟩) (by simpa using ⟨ihthen, ihelse⟩) ih
  | @loop statement body rest hstatement hnode _ _ ihbody ih =>
    rw [hnode] at hstatement
    exact .cons hframes [(.loopBody statement.id, body)] hstatement rfl
       ⟨rfl, by simp, by simp [Code.bodies, Code.lists], by simp [ListRef.owner?], by simp⟩
      (fun budget hfits => ⟨hfits.1, by simpa using hfits.2.1, hfits.2.2⟩) (by simpa using ihbody)
        ih

/-! ### Programs -/

namespace Program

variable {program : Program}

/-- Hoisting gets through a program that fits, and its statements are replaced by rows. -/
theorem Frames.ensures_hoistList (hframes : program.Frames code)
    (hfits : program.FitsCode (limit + 1) code) :
    Walk.Ensures (hoistList limit (limit + 1) .root) { program, memory := () }
      (fun _ draft => ∃ row, program.Expanded code row draft.program) fun _ _ => False := by
  have hbefore : Draft.Before program code code (.root, code.heads)
      (fun id => [id]) (fun _ => False) { program, memory := () } :=
    ⟨expanding_self hframes, rfl, fun _ _ => rfl, List.mem_cons_self, List.Subset.refl _,
      id, by simp [ListRef.owner?], fun _ => False.elim⟩
  have hincludes : code.Includes code :=
    ⟨List.Subset.refl _, List.Subset.refl _, hframes.nodup_order⟩
  refine ((hframes.hoists limit hframes.framed).ensures_hoistList hframes hincludes hfits
    hbefore).mono ?_ fun _ _ => id
  rintro _ draft ⟨row, hexpanding, -, -⟩
  exact ⟨row, hexpanding.expanded fun entry hentry => Or.inr (List.mem_map_of_mem hentry)⟩

/-- Where no statement comes twice, hoisting fails in the check beforehand or not at all, and no
statement comes twice afterwards. -/
theorem StatementsOnce.ensures_hoistSubexpressions (honce : program.StatementsOnce) (limit : Nat) :
    Walk.Ensures (hoistSubexpressions limit) program (fun _ program' => program'.StatementsOnce)
      fun failure program' => Query.Fails (program.checkDepth limit) failure ∧
        program' = program.report failure.message := by
  unfold hoistSubexpressions
  simp only [Walk.ensures_bind, Walk.ensures_get, Walk.ensures_attempt]
  refine Walk.ensures_liftQuery.mpr
    ⟨fun _ (hchecked : Query.Answers (program.checkDepth limit) ⟨⟩) => ?_,
    fun failure (hfails : Query.Fails (program.checkDepth limit) failure) => ?_⟩
  · obtain ⟨code, hframed, hlist⟩ := exists_framed_of_checkDepthWithin hchecked
    have hbody : program.body = code.heads := Except.ok.inj hlist
    obtain ⟨rows, hrows, horder⟩ := hframed.exists_rows (Nat.le_refl _)
    have hframes : program.Frames code :=
      ⟨hframed, hbody, honce _ _ (horder ▸ preOrderWithin_eq hlist hrows)⟩
    have hhoists :=
      hframes.ensures_hoistList ((hframed.answers_checkDepthWithin_iff hlist).mp hchecked)
    simp only [Walk.ensures_liftCrash, Walk.ensures_set, Walk.ensures_liftExcept, Walk.ensures_pure]
    rintro ⟨outcome, draft⟩ hwalk
    refine ⟨fun answer houtcome => ?_, fun failure houtcome => ?_⟩
    · subst houtcome
      obtain ⟨row, hexpanded⟩ := hhoists.of_answers hwalk
      obtain ⟨code', hframes', -⟩ := hexpanded.exists_frames hframes
      exact hframes'.statementsOnce
    · subst houtcome
      exact (hhoists.of_fails hwalk).elim
  · simp only [Walk.ensures_modify, Walk.ensures_throw]
    exact ⟨hfails, trivial⟩

end Program

end ShaderIR
