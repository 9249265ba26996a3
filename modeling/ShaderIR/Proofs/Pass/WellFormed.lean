import ShaderIR.Proofs.Numbering.Types
import ShaderIR.Proofs.Pass.HoistingRuns
import ShaderIR.Proofs.Pass.LiftingTypes
import ShaderIR.Proofs.Pass.SharedProgram

/-!
Both passes keep the structural check. Their results have outlines, so that no node has two parents;
what is left to see is that the statements have the types that they rely on
(`Program.Hoisted.suits`, `Program.SharesAs.suits`). For sharing this needs that what is computed
once had one type before (`Program.SharesTypes`).
-/

set_option autoImplicit false

namespace ShaderIR

open Program

/-! ### Three-address form -/

theorem ThreeAddress.consistent (program : Program) (relevant : Tree → Prop) :
    ThreeAddress.verdict.Consistent program relevant := by
  intro first _ number _ _ hfirst
  unfold ThreeAddress.verdict at hfirst
  split at hfirst <;> cases hfirst

theorem Temporaries.typed_nil (program program' : Program)
    (relevant : Tree → Prop) (verdict : Verdict) :
    Temporaries.Typed program program' relevant verdict [] :=
  nofun

/-- The statements of a code in three-address form have the types that they rely on. -/
theorem Program.Hoisted.suits {program program' : Program} {next next' : Nat} {code code' : Code}
    (hhoisted : program.Hoisted program' next code code' next')
    (hvars : ∀ (index : Nat) declared, program.vars[index]? = some declared →
      program'.vars[index]? = some declared)
    (hsignatures : program'.signatures = program.signatures)
    (hlinked : ∀ statement ∈ code.statements, statement.Linked)
    (hsound : ∀ statement ∈ code.statements, program.Sound statement)
    (hsuits : ∀ statement ∈ code.statements, program.Suits statement) :
    ∀ statement ∈ code'.statements, program'.Suits statement := by
  have hrow (rows : List Row) : ∀ statement ∈ rows.map Row.statement, program'.Suits statement :=
    List.forall_mem_map.mpr fun row _ => suits_statement row
  -- operands keep their types, whatever stands above them
  have hparts {next next' : Nat} {forest : List (Role × Tree)} {forest' : List Tree}
      {rows : List Row} (hlifted : Lifted ThreeAddress.verdict [] next forest forest' rows [] next')
      (hdeclares : Lifted.Declares program' rows) (hlinked : ∀ item ∈ forest, item.2.Linked) :=
    (hlifted.typed hvars hsignatures (ThreeAddress.consistent program fun _ => True) hdeclares
      hlinked (fun _ _ _ _ => trivial) (Temporaries.typed_nil _ _ _ _)).1
  induction hhoisted with
  | nil => simp [Code.statements]
  | step hlists hlifted hdeclares hrest ih =>
    simp only [Code.statements_prepend, Code.statements, List.forall_mem_append,
      List.forall_mem_cons] at *
    refine ⟨hrow _, hsuits.1.withChildren hsound.1 hsignatures
      (hparts hlifted hdeclares fun item hitem => ?_), ih hlinked.2 hsound.2 hsuits.2⟩
    exact hlinked.1.child (map_snd_parts hsound.1 .root ▸ List.mem_map_of_mem hitem)
  | branch hlifted hdeclares _ _ _ ihthen ihelse ih =>
    simp only [Code.statements_prepend, Code.statements, List.forall_mem_append,
      List.forall_mem_cons] at *
    obtain ⟨hlinked, ⟨hlinkedThen, hlinkedElse⟩, hlinkedRest⟩ := hlinked
    obtain ⟨-, ⟨hsoundThen, hsoundElse⟩, hsoundRest⟩ := hsound
    obtain ⟨hsuits, ⟨hsuitsThen, hsuitsElse⟩, hsuitsRest⟩ := hsuits
    have hcondition := hparts hlifted hdeclares (by simpa using hlinked.child List.mem_cons_self)
    exact ⟨hrow _, (List.forall₂_cons.mp hcondition).1 _ hsuits,
      ⟨ihthen hlinkedThen hsoundThen hsuitsThen, ihelse hlinkedElse hsoundElse hsuitsElse⟩,
      ih hlinkedRest hsoundRest hsuitsRest⟩
  | loop _ _ ihbody ih =>
    simp only [Code.statements, List.forall_mem_append, List.forall_mem_cons] at *
    exact ⟨trivial, ihbody hlinked.2.1 hsound.2.1 hsuits.2.1, ih hlinked.2.2 hsound.2.2 hsuits.2.2⟩

/-! ### Sharing -/

namespace SharingPlan

variable {plan : SharingPlan} {program program' : Program}
  {relevant : Tree → Prop} {memory memory' : Temporaries}
  {next next' : Nat} {statement : Tree} {rows : List Row} {trees : List Tree}

/-- Temporaries keep the types of what they hold, as it was in an earlier program, when a statement
is edited. -/
theorem Edited.typed {origin : Program}
    (hedited : plan.Edited program program' memory next statement rows trees memory' next')
    (hconsistent : plan.verdict.Consistent origin relevant)
    (hvars : ∀ (index : Nat) declared, origin.vars[index]? = some declared →
      program'.vars[index]? = some declared) (hsignatures : program'.signatures = origin.signatures)
    (hkept : program.signatures = origin.signatures) (hlinked : statement.Linked)
    (hrelevant : ∀ below ∈ statement.subtrees, relevant below) (hsound : program.Sound statement)
    (hmemory : memory.Typed origin program' relevant plan.verdict) :
    memory'.Typed origin program' relevant plan.verdict := by
  have htyped {forest : List (Role × Tree)} {forest' : List Tree}
      {rows : List Row} {memory' : Temporaries}
      {next' : Nat} (hlifted : Lifted plan.verdict memory next forest forest' rows memory' next')
      (hdeclares : Lifted.Declares program' rows)
        (hforest : ∀ item ∈ forest, item.2 ∈ statement.children) :=
    (hlifted.typed hvars hsignatures hconsistent hdeclares
      (fun item hitem => hlinked.child (hforest item hitem)) (fun item hitem below hbelow =>
        hrelevant below (Tree.mem_subtrees_of_mem_children (hforest item hitem) hbelow)) hmemory).2
  cases hedited with
  | operands _ hlifted hdeclares =>
    exact htyped hlifted hdeclares fun item hitem =>
      map_snd_parts hsound .value ▸ List.mem_map_of_mem hitem
  | dropped => exact hmemory
  | @first memory₁ _ next₁ id place copy leaf callee arguments arguments' target target' _ number
      signature name hnumber hfresh hsignature hlifted hdeclares hdeclared =>
    have hmemory₁ := htyped hlifted hdeclares (by simp +contextual [or_imp])
    intro number' temporary hlookup tree htree hverdict ty hty
    have hremembered : ((some number).toList.map (·, (⟨next₁⟩ : VarId)) ++ memory₁).lookup number' =
        some temporary := hlookup
    rcases Lifted.lookup_remembered hremembered with ⟨hsame, rfl⟩ | hlookup
    · -- the temporary has the type of the call
      obtain rfl := Option.mem_some_iff.mp hsame
      have hcall := hconsistent tree (callTree id callee arguments target) number htree
        (hrelevant _ (Tree.mem_subtrees_self _)) hverdict (verdict_eq_some_iff.mpr hnumber)
      rw [hcall, Tree.ty?_mk, Node.ty?, ← hkept, fetch_eq_ok_iff.mp hsignature] at hty
      rw [hdeclared, ← hty]
      rfl
    · exact hmemory₁ number' temporary hlookup tree htree hverdict ty hty
  | again _ _ hlifted hdeclares => exact htyped hlifted hdeclares (by simp)

/-- What stands for an edited statement has the types that it relies on, and temporaries keep the
types of what they hold. -/
theorem Edited.suits
    (hedited : plan.Edited program program' memory next statement rows trees memory' next')
    (hconsistent : plan.verdict.Consistent program relevant)
    (hvars : ∀ (index : Nat) declared, program.vars[index]? = some declared →
      program'.vars[index]? = some declared)
    (hsignatures : program'.signatures = program.signatures)
    (hlinked : statement.Linked) (hrelevant : ∀ below ∈ statement.subtrees, relevant below)
    (hsound : program.Sound statement) (hsuits : program.Suits statement)
    (hmemory : memory.Typed program program' relevant plan.verdict) :
    (∀ edited ∈ rows.map Row.statement ++ trees, program'.Suits edited) ∧
      memory'.Typed program program' relevant plan.verdict := by
  have hrow (rows : List Row) : ∀ statement ∈ rows.map Row.statement, program'.Suits statement :=
    List.forall_mem_map.mpr fun row _ => suits_statement row
  have hcopy {copy leaf : NodeId} {temporary : VarId} {target : Tree} :
      program'.Suits (copyTree copy leaf temporary target) := fun hmask => absurd rfl hmask
  refine ⟨?_, hedited.typed hconsistent hvars hsignatures rfl hlinked hrelevant hsound hmemory⟩
  cases hedited with
  | operands _ hlifted hdeclares =>
    have hforest : ∀ item ∈ program.parts .value statement, item.2 ∈ statement.children :=
      fun item hitem =>
      map_snd_parts hsound .value ▸ List.mem_map_of_mem hitem
    obtain ⟨hparts, -⟩ := hlifted.typed hvars hsignatures hconsistent hdeclares
      (fun item hitem => hlinked.child (hforest item hitem)) (fun item hitem below hbelow =>
        hrelevant below (Tree.mem_subtrees_of_mem_children (hforest item hitem) hbelow)) hmemory
    exact List.forall_mem_append.mpr ⟨hrow rows, List.forall_mem_singleton.mpr
      (hsuits.withChildren hsound hsignatures hparts)⟩
  | dropped => exact List.forall_mem_singleton.mpr trivial
  | first =>
    refine List.forall_mem_append.mpr ⟨hrow rows, List.forall_mem_cons.mpr ⟨fun found hfound => ?_,
      List.forall_mem_singleton.mpr hcopy⟩⟩
    rw [Program.signature, hsignatures, ← Program.signature] at hfound
    exact hsuits found hfound
  | again => exact List.forall_mem_append.mpr ⟨hrow rows, List.forall_mem_singleton.mpr hcopy⟩

/-- What stands for edited statements has the types that it relies on. -/
theorem EditedAll.suits {statements : List Tree} {replaced : List Replacement}
    (hedited : plan.EditedAll program program' memory next statements replaced memory' next')
    (hconsistent : plan.verdict.Consistent program relevant)
    (hvars : ∀ (index : Nat) declared, program.vars[index]? = some declared →
      program'.vars[index]? = some declared)
    (hsignatures : program'.signatures = program.signatures)
    (hlinked : ∀ statement ∈ statements, statement.Linked)
    (hrelevant : ∀ statement ∈ statements, ∀ below ∈ statement.subtrees, relevant below)
    (hsound : ∀ statement ∈ statements, program.Sound statement)
    (hsuits : ∀ statement ∈ statements, program.Suits statement)
    (hmemory : memory.Typed program program' relevant plan.verdict) :
    ∀ edited ∈ replaced.flatMap Replacement.trees, program'.Suits edited := by
  induction hedited with
  | nil => simp
  | cons hfirst _ ih =>
    rw [List.forall_mem_cons] at hlinked hrelevant hsound hsuits
    obtain ⟨hmade, hmemory₁⟩ :=
      hfirst.suits hconsistent hvars hsignatures hlinked.1 hrelevant.1 hsound.1 hsuits.1 hmemory
    rw [List.flatMap_cons]
    exact List.forall_mem_append.mpr ⟨hmade, ih hlinked.2 hrelevant.2 hsound.2 hsuits.2 hmemory₁⟩

/-- What is taken out has been noted under a number that occurs more than once. -/
theorem noted_of_verdict {numbering : Numbering}
    {config : Config} {tree : Tree} {number : ValueNumber}
    (htaken : (SharingPlan.ofNumbering numbering config).verdict tree = some (some number)) :
    (tree.id, number) ∈ numbering.occurrences ∧ 1 < numbering.redundancy number := by
  obtain ⟨before, after, htargets, -⟩ := List.lookup_eq_some_iff.mp (verdict_eq_some_iff.mp htaken)
  have hmem : (tree.id, number) ∈ numbering.repeated := by
    rw [← List.mem_reverse]
    change _ ∈ (SharingPlan.ofNumbering numbering config).targets
    simp [htargets]
  simpa [Numbering.repeated] using hmem

end SharingPlan

namespace Program

variable {program program' : Program} {config : Config} {code : Code}

/-- In each block, the nodes that share a number which occurs more than once have the same type. -/
def SharesTypes (program : Program) (config : Config) : Prop :=
  ∀ graph, Query.Answers (Graph.build program config) graph → ∀ block ∈ graph.blocks,
    ∀ statements numbering, block.statements program = .ok statements →
      Query.Answers (program.numberStatements statements config) numbering →
      ∀ first second number, (first, number) ∈ numbering.occurrences →
        (second, number) ∈ numbering.occurrences →
        1 < numbering.redundancy number → program.SameType first second

/-- Trees that are taken out under one number have the same type. -/
theorem consistent_of_sameType (houtlines : program.Outlines code) {numbering : Numbering}
    (hsame : ∀ first second number, (first, number) ∈ numbering.occurrences →
      (second, number) ∈ numbering.occurrences →
      1 < numbering.redundancy number → program.SameType first second) :
    (SharingPlan.ofNumbering numbering config).verdict.Consistent program code.Contains := by
  intro first second number hfirst hsecond hverdict hverdict'
  exact (houtlines.sameType_iff hfirst hsecond).mp (hsame _ _ number
      (SharingPlan.noted_of_verdict hverdict).1 (SharingPlan.noted_of_verdict hverdict').1
      (SharingPlan.noted_of_verdict hverdict).2)

/-- After sharing, statements have the types that they rely on. -/
theorem SharesAs.suits {graph : Graph} {edits : List BlockEdit} {row : NodeId → List NodeId}
    {code' : Code} (hshares : program.SharesAs config code graph edits row program' code')
    (houtlines : program.Outlines code) (htypes : program.SharesTypes config)
    (hsuits : ∀ statement ∈ code.statements, program.Suits statement) :
    ∀ statement ∈ code'.statements, program'.Suits statement := by
  refine hshares.forall_statements (fun _ _ hsame hsuits => hsuits.of_bare_eq hsame)
    fun edit hedit => ?_
  have hsubset := hshares.statements_subset hedit
  have hmono : ∀ statement ∈ edit.statements, program'.Suits statement := fun statement hmem =>
    Suits.mono (hsuits statement (hsubset hmem)) hshares.vars hshares.signatures
  obtain ⟨first, last, hedits, -, -⟩ := hshares.edited.exists_edits edit hedit
  cases hedits with
  | skipped _ hreplaced _ =>
    rw [BlockEdit.trees, hreplaced]
    simpa [List.flatMap_map, Replacement.trees, Replacement.unchanged] using hmono
  | shared _ hedited =>
    obtain ⟨block, hblock, -, hnumbering⟩ := hshares.exists_block hedit
    have hstatements := (hshares.built.depicts.holds block hblock).statements houtlines.frames
    have hsame := htypes graph hshares.build block hblock _ _ hstatements hnumbering
    exact hedited.suits (consistent_of_sameType houtlines hsame) hshares.vars hshares.signatures
      (fun statement hmem => (houtlines.draws.statement _ (hsubset hmem)).linked)
      (fun statement hmem below hbelow => ⟨statement, hsubset hmem, hbelow⟩)
      (fun statement hmem => houtlines.sound _ (hsubset hmem))
        (fun statement hmem => hsuits _ (hsubset hmem)) (Temporaries.typed_nil _ _ _ _)

/-! ### Both passes -/

/-- A program that passes the check still does so in three-address form, and after sharing too if
what shares a number has one type. In the result, every reachable node is referred to exactly
once. -/
theorem check_of_passes (hcheck : program.check = .ok ()) :
    (∀ limit changed program',
      (hoistSubexpressions limit).runFrom program = .ok (.ok changed, program') →
      program'.check = .ok () ∧ ∀ id, program'.Reachable id → ∃! slot, program'.Fills id slot) ∧
    (∀ config changed program', program.SharesTypes config →
      (localCse config).runFrom program = .ok (.ok changed, program') →
        program'.check = .ok () ∧ ∀ id, program'.Reachable id → ∃! slot,
        program'.Fills id slot) := by
  obtain ⟨code, houtlines⟩ := exists_outlines_of_check hcheck
  have hsuits := houtlines.suits_of_check hcheck
  constructor
  · intro limit changed program' hhoist
    obtain ⟨code', houtlines', hhoisted, hvars, hsignatures⟩ := houtlines.exists_hoisted hhoist
    exact ⟨houtlines'.check_of_suits (hhoisted.suits hvars hsignatures (fun statement hmem =>
        (houtlines.draws.statement statement hmem).linked) houtlines.sound hsuits),
      fun _ => houtlines'.existsUnique_slot⟩
  · intro config changed program' htypes hshare
    obtain ⟨graph, edits, row, code', hshares, -⟩ := houtlines.exists_sharesAs hshare
    have houtlines' := hshares.outlines houtlines
    exact ⟨houtlines'.check_of_suits (hshares.suits houtlines htypes hsuits),
      fun _ => houtlines'.existsUnique_slot⟩

/-- A sum that is computed twice in one expression. -/
def squaredSum : Program where
  nodes := #[.variable ⟨0⟩, .variable ⟨1⟩, .variable ⟨1⟩,
    .apply .add [⟨1⟩, ⟨2⟩] .float, .variable ⟨1⟩, .variable ⟨1⟩,
    .apply .add [⟨4⟩, ⟨5⟩] .float, .apply .mul [⟨3⟩, ⟨6⟩] .float, .assign ⟨0⟩ ⟨7⟩ 0]
  vars := #[⟨"y", .float, .auto⟩, ⟨"x", .float, .input⟩]
  body := [⟨8⟩]

theorem exists_passes_squaredSum :
    (∃ hoisted, (hoistSubexpressions 8).runFrom squaredSum = .ok (.ok true, hoisted)) ∧
      ∃ shared, (localCse { eligible := .all }).runFrom squaredSum = .ok (.ok true, shared) := by
  have hhoist : ((hoistSubexpressions 8).runFrom squaredSum).map Prod.fst = .ok (.ok true) := by
      decide +kernel
  have hshare :
      ((localCse { eligible := .all }).runFrom squaredSum).map Prod.fst = .ok (.ok true) := by
    decide +kernel
  obtain ⟨⟨_, hoisted⟩, hhoist, rfl⟩ := map_eq_ok_iff.mp hhoist
  obtain ⟨⟨_, shared⟩, hshare, rfl⟩ := map_eq_ok_iff.mp hshare
  exact ⟨⟨hoisted, hhoist⟩, shared, hshare⟩

theorem sharesTypes_squaredSum : squaredSum.SharesTypes { eligible := .all } := by
  intro graph hbuild block hblock statements numbering hstatements hnumbering first second number
    hfirst hsecond _
  have hgraph : (Graph.build squaredSum { eligible := .all }).run =
      .ok (.ok ⟨#[some ⟨⟨0⟩, [⟨.root, ⟨8⟩, ⟨8⟩⟩], [], []⟩], false⟩) := rfl
  obtain rfl := Except.ok.inj (Except.ok.inj (hgraph.symm.trans hbuild))
  obtain rfl : block = ⟨⟨0⟩, [⟨.root, ⟨8⟩, ⟨8⟩⟩], [], []⟩ := by simpa [Graph.blocks] using hblock
  obtain rfl : [⟨8⟩] = statements := Except.ok.inj hstatements
  have hfound : ((squaredSum.numberStatements [⟨8⟩] { eligible := .all }).run.map
        (·.map Numbering.occurrences)) =
      .ok (.ok [(⟨3⟩, ⟨1⟩), (⟨6⟩, ⟨1⟩), (⟨7⟩, ⟨2⟩)]) := by decide +kernel
  rw [hnumbering] at hfound
  rw [show numbering.occurrences = _ from Except.ok.inj (Except.ok.inj hfound)] at hfirst hsecond
  simp only [List.mem_cons, Prod.mk.injEq, List.not_mem_nil, or_false] at hfirst hsecond
  -- everything that is noted is a float
  have hfloat (id : NodeId) (hid : id = ⟨3⟩ ∨ id = ⟨6⟩ ∨ id = ⟨7⟩) :
      squaredSum.typeOf id = .ok .float := by
    rcases hid with rfl | rfl | rfl <;> rfl
  have hnoted (id : NodeId)
      (hid : id = ⟨3⟩ ∧ number = ⟨1⟩ ∨ id = ⟨6⟩ ∧ number = ⟨1⟩ ∨ id = ⟨7⟩ ∧ number = ⟨2⟩) :
      squaredSum.typeOf id = .ok .float :=
    hfloat id (hid.imp And.left (Or.imp And.left And.left))
  intro ty
  rw [hnoted first hfirst, hnoted second hsecond]

theorem check_of_passes_squaredSum :
    squaredSum.check = .ok () ∧ squaredSum.SharesTypes { eligible := .all } ∧
    (∃ program', (hoistSubexpressions 8).runFrom squaredSum = .ok (.ok true, program') ∧
      program'.check = .ok ()) ∧
    ∃ program', (localCse { eligible := .all }).runFrom squaredSum = .ok (.ok true, program') ∧
      program'.check = .ok () := by
  have hcheck : squaredSum.check = .ok () := rfl
  obtain ⟨⟨hoisted, hhoist⟩, shared, hshare⟩ := exists_passes_squaredSum
  have hpasses := check_of_passes hcheck
  exact ⟨hcheck, sharesTypes_squaredSum, ⟨hoisted, hhoist, (hpasses.1 _ _ _ hhoist).1⟩, shared,
    hshare, (hpasses.2 _ _ _ sharesTypes_squaredSum hshare).1⟩

end Program

end ShaderIR
