import ShaderIR.Proofs.Outline.Passing
import ShaderIR.Proofs.Pass.StatementRuns

/-!
Types of lifted operands. When the computations that are remembered under one number have the same
type (`Verdict.Consistent`), the temporaries that hold them have it too (`Temporaries.Typed`), and
every operand keeps its type (`Lifted.typed`). So an edited statement has the types that it relies
on (`Program.Suits.withChildren`).
-/

set_option autoImplicit false

namespace ShaderIR

/-- Trees that are taken out under one number have the same type. -/
def Verdict.Consistent (program : Program) (relevant : Tree → Prop) (verdict : Verdict) : Prop :=
  ∀ first second number, relevant first → relevant second → verdict first = some (some number) →
    verdict second = some (some number) → first.ty? program = second.ty? program

/-- Temporaries have the types of the trees that they hold. -/
def Temporaries.Typed (program program' : Program) (relevant : Tree → Prop) (verdict : Verdict)
    (memory : Temporaries) : Prop :=
  ∀ number temporary, memory.lookup number = some temporary → ∀ tree, relevant tree →
    verdict tree = some (some number) → ∀ ty, tree.ty? program = some ty →
      program'.vars[temporary.index]?.map Variable.ty = some ty

/-- An operand has the type of the one that it has been made of. -/
def Tree.KeepsType (program program' : Program) (tree tree' : Tree) : Prop :=
  ∀ ty, tree.ty? program = some ty → tree'.ty? program' = some ty

namespace Lifted

variable {program program' : Program} {relevant : Tree → Prop} {verdict : Verdict}
  {memory memory' : Temporaries} {next next' : Nat} {forest : List (Role × Tree)}
  {forest' : List Tree} {rows : List Row}

theorem ty?_leaf (leaf : NodeId) (temporary : VarId) :
    Tree.ty? program ⟨leaf, .variable temporary, []⟩ =
      program.vars[temporary.index]?.map Variable.ty := by
  rw [Tree.ty?_mk, Node.ty?]

section

variable (hvars : ∀ (index : Nat) declared, program.vars[index]? = some declared →
    program'.vars[index]? = some declared) (hsignatures : program'.signatures = program.signatures)

include hvars hsignatures

theorem keepsType_withChildren {tree : Tree} {children : List Tree} (hlinked : tree.Linked)
    (hchildren : List.Forall₂ (Tree.KeepsType program program') tree.children children) :
    tree.KeepsType program program' (tree.withChildren children) := by
  intro ty hty
  have halike := Tree.alike_withChildren hlinked children hchildren.length_eq.symm
  obtain ⟨id, node, operands⟩ := tree
  rw [Tree.ty?_mk] at hty
  rw [Tree.withChildren, Tree.ty?_mk]
  exact Node.ty?_mono halike
    (List.forall₂_map_left_iff.mpr (List.forall₂_map_right_iff.mpr hchildren)) hvars hsignatures hty

/-- Operands keep their types when they are lifted. -/
theorem typed (hconsistent : verdict.Consistent program relevant)
    (hlifted : Lifted verdict memory next forest forest' rows memory' next')
    (hdeclares : Declares program' rows) (hlinked : ∀ item ∈ forest, item.2.Linked)
    (hrelevant : ∀ item ∈ forest, ∀ below ∈ item.2.subtrees, relevant below)
    (hmemory : memory.Typed program program' relevant verdict) :
    List.Forall₂ (fun item tree' => item.2.KeepsType program program' tree') forest forest' ∧
      memory'.Typed program program' relevant verdict := by
  have hchild : ∀ {tree : Tree}, tree.Linked → (∀ below ∈ tree.subtrees, relevant below) →
      (∀ item ∈ tree.children.map (Role.value, ·), item.2.Linked) ∧
        ∀ item ∈ tree.children.map (Role.value, ·), ∀ below ∈ item.2.subtrees, relevant below :=
    fun hlinked hrelevant => ⟨by simpa using fun child hchild => hlinked.child hchild,
      by simpa using fun child hchild below hbelow =>
        hrelevant below (Tree.mem_subtrees_of_mem_children hchild hbelow)⟩
  induction hlifted with
  | nil => exact ⟨.nil, hmemory⟩
  | @kept memory memory₁ memory₂ next next₁ next₂ role tree rest children rest' rows rows' hkeeps
      hchildren hrest ih ih' =>
    obtain ⟨hdeclares, hdeclaresRest⟩ := List.forall_mem_append.mp hdeclares
    obtain ⟨hlinked, hlinkedRest⟩ := List.forall_mem_cons.mp hlinked
    obtain ⟨hrelevant, hrelevantRest⟩ := List.forall_mem_cons.mp hrelevant
    obtain ⟨hlinkedBelow, hrelevantBelow⟩ := hchild hlinked hrelevant
    obtain ⟨hbelow, hmemory₁⟩ := ih hdeclares hlinkedBelow hrelevantBelow hmemory
    obtain ⟨hlater, hmemory₂⟩ := ih' hdeclaresRest hlinkedRest hrelevantRest hmemory₁
    rw [List.forall₂_map_left_iff] at hbelow
    exact ⟨.cons (keepsType_withChildren hvars hsignatures hlinked hbelow) hlater, hmemory₂⟩
  | @reused memory memory₁ next next₁ tree number temporary leaf rest rest' rows htaken hheld
      hrest ih =>
    obtain ⟨hrelevant, hrelevantRest⟩ := List.forall_mem_cons.mp hrelevant
    obtain ⟨hlater, hmemory₁⟩ :=
      ih hdeclares (List.forall_mem_cons.mp hlinked).2 hrelevantRest hmemory
    refine ⟨.cons (fun ty hty => ?_) hlater, hmemory₁⟩
    rw [ty?_leaf]
    exact hmemory number temporary hheld tree (hrelevant tree tree.mem_subtrees_self) htaken ty hty
  | @stored memory memory₁ memory₂ next next₁ next₂ tree shared row leaf rest children rest' rows
      rows' htaken hfresh hchildren htemporary hvalue hrest ih ih' =>
    obtain ⟨hdeclares, hdeclaresRest⟩ := List.forall_mem_append.mp hdeclares
    obtain ⟨⟨hdeclared, hvalueTy⟩, hdeclaresRest⟩ := List.forall_mem_cons.mp hdeclaresRest
    obtain ⟨hlinked, hlinkedRest⟩ := List.forall_mem_cons.mp hlinked
    obtain ⟨hrelevant, hrelevantRest⟩ := List.forall_mem_cons.mp hrelevant
    obtain ⟨hlinkedBelow, hrelevantBelow⟩ := hchild hlinked hrelevant
    obtain ⟨hbelow, hmemory₁⟩ := ih hdeclares hlinkedBelow hrelevantBelow hmemory
    rw [List.forall₂_map_left_iff] at hbelow
    -- the temporary has the type of the edited tree, and this one that of the old tree
    have htemporaryTy : ∀ ty, tree.ty? program = some ty →
        program'.vars[row.temporary.index]?.map Variable.ty = some ty := by
      intro ty hty
      have hkept := keepsType_withChildren hvars hsignatures hlinked hbelow ty hty
      rw [← hvalue, hvalueTy] at hkept
      rw [hdeclared, ← hkept]
      rfl
    obtain ⟨hlater, hmemory₂⟩ := ih' hdeclaresRest hlinkedRest hrelevantRest (by
      intro number temporary hlookup other hother hverdict ty hty
      rcases lookup_remembered hlookup with ⟨hshared, rfl⟩ | hlookup
      · rw [Option.mem_def.mp hshared] at htaken
        exact htemporaryTy ty (hconsistent other tree number hother
          (hrelevant tree tree.mem_subtrees_self) hverdict htaken ▸ hty)
      · exact hmemory₁ number temporary hlookup other hother hverdict ty hty)
    refine ⟨.cons (fun ty hty => ?_) hlater, hmemory₂⟩
    rw [ty?_leaf]
    exact htemporaryTy ty hty
  | @whole memory memory₁ next next₁ id written rest rest' rows hrest ih =>
    obtain ⟨hlater, hmemory₁⟩ := ih hdeclares (List.forall_mem_cons.mp hlinked).2
      (List.forall_mem_cons.mp hrelevant).2 hmemory
    exact ⟨.cons (fun ty hty => Tree.ty?_mono hvars hsignatures hty) hlater, hmemory₁⟩
  | @field memory memory₁ memory₂ next next₁ next₂ tree record record' number rest rest' rows rows'
      hnode htree hrecord hrest ih ih' =>
    obtain ⟨hdeclares, hdeclaresRest⟩ := List.forall_mem_append.mp hdeclares
    obtain ⟨hlinked, hlinkedRest⟩ := List.forall_mem_cons.mp hlinked
    obtain ⟨hrelevant, hrelevantRest⟩ := List.forall_mem_cons.mp hrelevant
    obtain ⟨hlinkedBelow, hrelevantBelow⟩ := hchild hlinked hrelevant
    rw [htree] at hlinkedBelow hrelevantBelow
    obtain ⟨hbelow, hmemory₁⟩ :=
      ih hdeclares (by simpa using hlinkedBelow) (by simpa using hrelevantBelow) hmemory
    obtain ⟨hlater, hmemory₂⟩ := ih' hdeclaresRest hlinkedRest hrelevantRest hmemory₁
    refine ⟨.cons (keepsType_withChildren hvars hsignatures hlinked ?_) hlater, hmemory₂⟩
    rw [htree]
    exact .cons (List.forall₂_cons.mp hbelow).1 .nil
  | @index memory memory₁ memory₂ next next₁ next₂ tree base position base' position' rest rest'
      rows rows' hnode htree hparts hrest ih ih' =>
    obtain ⟨hdeclares, hdeclaresRest⟩ := List.forall_mem_append.mp hdeclares
    obtain ⟨hlinked, hlinkedRest⟩ := List.forall_mem_cons.mp hlinked
    obtain ⟨hrelevant, hrelevantRest⟩ := List.forall_mem_cons.mp hrelevant
    obtain ⟨hlinkedBelow, hrelevantBelow⟩ := hchild hlinked hrelevant
    rw [htree] at hlinkedBelow hrelevantBelow
    simp only [List.forall_mem_map, List.forall_mem_cons] at hlinkedBelow hrelevantBelow
    obtain ⟨hbelow, hmemory₁⟩ := ih hdeclares (by simpa using ⟨hlinkedBelow.2.1, hlinkedBelow.1⟩)
      (by simpa using ⟨hrelevantBelow.2.1, hrelevantBelow.1⟩) hmemory
    obtain ⟨hlater, hmemory₂⟩ := ih' hdeclaresRest hlinkedRest hrelevantRest hmemory₁
    refine ⟨.cons (keepsType_withChildren hvars hsignatures hlinked ?_) hlater, hmemory₂⟩
    obtain ⟨hposition, hbase⟩ := List.forall₂_cons.mp hbelow
    rw [htree]
    exact .cons (List.forall₂_cons.mp hbase).1 (.cons hposition .nil)

end

end Lifted

/-! ### Statements -/

namespace Program

variable {program program' : Program}

theorem suits_statement (row : Row) : program.Suits row.statement :=
  fun hmask => absurd rfl hmask

/-- An edited statement has the types that it relies on if the old one had them. -/
theorem Suits.withChildren {statement : Tree} {valueRole : Role} {parts' : List Tree}
    (hsuits : program.Suits statement) (hsound : program.Sound statement)
    (hsignatures : program'.signatures = program.signatures)
    (hparts : List.Forall₂ (fun item tree' => item.2.KeepsType program program' tree')
      (program.parts valueRole statement) parts') :
      program'.Suits (statement.withChildren parts') := by
  have hsignature : ∀ callee, program'.signature callee = program.signature callee :=
    Program.signature_congr hsignatures
  cases hsound with
  | assign id target value mask hplace =>
    obtain ⟨value', others, -, hothers, rfl⟩ := List.forall₂_cons_left_iff.mp hparts
    obtain ⟨target', none', htarget, hnone, rfl⟩ := List.forall₂_cons_left_iff.mp hothers
    cases hnone
    intro hmask
    obtain ⟨ty, hty, hfull⟩ := hsuits hmask
    exact ⟨ty, htarget ty hty, hfull⟩
  | call id callee arguments result signature hfound harguments hwritten hresult =>
    obtain ⟨arguments', result', rfl, -, hsome, -, -, hnode⟩ :=
      exists_withChildren_call hfound harguments hparts
    rw [hnode]
    cases result' with
    | none => trivial
    | some place' =>
      obtain ⟨place, rfl⟩ := Option.isSome_iff_exists.mp hsome.symm
      intro found hanswer
      exact hsuits found (hsignature callee ▸ hanswer)
  | branch id condition thenBody elseBody =>
    obtain ⟨condition', none', hcondition, hnone, rfl⟩ := List.forall₂_cons_left_iff.mp hparts
    cases hnone
    exact hcondition _ hsuits
  | loop id body => trivial
  | ret id operand => trivial
  | discard id operand => trivial

end Program

end ShaderIR
