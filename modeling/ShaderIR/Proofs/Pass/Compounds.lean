import ShaderIR.Proofs.Outline.Slots
import ShaderIR.Proofs.Pass.HoistingRuns
import Mathlib.Data.List.Flatten

/-!
Where compound expressions stand. `Tree.misplaced` lists those in a statement that an assignment
does not store directly; these are what is taken out of it. Each of them becomes a row, and no row
and no edited statement has a misplaced one (`Lifted.compounds`, `Program.Hoisted.misplaced`). Read
off an outline, the misplaced expressions of a program are those that can be reached and that
nothing stores (`Program.Outlines.mem_misplaced_iff`).
-/

set_option autoImplicit false

namespace ShaderIR

/-! ### Trees -/

namespace Tree

/-- The compound expressions in a tree. -/
def compounds (tree : Tree) : List Tree :=
  tree.subtrees.filter fun below => below.node.isCompound

/-- The compound expressions in a statement that it does not store directly. -/
def misplaced (statement : Tree) : List Tree :=
  match statement.node, statement.children with
  | .assign .., [value, target] => value.children.flatMap compounds ++ target.compounds
  | _, operands => operands.flatMap compounds

theorem misplaced_of_ne {statement : Tree}
    (hassign : ∀ target value mask, statement.node ≠ .assign target value mask) :
    statement.misplaced = statement.children.flatMap compounds := by
  unfold misplaced
  split
  · next hnode _ => exact absurd hnode (hassign _ _ _)
  · rfl

theorem compounds_of_isCompound {tree : Tree} (hcompound : tree.node.isCompound = true) :
    tree.compounds = tree :: tree.children.flatMap compounds := by
  obtain ⟨id, node, children⟩ := tree
  change node.isCompound = true at hcompound
  simp only [compounds, subtrees_mk, List.filter_cons, hcompound, if_true, List.filter_flatMap]
  rfl

theorem compounds_of_not_isCompound {tree : Tree} (hcompound : tree.node.isCompound = false) :
    tree.compounds = tree.children.flatMap compounds := by
  obtain ⟨id, node, children⟩ := tree
  change node.isCompound = false at hcompound
  simp only [compounds, subtrees_mk, List.filter_cons, hcompound, List.filter_flatMap]
  rfl

@[simp] theorem compounds_variable (id : NodeId) (read : VarId) :
    compounds ⟨id, .variable read, []⟩ = [] :=
  compounds_of_not_isCompound rfl

theorem mem_compounds {tree below : Tree} :
    below ∈ tree.compounds ↔ below ∈ tree.subtrees ∧ below.node.isCompound = true :=
  List.mem_filter

theorem flatMap_compounds_sublist (trees : List Tree) :
    (trees.flatMap compounds).Sublist (trees.flatMap subtrees) :=
  List.Sublist.flatMap_right _ fun _ _ => List.filter_sublist

theorem misplaced_sublist (statement : Tree) : statement.misplaced.Sublist statement.subtrees := by
  obtain ⟨id, node, children⟩ := statement
  rw [subtrees_mk]
  refine .cons _ ?_
  unfold misplaced
  split
  · next value target _ hchildren =>
    obtain rfl : children = [value, target] := hchildren
    obtain ⟨valueId, valueNode, operands⟩ := value
    simp only [List.flatMap_cons, List.flatMap_nil, List.append_nil, subtrees_mk]
    exact ((flatMap_compounds_sublist operands).cons _).append List.filter_sublist
  · exact flatMap_compounds_sublist children

end Tree

/-! ### Operands -/

/-- The compound expressions that are taken out of an operand. -/
def Role.compounds : Role → Tree → List Tree
  | .root, tree => tree.children.flatMap Tree.compounds
  | _, tree => tree.compounds

@[simp] theorem Role.compounds_value (tree : Tree) : Role.value.compounds tree = tree.compounds :=
  rfl

@[simp] theorem Role.compounds_place (tree : Tree) : Role.place.compounds tree = tree.compounds :=
  rfl

theorem Role.flatMap_compounds_value (trees : List Tree) :
    (trees.map (Role.value, ·)).flatMap (fun item => item.1.compounds item.2) =
      trees.flatMap Tree.compounds := by
  rw [List.flatMap_map]
  rfl

theorem Row.misplaced_statement {row : Row} :
    row.statement.misplaced = Role.root.compounds row.value :=
  (congrArg (_ ++ ·) (Tree.compounds_variable ..)).trans (List.append_nil _)

/-- Every compound expression that is taken out becomes a row, and none is left. -/
theorem Lifted.compounds {memory memory' : Temporaries} {next next' : Nat}
    {forest : List (Role × Tree)} {forest' : List Tree} {rows : List Row}
    (hlifted : Lifted ThreeAddress.verdict memory next forest forest' rows memory' next')
    (hlinked : ∀ item ∈ forest, item.2.Linked) :
    rows.length = (forest.flatMap fun item => item.1.compounds item.2).length ∧
      List.Forall₂ (fun item tree' => item.1.compounds tree' = []) forest forest' ∧
      ∀ row ∈ rows, Role.root.compounds row.value = [] := by
  have hleft {children : List Tree} {trees : List Tree} (hempty : List.Forall₂ (fun item tree' =>
      item.1.compounds tree' = []) (trees.map (Role.value, ·)) children) :
      children.flatMap Tree.compounds = [] := by
    refine List.flatMap_eq_nil_iff.mpr fun child hchild => ?_
    obtain ⟨item, hitem, hnone⟩ := exists_of_forall₂ hempty.flip hchild
    obtain ⟨tree, -, rfl⟩ := List.mem_map.mp hitem
    exact hnone
  have hplace {tree : Tree} (hindexed : tree.node.isCompound = false) {children : List Tree}
      (hlinked : tree.Linked) (hlength : children.length = tree.children.length)
      (hchildren : children.flatMap Tree.compounds = []) :
        (tree.withChildren children).compounds = [] := by
    have halike := Tree.alike_withChildren hlinked children hlength
    rw [Tree.compounds_of_not_isCompound (halike.isCompound_eq.symm.trans hindexed)]
    exact hchildren
  induction hlifted with
  | nil => exact ⟨rfl, .nil, by simp⟩
  | @kept memory memory₁ memory₂ next next₁ next₂ role tree rest children rest' rows rows' hkeeps
      hchildren hrest ih ih' =>
    obtain ⟨htree, hlinked⟩ := List.forall_mem_cons.mp hlinked
    obtain ⟨hlength, hempty, hrows⟩ := ih (by simpa using fun child hchild => htree.child hchild)
    obtain ⟨hlength', hempty', hrows'⟩ := ih' hlinked
    rw [Role.flatMap_compounds_value] at hlength
    refine ⟨?_, .cons ?_ hempty', List.forall_mem_append.mpr ⟨hrows, hrows'⟩⟩
    · have hcompounds : role.compounds tree = tree.children.flatMap Tree.compounds := by
        rcases hkeeps with rfl | ⟨rfl, hverdict⟩
        · rfl
        · exact Tree.compounds_of_not_isCompound (by simpa [ThreeAddress.verdict] using hverdict)
      rw [List.length_append, hlength, hlength', List.flatMap_cons, List.length_append, hcompounds]
    · rcases hkeeps with rfl | ⟨rfl, hverdict⟩
      · exact hleft hempty
      · exact hplace (by simpa [ThreeAddress.verdict] using hverdict) htree
          (by simpa using hchildren.length_eq) (hleft hempty)
  | reused htaken =>
    unfold ThreeAddress.verdict at htaken
    split at htaken <;> cases htaken
  | @stored memory memory₁ memory₂ next next₁ next₂ tree shared row leaf rest children rest' rows
      rows' htaken hfresh hchildren htemporary hvalue hrest ih ih' =>
    obtain ⟨htree, hlinked⟩ := List.forall_mem_cons.mp hlinked
    obtain ⟨hlength, hempty, hrows⟩ := ih (by simpa using fun child hchild => htree.child hchild)
    obtain ⟨hlength', hempty', hrows'⟩ := ih' hlinked
    rw [Role.flatMap_compounds_value] at hlength
    have hcompound : tree.node.isCompound = true := by
      unfold ThreeAddress.verdict at htaken
      split at htaken
      · assumption
      · cases htaken
    refine ⟨?_, .cons (Tree.compounds_variable ..) hempty',
      List.forall_mem_append.mpr ⟨hrows, List.forall_mem_cons.mpr ⟨?_, hrows'⟩⟩⟩
    · rw [List.length_append, List.length_cons, hlength,
        hlength', List.flatMap_cons, List.length_append,
        Role.compounds_value, Tree.compounds_of_isCompound hcompound, List.length_cons]
      omega
    · rw [hvalue]
      exact hleft hempty
  | whole _ ih =>
    obtain ⟨hlength, hempty, hrows⟩ := ih (List.forall_mem_cons.mp hlinked).2
    refine ⟨?_, .cons (Tree.compounds_variable ..) hempty, hrows⟩
    rw [hlength, List.flatMap_cons, Role.compounds_place, Tree.compounds_variable, List.nil_append]
  | @field memory memory₁ memory₂ next next₁ next₂ tree record record' number rest rest' rows rows'
      hnode hchildren hrecord hrest ih ih' =>
    obtain ⟨htree, hlinked⟩ := List.forall_mem_cons.mp hlinked
    have hindexed : tree.node.isCompound = false := by rw [hnode]; rfl
    obtain ⟨hlength, hempty, hrows⟩ := ih (by simpa using htree.child (by simp [hchildren]))
    obtain ⟨hlength', hempty', hrows'⟩ := ih' hlinked
    refine ⟨?_, .cons ?_ hempty', List.forall_mem_append.mpr ⟨hrows, hrows'⟩⟩
    · rw [List.flatMap_singleton, Role.compounds_place] at hlength
      rw [List.length_append, hlength, hlength', List.flatMap_cons,
        List.length_append, Role.compounds_place,
        Tree.compounds_of_not_isCompound hindexed, hchildren, List.flatMap_singleton]
    · refine hplace hindexed htree (by simp [hchildren]) ?_
      simpa [Role.compounds] using (List.forall₂_cons.mp hempty).1
  | @index memory memory₁ memory₂ next next₁ next₂ tree base position base' position' rest rest'
      rows rows' hnode hchildren hparts hrest ih ih' =>
    obtain ⟨htree, hlinked⟩ := List.forall_mem_cons.mp hlinked
    have hindexed : tree.node.isCompound = false := by rw [hnode]; rfl
    obtain ⟨hlength, hempty, hrows⟩ := ih (by
      simpa using ⟨htree.child (by simp [hchildren]), htree.child (by simp [hchildren])⟩)
    obtain ⟨hlength', hempty', hrows'⟩ := ih' hlinked
    obtain ⟨hposition, hbase⟩ := List.forall₂_cons.mp hempty
    refine ⟨?_, .cons ?_ hempty', List.forall_mem_append.mpr ⟨hrows, hrows'⟩⟩
    · simp only [List.flatMap_cons, List.flatMap_nil, List.length_append, List.append_nil,
        Role.compounds_value, Role.compounds_place] at hlength
      rw [List.length_append, hlength, hlength', List.flatMap_cons, List.length_append,
        Role.compounds_place, Tree.compounds_of_not_isCompound hindexed, hchildren]
      simp only [List.flatMap_cons, List.flatMap_nil, List.length_append, List.append_nil]
      omega
    · refine hplace hindexed htree (by simp [hchildren]) ?_
      simpa using ⟨(List.forall₂_cons.mp hbase).1, hposition⟩

/-! ### Statements -/

variable {program program' : Program}

theorem Program.ne_root_of_mem_parts_of_ne {statement : Tree} (hsound : program.Sound statement)
    (hassign : ∀ target value mask, statement.node ≠ .assign target value mask) {item : Role × Tree}
    (hitem : item ∈ program.parts .root statement) : item.1 ≠ .root := by
  cases hsound with
  | assign => exact absurd rfl (hassign _ _ _)
  | call id callee arguments result signature hsignature hlength =>
    rw [parts_call hsignature hlength, List.mem_append] at hitem
    rcases hitem with hitem | hitem
    · obtain ⟨param, -, hrole⟩ := List.mem_map.mp (List.of_mem_zip hitem).1
      rw [← hrole]
      split <;> simp
    · obtain ⟨place, -, rfl⟩ := List.mem_map.mp hitem
      simp
  | _ =>
    simp only [parts, List.mem_map] at hitem
    obtain ⟨child, -, rfl⟩ := hitem
    simp

theorem Role.compounds_of_ne {role : Role} (hrole : role ≠ .root) (tree : Tree) :
    role.compounds tree = tree.compounds := by
  cases role with
  | root => exact absurd rfl hrole
  | _ => rfl

/-- What is taken out of the operands of a statement is what is misplaced in it. -/
theorem Program.flatMap_compounds_parts {statement : Tree} (hsound : program.Sound statement) :
    (program.parts .root statement).flatMap (fun item => item.1.compounds item.2) =
      statement.misplaced := by
  by_cases hassign : ∃ target value mask, statement.node = .assign target value mask
  · obtain ⟨target, value, mask, hnode⟩ := hassign
    cases hsound with
    | assign => simp [parts, Role.compounds, Tree.misplaced]
    | _ => cases hnode
  · simp only [not_exists] at hassign
    rw [Tree.misplaced_of_ne hassign, ← map_snd_parts hsound .root, List.flatMap_map]
    exact List.flatMap_congr fun item hitem =>
      Role.compounds_of_ne (ne_root_of_mem_parts_of_ne hsound hassign hitem) _

/-- A statement has nothing misplaced if nothing more can be taken out of its operands. -/
theorem Program.misplaced_withChildren {statement : Tree} {parts' : List Tree}
    (hsound : program.Sound statement) (hlinked : statement.Linked)
    (hempty : List.Forall₂ (fun item tree' => item.1.compounds tree' = [])
      (program.parts .root statement) parts') : (statement.withChildren parts').misplaced = [] := by
  have hlength : parts'.length = statement.children.length := by
    rw [← hempty.length_eq, ← map_snd_parts hsound .root, List.length_map]
  by_cases hassign : ∃ target value mask, statement.node = .assign target value mask
  · obtain ⟨target, value, mask, hnode⟩ := hassign
    cases hsound with
    | assign id target value mask =>
      obtain ⟨value', target', rfl⟩ := List.length_eq_two.mp hlength
      obtain ⟨hvalue, htarget⟩ := List.forall₂_cons.mp hempty
      exact List.append_eq_nil_iff.mpr ⟨hvalue, (List.forall₂_cons.mp htarget).1⟩
    | _ => cases hnode
  · have halike := Tree.alike_withChildren hlinked parts' hlength
    simp only [not_exists] at hassign
    have hassign' :
        ∀ target value mask, (statement.withChildren parts').node ≠ .assign target value mask := by
      intro target value mask hnode
      rw [hnode] at halike
      generalize statement.node = node at halike hassign
      cases halike
      exact hassign _ _ _ rfl
    rw [Tree.misplaced_of_ne hassign', Tree.withChildren_children]
    refine List.flatMap_eq_nil_iff.mpr fun tree' htree' => ?_
    obtain ⟨item, hitem, hnone⟩ := exists_of_forall₂ hempty.flip htree'
    rwa [Role.compounds_of_ne (ne_root_of_mem_parts_of_ne hsound hassign hitem)] at hnone

/-- Everything misplaced in a statement goes into a temporary, and nothing in the rows or in what is
left of the statement is misplaced. -/
theorem Lifted.misplaced {statement : Tree}
    {parts' : List Tree} {rows : List Row} {next between : Nat}
    (hlifted : Lifted ThreeAddress.verdict [] next (program.parts .root statement) parts' rows
      [] between) (hsound : program.Sound statement) (hlinked : statement.Linked) :
    between = next + statement.misplaced.length ∧ (statement.withChildren parts').misplaced = [] ∧
      ∀ row ∈ rows, row.statement.misplaced = [] := by
  obtain ⟨hlength, hempty, hrows⟩ := hlifted.compounds fun item hitem =>
    hlinked.child (Program.map_snd_parts hsound .root ▸ List.mem_map_of_mem hitem)
  refine ⟨?_, Program.misplaced_withChildren hsound hlinked hempty, fun row hrow => ?_⟩
  · rw [hlifted.next_eq, hlength, Program.flatMap_compounds_parts hsound]
  · rw [Row.misplaced_statement, hrows row hrow]

/-- Everything misplaced in a code goes into a temporary, and nothing is misplaced any more. -/
theorem Program.Hoisted.misplaced {next next' : Nat} {code code' : Code}
    (hhoisted : program.Hoisted program' next code code' next')
    (hsound : ∀ statement ∈ code.statements, program.Sound statement)
    (hlinked : ∀ statement ∈ code.statements, statement.Linked) :
    next' = next + (code.statements.flatMap Tree.misplaced).length ∧
      ∀ statement ∈ code'.statements, statement.misplaced = [] := by
  have hrowsLeft {rows : List Row} (hrows : ∀ row ∈ rows, row.statement.misplaced = []) :
      ∀ statement ∈ rows.map Row.statement, statement.misplaced = [] := by
    simpa using hrows
  induction hhoisted with
  | nil => exact ⟨rfl, by simp [Code.statements]⟩
  | step hlists hlifted hdeclares _ ih =>
    obtain ⟨hfirstSound, hrestSound⟩ := List.forall_mem_cons.mp hsound
    obtain ⟨hfirstLinked, hrestLinked⟩ := List.forall_mem_cons.mp hlinked
    obtain ⟨hbetween, hstatement, hrows⟩ := hlifted.misplaced hfirstSound hfirstLinked
    obtain ⟨hnext, hrest⟩ := ih hrestSound hrestLinked
    rw [Code.statements_prepend, Code.statements, Code.statements, List.flatMap_cons,
      List.length_append]
    exact ⟨by omega,
      List.forall_mem_append.mpr ⟨hrowsLeft hrows, List.forall_mem_cons.mpr ⟨hstatement, hrest⟩⟩⟩
  | @branch next next₁ next₂ next₃ next' id condition condition' thenBody thenBody' elseBody
      elseBody' rest rest' rows hlifted hdeclares hthen helse hrest ihthen ihelse ih =>
    simp only [Code.statements, List.forall_mem_cons, List.forall_mem_append] at hsound hlinked
    obtain ⟨hfirstSound, ⟨hthenSound, helseSound⟩, hrestSound⟩ := hsound
    obtain ⟨hfirstLinked, ⟨hthenLinked, helseLinked⟩, hrestLinked⟩ := hlinked
    have hstatement :
        Lifted ThreeAddress.verdict [] next (program.parts .root ⟨id, .branch condition.id
        thenBody.heads elseBody.heads, [condition]⟩) [condition'] rows [] next₁ := hlifted
    obtain ⟨hnext₁, hleft, hrows⟩ := hstatement.misplaced hfirstSound hfirstLinked
    obtain ⟨hnext₂, hthenLeft⟩ := ihthen hthenSound hthenLinked
    obtain ⟨hnext₃, helseLeft⟩ := ihelse helseSound helseLinked
    obtain ⟨hnext', hrestLeft⟩ := ih hrestSound hrestLinked
    rw [Code.statements_prepend]
    simp only [Code.statements, List.flatMap_cons, List.flatMap_append, List.length_append,
      List.forall_mem_append, List.forall_mem_cons]
    exact ⟨by omega, hrowsLeft hrows, hleft, ⟨hthenLeft, helseLeft⟩, hrestLeft⟩
  | @loop next between next' id body body' rest rest' _ _ ihbody ih =>
    simp only [Code.statements, List.forall_mem_cons, List.forall_mem_append] at hsound hlinked
    have hnone : Tree.misplaced ⟨id, .loop body.heads, []⟩ = [] := rfl
    obtain ⟨hnext, hbodyLeft⟩ := ihbody hsound.2.1 hlinked.2.1
    obtain ⟨hnext', hrestLeft⟩ := ih hsound.2.2 hlinked.2.2
    simp only [Code.statements, List.flatMap_cons, List.flatMap_append, List.length_append,
      List.forall_mem_append, List.forall_mem_cons, hnone, List.length_nil]
    exact ⟨by omega, rfl, hbodyLeft, hrestLeft⟩

/-! ### Programs -/

namespace Program

/-- An expression of several operands can be reached there. -/
def Compound (program : Program) (id : NodeId) : Prop :=
  program.Reachable id ∧ ∃ node, program.node id = .ok node ∧ node.isCompound = true

/-- An assignment stores the value of the expression directly. -/
def Stored (program : Program) (id : NodeId) : Prop :=
  ∃ statement target mask, program.Reachable statement ∧
    program.node statement = .ok (.assign target id mask)

/-- Every expression of several operands is stored directly, and there is no other one below it. -/
structure InThreeAddressForm (program : Program) : Prop where
  stored : ∀ id, program.Compound id → program.Stored id
  flat : ∀ id below, program.Compound id → program.Compound below → program.Below id below →
    below = id

namespace Outlines

variable {code : Code} (houtlines : program.Outlines code) {id : NodeId}

include houtlines

theorem compound_iff : program.Compound id ↔
    ∃ tree, code.Contains tree ∧ tree.id = id ∧ tree.node.isCompound = true := by
  constructor
  · rintro ⟨hreachable, node, hnode, hcompound⟩
    obtain ⟨tree, hcontains, rfl⟩ := houtlines.exists_of_reachable hreachable
    obtain rfl := Except.ok.inj (hnode.symm.trans (houtlines.draws_of_contains hcontains).node_eq)
    exact ⟨tree, hcontains, rfl, hcompound⟩
  · rintro ⟨tree, hcontains, rfl, hcompound⟩
    exact ⟨houtlines.reachable_of_contains hcontains, _,
      (houtlines.draws_of_contains hcontains).node_eq, hcompound⟩

theorem stored_iff : program.Stored id ↔ ∃ owner value target mask,
    ⟨owner, .assign target.id value.id mask, [value, target]⟩ ∈ code.statements ∧
    value.id = id := by
  constructor
  · rintro ⟨owner, target, mask, hreachable, hnode⟩
    obtain ⟨statement, hcontains, rfl⟩ := houtlines.exists_of_reachable hreachable
    obtain hnode := Except.ok.inj ((houtlines.draws_of_contains hcontains).node_eq.symm.trans hnode)
    have hmem := houtlines.mem_statements_of_isStatement hcontains (by rw [hnode]; rfl)
    cases houtlines.sound statement hmem with
    | assign owner target value mask =>
      obtain ⟨-, rfl, -⟩ := Node.assign.inj hnode
      exact ⟨owner, value, target, mask, hmem, rfl⟩
    | _ => cases hnode
  · rintro ⟨owner, value, target, mask, hmem, rfl⟩
    exact ⟨owner, target.id, mask, houtlines.reachable_of_contains (.of_statement hmem),
      (houtlines.draws.statement _ hmem).node_eq⟩

/-- A compound expression is misplaced or stored. -/
theorem mem_misplaced_or_stored {statement tree : Tree} (hstatement : statement ∈ code.statements)
    (htree : tree ∈ statement.subtrees) (hcompound : tree.node.isCompound = true) :
    tree ∈ statement.misplaced ∨ program.Stored tree.id := by
  have hoperand : ∃ child ∈ statement.children, tree ∈ child.subtrees := by
    rcases Tree.eq_or_mem_of_mem_subtrees htree with rfl | hoperand
    · cases houtlines.sound tree hstatement <;> cases hcompound
    · exact hoperand
  obtain ⟨child, hchild, hinside⟩ := hoperand
  have hbelow : tree ∈ child.compounds := Tree.mem_compounds.mpr ⟨hinside, hcompound⟩
  cases houtlines.sound statement hstatement with
  | assign owner target value mask =>
    simp only [List.mem_cons, List.not_mem_nil, or_false] at hchild
    rcases hchild with rfl | rfl
    · rcases Tree.eq_or_mem_of_mem_subtrees hinside with heq | ⟨operand, hoperand, hinside⟩
      · exact Or.inr (houtlines.stored_iff.mpr
          ⟨owner, child, target, mask, hstatement, congrArg Tree.id heq.symm⟩)
      · exact Or.inl (List.mem_append_left _
          (List.mem_flatMap.mpr ⟨operand, hoperand, Tree.mem_compounds.mpr ⟨hinside, hcompound⟩⟩))
    · exact Or.inl (List.mem_append_right _ hbelow)
  | _ => exact Or.inl (List.mem_flatMap.mpr ⟨child, hchild, hbelow⟩)

/-- What is misplaced is not stored. -/
theorem not_stored_of_mem_misplaced {statement tree : Tree}
    (hstatement : statement ∈ code.statements)
    (htree : tree ∈ statement.misplaced) : ¬ program.Stored tree.id := by
  intro hstored
  obtain ⟨owner, value, target, mask, howner, hid⟩ := houtlines.stored_iff.mp hstored
  have hnodup := houtlines.nodup_of_contains (.of_statement howner)
  have hsame : statement = ⟨owner, .assign target.id value.id mask, [value, target]⟩ := by
    refine eq_of_mem_flatMap houtlines.nodup hstatement howner
      (List.mem_map_of_mem (statement.misplaced_sublist.subset htree)) ?_
    rw [← hid, Tree.ids_mk]
    simp [value.id_mem_ids]
  subst hsame
  obtain ⟨valueId, node, operands⟩ := value
  simp only [Tree.ids_mk, List.flatMap_cons, List.flatMap_nil, List.append_nil, List.cons_append,
    List.nodup_cons, List.mem_append, not_or] at hnodup
  obtain ⟨-, ⟨hoperands, htarget⟩, -⟩ := hnodup
  rcases List.mem_append.mp htree with htree | htree
  · obtain ⟨operand, hoperand, htree⟩ := List.mem_flatMap.mp htree
    exact hoperands (List.mem_flatMap.mpr
      ⟨operand, hoperand, List.mem_map.mpr ⟨tree, (Tree.mem_compounds.mp htree).1, hid.symm⟩⟩)
  · exact htarget (List.mem_map.mpr ⟨tree, (Tree.mem_compounds.mp htree).1, hid.symm⟩)

/-- The misplaced expressions are the compound ones that are not stored. -/
theorem mem_misplaced_iff : id ∈ (code.statements.flatMap Tree.misplaced).map Tree.id ↔
    program.Compound id ∧ ¬ program.Stored id := by
  constructor
  · intro hid
    obtain ⟨tree, htree, rfl⟩ := List.mem_map.mp hid
    obtain ⟨statement, hstatement, htree⟩ := List.mem_flatMap.mp htree
    have hcompound : tree.node.isCompound = true := by
      unfold Tree.misplaced at htree
      split at htree
      · simp only [List.mem_append, List.mem_flatMap, Tree.mem_compounds] at htree
        rcases htree with ⟨_, _, _, hcompound⟩ | ⟨_, hcompound⟩ <;> exact hcompound
      · simp only [List.mem_flatMap, Tree.mem_compounds] at htree
        exact htree.choose_spec.2.2
    exact ⟨houtlines.compound_iff.mpr
      ⟨tree, ⟨statement, hstatement, statement.misplaced_sublist.subset htree⟩, rfl, hcompound⟩,
      houtlines.not_stored_of_mem_misplaced hstatement htree⟩
  · rintro ⟨hcompound, hnot⟩
    obtain ⟨tree, ⟨statement, hstatement, htree⟩, rfl, hnode⟩ := houtlines.compound_iff.mp hcompound
    refine List.mem_map_of_mem (List.mem_flatMap.mpr ⟨statement, hstatement, ?_⟩)
    exact (houtlines.mem_misplaced_or_stored hstatement htree hnode).resolve_right hnot

theorem nodup_misplaced : ((code.statements.flatMap Tree.misplaced).map Tree.id).Nodup := by
  have hsublist := (List.Sublist.flatMap_right code.statements fun statement _ =>
    statement.misplaced_sublist).map Tree.id
  rw [List.map_flatMap (l := code.statements) (f := Tree.id) (g := Tree.subtrees)] at hsublist
  exact houtlines.nodup.sublist hsublist

/-- A program without misplaced expressions is in three-address form. -/
theorem inThreeAddressForm (hnone : ∀ statement ∈ code.statements, statement.misplaced = []) :
    program.InThreeAddressForm := by
  have hstored (id : NodeId) (hcompound : program.Compound id) : program.Stored id := by
    by_contra hnot
    obtain ⟨tree, htree, -⟩ := List.mem_map.mp (houtlines.mem_misplaced_iff.mpr ⟨hcompound, hnot⟩)
    obtain ⟨statement, hstatement, htree⟩ := List.mem_flatMap.mp htree
    rw [hnone statement hstatement] at htree
    cases htree
  refine ⟨hstored, fun id below hcompound hcompound' hbelow => ?_⟩
  obtain ⟨owner, value, target, mask, howner, rfl⟩ := houtlines.stored_iff.mp (hstored id hcompound)
  have hdraws : program.Draws value :=
    (houtlines.draws.statement _ howner).child List.mem_cons_self
  obtain ⟨tree, htree, rfl⟩ := hdraws.exists_subtree_of_below hbelow
  rcases Tree.eq_or_mem_of_mem_subtrees htree with rfl | ⟨operand, hoperand, htree'⟩
  · rfl
  · obtain ⟨-, node, hnode, hnodeCompound⟩ := hcompound'
    obtain rfl := Except.ok.inj ((hdraws.subtree tree htree).node_eq.symm.trans hnode)
    have hmisplaced :
        tree ∈ Tree.misplaced ⟨owner, .assign target.id value.id mask, [value, target]⟩ :=
      List.mem_append_left _ (List.mem_flatMap.mpr
        ⟨operand, hoperand, Tree.mem_compounds.mpr ⟨htree', hnodeCompound⟩⟩)
    rw [hnone _ howner] at hmisplaced
    cases hmisplaced

end Outlines

end Program

end ShaderIR
