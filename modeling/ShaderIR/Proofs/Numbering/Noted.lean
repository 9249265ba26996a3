import ShaderIR.Proofs.Numbering.Labels

/-!
What is noted of a block. Each node of a statement is noted at most once
(`NumbersStatement.notesOnce`), and only where it may be taken out: `Role.fixed` are the nodes that
a written place keeps. `NumbersStatements.nodup_occurrences`,
`NumbersStatements.exists_of_occurrence` and `NumbersStatements.not_noted_of_fixed` say so of a
whole block.
-/

set_option autoImplicit false

namespace ShaderIR

/-! ### Nothing is noted twice -/

/-- Each of these nodes has been noted at most once since, and no other node has. -/
def Numberer.NotesOnce (state stop : Numberer) (nodes : List Tree) : Prop :=
  ∀ id, (stop.numbering.occurrences.map Prod.fst).count id ≤
    (state.numbering.occurrences.map Prod.fst).count id + (nodes.map Tree.id).count id

section Once

variable {program : Program} {eligible : NodeKinds} {state between stop : Numberer}
  {trees nodes more : List Tree} {values : List Value}

namespace Numberer.NotesOnce

theorem of_eq (hsame : stop.numbering.occurrences = state.numbering.occurrences) :
    state.NotesOnce stop [] := fun id => by
  rw [hsame]
  exact Nat.le_add_right _ _

theorem append (hfirst : state.NotesOnce between nodes) (hsecond : between.NotesOnce stop more) :
    state.NotesOnce stop (nodes ++ more) := fun id => by
  have hbefore := hfirst id
  have hafter := hsecond id
  rw [List.map_append, List.count_append]
  omega

theorem mono (hnotes : state.NotesOnce stop nodes) (hsubperm : nodes.Subperm more) :
    state.NotesOnce stop more :=
  fun id => by
    obtain ⟨_, hperm, hsublist⟩ := hsubperm
    refine (hnotes id).trans (Nat.add_le_add_left ?_ _)
    rw [← (hperm.map Tree.id).count_eq]
    exact (hsublist.map Tree.id).count_le id

theorem noted (state : Numberer) (eligible : NodeKinds) (tree : Tree) (number : ValueNumber) :
    state.NotesOnce (state.noted eligible tree number) [tree] := fun id => by
  rw [Numberer.noted, Numberer.occurrences_setValue]
  split
  · simp [Numberer.addOccurrence]
  · exact Nat.le_add_right _ _

end Numberer.NotesOnce

theorem Numbers.notesOnce (hnumbers : Numbers eligible state trees values stop) :
    state.NotesOnce stop (trees.flatMap Tree.subtrees) := by
  induction hnumbers with
  | nil => exact .of_eq rfl
  | @read state stop id read children rest values _ ih =>
    have hread : state.NotesOnce ((state.read read).2.setValue id (state.read read).1) [] :=
      .of_eq (by simp)
    exact (hread.append ih).mono (List.sublist_append_right _ _).subperm
  | @compute state between stop tree rest values key _ _ _ _ ih ih' =>
    obtain ⟨id, node, children⟩ := tree
    have hcounted : between.NotesOnce (between.numberOf key).2 [] := .of_eq (by simp)
    have hnoted :=
      (ih.append hcounted).append (.noted _ eligible ⟨id, node, children⟩ (between.numberOf key).1)
    rw [List.flatMap_cons, Tree.subtrees_mk]
    exact (hnoted.mono (by simpa using (List.perm_append_singleton _ _).subperm)).append ih'

theorem Overwrites.notesOnce (hwrites : Overwrites program eligible state trees stop) :
    state.NotesOnce stop (trees.flatMap Role.place.loose) := by
  induction hwrites with
  | nil => exact .of_eq rfl
  | @cons state between stop target rest values root part hindices _ _ _ ih =>
    have hfresh : state.NotesOnce state.fresh.2 [] := .of_eq rfl
    have hwritten : between.NotesOnce (between.write part root [state.fresh.1]) [] :=
      .of_eq (by simp)
    exact (hfresh.append hindices.notesOnce).append (hwritten.append ih)

/-- Numbering a statement notes each of its noteworthy nodes at most once. -/
theorem NumbersStatement.notesOnce {statement : Tree} (hsound : program.Sound statement)
    (hnumbers : NumbersStatement program eligible state statement stop) :
    state.NotesOnce stop (program.noteworthy statement) := by
  cases hnumbers with
  | @assign valued between id target value mask stored indices root part hvalue hindices =>
    have hwritten : between.NotesOnce (between.write part root stored) [] := .of_eq (by simp)
    refine ((hvalue.notesOnce.append hindices.notesOnce).append hwritten).mono
      (List.Perm.subperm (.of_eq ?_))
    simp [Program.noteworthy, Program.parts, Role.loose]
  | @stored called between id callee signature arguments target values indices root part hsignature
      hpure harguments hindices =>
    have hcall :
        program.Sound ⟨id, .call callee (arguments.map Tree.id) ((some target).map Tree.id),
      arguments ++ (some target).toList⟩ := hsound
    have hparts :=
      Program.parts_of_isPure id (some target) hsignature hpure (hcall.of_call hsignature).1
    have hcounted : called.NotesOnce (called.numberOf (.call callee values)).2 [] :=
      .of_eq (by simp)
    have hwritten : between.NotesOnce
        (between.write part root [(called.numberOf (.call callee values)).1]) [] :=
      .of_eq (by simp)
    refine (((harguments.notesOnce.append hcounted).append (.noted _ eligible _ _)).append
      (hindices.notesOnce.append hwritten)).mono (List.Perm.subperm ?_)
    change program.parts .value ⟨id, .call callee (arguments.map Tree.id) (some target.id),
      arguments ++ [target]⟩ = _ at hparts
    rw [Program.noteworthy, hparts, List.append_nil, List.append_nil, List.append_assoc,
      List.flatMap_append, List.append_assoc, List.flatMap_map]
    refine List.Perm.append_left _ (List.perm_append_comm.trans (.of_eq ?_))
    simp [Role.loose]
  | @dropped called id callee signature arguments values hsignature hpure harguments =>
    have hcall :
        program.Sound ⟨id, .call callee (arguments.map Tree.id) ((none : Option Tree).map Tree.id),
      arguments ++ (none : Option Tree).toList⟩ := by simpa using hsound
    have hparts := Program.parts_of_isPure id none hsignature hpure (hcall.of_call hsignature).1
    simp only [Option.map_none, Option.toList_none, List.append_nil, List.map_nil] at hparts
    have hcounted : called.NotesOnce ((called.numberOf (.call callee values)).2.setValue id
      [(called.numberOf (.call callee values)).1]) [] := .of_eq (by simp)
    refine (harguments.notesOnce.append hcounted).mono (List.Perm.subperm (.of_eq ?_))
    simp [Program.noteworthy, hparts, List.flatMap_map, Role.loose]
  | @effectful called overwritten _ id callee signature arguments result values hsignature hpure
      hinputs hwritten hresult =>
    have hperm := Program.perm_parts_call id result hsignature (hsound.of_call hsignature).1
    have hstored :
        overwritten.NotesOnce (overwritten.fresh.2.setValue id [overwritten.fresh.1]) [] :=
      .of_eq rfl
    refine ((hinputs.notesOnce.append hwritten.notesOnce).append
      (hstored.append hresult.notesOnce)).mono
      (.trans (List.Perm.subperm (.trans (.of_eq ?_) (hperm.flatMap_right _).symm))
        (List.sublist_append_left _ _).subperm)
    simp only [List.flatMap_append, List.flatMap_map, List.nil_append, List.append_assoc]
    rfl
  | @operands _ _ values hwrites hoperands =>
    have hparts : program.parts .value statement = statement.children.map (Role.value, ·) := by
      cases hsound with
      | assign => exact absurd rfl hwrites.1
      | call => exact absurd rfl hwrites.2
      | _ => simp [Program.parts]
    refine hoperands.notesOnce.mono ?_
    rw [Program.noteworthy, hparts, List.flatMap_map]
    exact (List.sublist_append_left _ _).subperm

theorem NumbersStatements.notesOnce {statements : List Tree}
    (hsound : ∀ statement ∈ statements, program.Sound statement)
    (hnumbers : NumbersStatements program eligible state statements stop) :
    state.NotesOnce stop (statements.flatMap program.noteworthy) := by
  induction hnumbers with
  | nil => exact .of_eq rfl
  | cons hfirst _ ih =>
    rw [List.forall_mem_cons] at hsound
    exact (hfirst.notesOnce hsound.1).append (ih hsound.2)

end Once

/-! ### Places -/

/-- The nodes of a place that are not in its indices. -/
def Tree.spine : Tree → List Tree
  | ⟨id, .index base place, [baseTree, position]⟩ =>
    ⟨id, .index base place, [baseTree, position]⟩ :: baseTree.spine
  | ⟨id, .field record number, [recordTree]⟩ =>
    ⟨id, .field record number, [recordTree]⟩ :: recordTree.spine
  | tree => [tree]

theorem Tree.mem_spine_self (tree : Tree) : tree ∈ tree.spine := by
  unfold spine
  split <;> simp

/-- The nodes of an operand of a statement that are never taken out. -/
def Role.fixed : Role → Tree → List Tree
  | .place, tree => tree.spine
  | _, _ => []

theorem Tree.count_spine_le (tree : Tree) (id : NodeId) :
    ((Role.place.loose tree).map Tree.id).count id + (tree.spine.map Tree.id).count id ≤
      tree.ids.count id := by
  induction tree using Tree.indices.induct with
  | case1 id' base place baseTree position ih =>
    rw [Role.loose_index rfl rfl, Tree.spine, Tree.ids_mk]
    simp only [List.map_append, List.count_append, List.map_cons, List.count_cons,
      List.flatMap_cons, List.flatMap_nil, List.append_nil]
    change (position.ids).count id + _ + _ ≤ _
    omega
  | case2 id' recordId number record ih =>
    rw [Role.loose_field rfl rfl, Tree.spine, Tree.ids_mk]
    simp only [List.map_cons, List.count_cons, List.flatMap_cons, List.flatMap_nil, List.append_nil]
    omega
  | case3 tree hindex hfield =>
    rw [Role.loose, Tree.indices, Tree.spine]
    · obtain ⟨id', node, children⟩ := tree
      simp [Tree.ids_mk, List.count_cons]
    all_goals assumption

theorem Role.count_fixed_le (role : Role) (tree : Tree) (id : NodeId) :
    ((role.loose tree).map Tree.id).count id + ((role.fixed tree).map Tree.id).count id ≤
      tree.ids.count id := by
  cases role with
  | place => exact tree.count_spine_le id
  | _ => exact le_rfl

section Block

variable {program : Program} {eligible : NodeKinds} {state stop final : Numberer} {statement : Tree}
  {statements : List Tree}

/-- The nodes of a statement that are in the places that it writes to, but not in their indices. -/
def Program.fixed (program : Program) (statement : Tree) : List Tree :=
  (program.parts .value statement).flatMap fun item => item.1.fixed item.2

/-- What may be noted of a statement and what it keeps are different nodes of it. -/
theorem Program.count_noteworthy_le (hsound : program.Sound statement) (id : NodeId) :
    ((program.noteworthy statement).map Tree.id).count id +
      ((program.fixed statement).map Tree.id).count id ≤ statement.ids.count id := by
  have hparts (items : List (Role × Tree)) :
      ((items.flatMap fun item => item.1.loose item.2).map Tree.id).count id +
      ((items.flatMap fun item => item.1.fixed item.2).map Tree.id).count id ≤
        ((items.map Prod.snd).flatMap Tree.ids).count id := by
    induction items with
    | nil => simp
    | cons item items ih =>
      have hitem := item.1.count_fixed_le item.2 id
      simp only [List.flatMap_cons, List.map_append, List.count_append, List.map_cons]
      omega
  have hchildren := hparts (program.parts .value statement)
  rw [map_snd_parts hsound] at hchildren
  obtain ⟨root, node, children⟩ := statement
  dsimp only at hchildren
  rw [noteworthy, fixed, List.map_append, List.count_append, Tree.ids_mk, List.count_cons]
  split
  · simp only [List.map_cons, List.map_nil, List.count_singleton]
    omega
  · simp only [List.map_nil, List.count_nil]
    omega

theorem Program.count_noteworthies_le (hsound : ∀ statement ∈ statements, program.Sound statement)
    (id : NodeId) :
    ((statements.flatMap program.noteworthy).map Tree.id).count id +
      ((statements.flatMap program.fixed).map Tree.id).count id ≤
        (statements.flatMap Tree.ids).count id := by
  induction statements with
  | nil => simp
  | cons statement statements ih =>
    obtain ⟨hfirst, hrest⟩ := List.forall_mem_cons.mp hsound
    have hstatement := count_noteworthy_le hfirst id
    have hlater := ih hrest
    simp only [List.flatMap_cons, List.map_append, List.count_append]
    omega

theorem Program.noteworthy_subset (hsound : program.Sound statement) :
    program.noteworthy statement ⊆ statement.subtrees := by
  intro node hnode
  rcases List.mem_append.mp hnode with hloose | hself
  · obtain ⟨item, hitem, hnode⟩ := List.mem_flatMap.mp hloose
    have hchild : item.2 ∈ statement.children :=
      map_snd_parts hsound .value ▸ List.mem_map_of_mem hitem
    exact Tree.mem_subtrees_of_mem_children hchild (Role.loose_subset_subtrees hnode)
  · split at hself
    · obtain rfl := List.mem_singleton.mp hself
      exact node.mem_subtrees_self
    · cases hself

/-- All that is noted is a noteworthy node of one of the statements, with the number of its key. -/
theorem NumbersStatements.notesIn
    (hnumbers : NumbersStatements program eligible state statements stop)
    (hsound : ∀ statement ∈ statements, program.Sound statement)
    (hlinked : ∀ statement ∈ statements, statement.Linked)
    (hkeyed : state.Keyed) (hfinal : stop.Advances final) :
    state.NotesIn stop final eligible (statements.flatMap program.noteworthy) fun _ => True := by
  have hknows (state : Numberer) : state.Knows fun _ => True := fun _ _ _ _ _ => trivial
  induction hnumbers with
  | nil => exact .of_eq rfl
  | @cons state between stop statement rest hfirst hrest ih =>
    rw [List.forall_mem_cons] at hsound hlinked
    have hsettles : program.SettlesParts eligible final (fun _ => True) (fun _ => True) statement :=
      fun _ _ _ _ _ _ _ _ _ => trivial
    have hcall : program.SettlesCall eligible final (fun _ => True) (fun _ => True) statement :=
      fun _ _ _ _ _ _ _ _ _ _ _ _ _ => ⟨trivial, fun _ _ _ _ => trivial⟩
    obtain ⟨-, hnotes⟩ := (hfirst.labelled hsound.1 hlinked.1 hkeyed (hrest.advances.trans hfinal)
      (fun _ _ => trivial) (hknows _)).notes hsettles hcall (fun _ _ _ _ _ _ _ _ => trivial)
      fun _ => id
    rw [List.flatMap_cons]
    exact (hnotes.mono (List.subset_append_left _ _)).trans ((ih hsound.2 hlinked.2
          (hfirst.advances.keyed hkeyed) hfinal).mono (List.subset_append_right _ _))

namespace NumbersStatements

variable (hnumbers : NumbersStatements program eligible {} statements final)
  (hsound : ∀ statement ∈ statements, program.Sound statement)
  (hnodup : (statements.flatMap Tree.ids).Nodup)

include hnumbers

theorem keyed : final.Keyed :=
  hnumbers.advances.keyed Numberer.keyed_nil

include hsound

theorem exists_of_occurrence (hlinked : ∀ statement ∈ statements, statement.Linked) {id : NodeId}
    {number : ValueNumber} (hoccurrence : (id, number) ∈ final.numbering.occurrences) :
    ∃ statement ∈ statements, ∃ node ∈ program.noteworthy statement, node.id = id ∧
      final.Notes eligible node.node number := by
  rcases hnumbers.notesIn hsound hlinked Numberer.keyed_nil (.refl final) _ hoccurrence
    with hold | ⟨-, node, hnode, hnoted⟩
  · cases hold
  · obtain ⟨statement, hstatement, hnode⟩ := List.mem_flatMap.mp hnode
    exact ⟨statement, hstatement, node, hnode, hnoted⟩

theorem count_le (id : NodeId) : (final.numbering.occurrences.map Prod.fst).count id +
      ((statements.flatMap program.fixed).map Tree.id).count id ≤
      (statements.flatMap Tree.ids).count id := by
  have hnoted := hnumbers.notesOnce hsound id
  have hnodes := Program.count_noteworthies_le hsound id
  have hstart : ((({} : Numberer).numbering.occurrences).map Prod.fst).count id = 0 := rfl
  omega

include hnodup

/-- No node is noted twice. -/
theorem nodup_occurrences : (final.numbering.occurrences.map Prod.fst).Nodup :=
  List.nodup_iff_count_le_one.mpr fun id =>
    (Nat.le_of_add_right_le (hnumbers.count_le hsound id)).trans
    (List.nodup_iff_count_le_one.mp hnodup id)

theorem eq_of_occurrences {id : NodeId} {number number' : ValueNumber}
    (hoccurrence : (id, number) ∈ final.numbering.occurrences)
    (hoccurrence' : (id, number') ∈ final.numbering.occurrences) : number = number' := by
  have hsame :=
    List.inj_on_of_nodup_map (hnumbers.nodup_occurrences hsound hnodup) hoccurrence hoccurrence' rfl
  exact (Prod.mk.inj hsame).2

/-- What a written place keeps is not noted. -/
theorem not_noted_of_fixed (hstatement : statement ∈ statements)
    {node : Tree} (hnode : node ∈ program.fixed statement)
    {number : ValueNumber} : (node.id, number) ∉ final.numbering.occurrences := by
  intro hoccurrence
  have hnoted : 0 < (final.numbering.occurrences.map Prod.fst).count node.id :=
    List.count_pos_iff.mpr (List.mem_map_of_mem (f := Prod.fst) hoccurrence)
  have hfixed := List.count_pos_iff.mpr (List.mem_map_of_mem (f := Tree.id)
    (List.mem_flatMap.mpr ⟨statement, hstatement, hnode⟩))
  have hcount := hnumbers.count_le hsound node.id
  have hone := List.nodup_iff_count_le_one.mp hnodup node.id
  omega

end NumbersStatements

end Block

end ShaderIR
