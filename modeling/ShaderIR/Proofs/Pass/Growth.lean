import ShaderIR.Proofs.Pass.Lifting

/-!
How an edit changes the arena. `Program.Grows` says that a program has got rows and trees that are
made of new nodes and of the nodes of what has been edited, that every other node is as before, and
that the temporaries of the rows have been declared. Edits one after the other add up
(`Program.Grows.append`).
-/

set_option autoImplicit false

namespace ShaderIR

/-- The trees are made of new nodes and of these old ones, no node occurs twice in them, and nothing
else has changed but that the temporaries of the rows have been declared. -/
structure Program.Grows (program program' : Program) (old : List NodeId) (rows : List Row)
    (trees : List Tree) : Prop where
  size_le : program.nodes.size ≤ program'.nodes.size
  frame : ∀ id : NodeId, id.index < program.nodes.size → id ∉ old →
    program'.node id = program.node id
  vars : program'.vars = program.vars ++ (rows.map Row.declared).toArray
  types : ∀ row ∈ rows, row.value.ty? program' = some row.ty
  signatures : program'.signatures = program.signatures
  body : program'.body = program.body
  draws : ∀ tree ∈ rows.map Row.statement ++ trees, program'.Draws tree
  nodup : ((rows.map Row.statement ++ trees).flatMap Tree.ids).Nodup
  fresh : ∀ id ∈ (rows.map Row.statement ++ trees).flatMap Tree.ids,
    id ∈ old ∨ program.nodes.size ≤ id.index

/-- The row that puts a value into a new temporary of a program. -/
def Program.newRow (program : Program) (ty : Ty) (value : Tree) : Row where
  id := ⟨program.nodes.size + 1⟩
  place := ⟨program.nodes.size⟩
  temporary := ⟨program.vars.size⟩
  name := "t" ++ toString program.temporaries.next
  ty := ty
  value := value

namespace Program.Grows

variable {program program' program'' : Program} {old old' : List NodeId} {rows rows' : List Row}
  {trees trees' : List Tree}

theorem getElem?_vars (hgrows : program.Grows program' old rows trees) {index : Nat}
    {declared : Variable} (hdeclared : program.vars[index]? = some declared) :
    program'.vars[index]? = some declared := by
  rw [hgrows.vars, Array.getElem?_append_left (Array.getElem?_eq_some_iff.mp hdeclared).choose,
    hdeclared]

theorem lt_size (hgrows : program.Grows program' old rows trees) {id : NodeId}
    (hid : id ∈ (rows.map Row.statement ++ trees).flatMap Tree.ids) :
    id.index < program'.nodes.size := by
  obtain ⟨tree, htree, hid⟩ := List.mem_flatMap.mp hid
  exact (hgrows.draws tree htree).lt_size hid

/-- A node that is neither new nor edited does not occur in what has been made. -/
theorem not_mem_of_lt (hgrows : program.Grows program' old rows trees) {id : NodeId}
    (hlt : id.index < program.nodes.size) (hid : id ∉ old) :
    id ∉ (rows.map Row.statement ++ trees).flatMap Tree.ids := fun hmem =>
  (hgrows.fresh id hmem).elim hid fun hnew => by omega

/-- Trees that are left alone. -/
theorem of_draws (hdraws : ∀ tree ∈ trees, program.Draws tree)
    (hnodup : (trees.flatMap Tree.ids).Nodup) :
    program.Grows program (trees.flatMap Tree.ids) [] trees where
  size_le := le_rfl
  frame _ _ _ := rfl
  vars := by simp
  types := by simp
  signatures := rfl
  body := rfl
  draws := by simpa using hdraws
  nodup := by simpa using hnodup
  fresh id hid := Or.inl (by simpa using hid)

theorem mono (hgrows : program.Grows program' old rows trees) (hold : old ⊆ old') :
    program.Grows program' old' rows trees where
  size_le := hgrows.size_le
  frame id hlt hid := hgrows.frame id hlt fun hmem => hid (hold hmem)
  vars := hgrows.vars
  types := hgrows.types
  signatures := hgrows.signatures
  body := hgrows.body
  draws := hgrows.draws
  nodup := hgrows.nodup
  fresh id hid := (hgrows.fresh id hid).imp_left fun hmem => hold hmem

theorem perm (hgrows : program.Grows program' old rows trees) (hperm : trees'.Perm trees) :
    program.Grows program' old rows trees' where
  size_le := hgrows.size_le
  frame := hgrows.frame
  vars := hgrows.vars
  types := hgrows.types
  signatures := hgrows.signatures
  body := hgrows.body
  draws tree htree := hgrows.draws tree ((hperm.append_left _).mem_iff.mp htree)
  nodup := ((hperm.append_left _).flatMap_right _).nodup_iff.mpr hgrows.nodup
  fresh id hid := hgrows.fresh id (((hperm.append_left _).flatMap_right _).mem_iff.mp hid)

/-- A tree that is not edited stays. -/
theorem draws_of_disjoint (hgrows : program.Grows program' old rows trees) {tree : Tree}
    (hdraws : program.Draws tree) (hdisjoint : tree.ids.Disjoint old) : program'.Draws tree :=
  hdraws.congr fun id hid => hgrows.frame id (hdraws.lt_size hid) (hdisjoint hid)

/-- Two edits one after the other. -/
theorem append (hfirst : program.Grows program' old rows trees)
    (hsecond : program'.Grows program'' old' rows' trees') (hdisjoint : old.Disjoint old')
    (hlt : ∀ id ∈ old', id.index < program.nodes.size) :
    program.Grows program'' (old ++ old') (rows ++ rows') (trees ++ trees') := by
  have hperm : ((rows ++ rows').map Row.statement ++ (trees ++ trees')).Perm
      ((rows.map Row.statement ++ trees) ++ (rows'.map Row.statement ++ trees')) := by
    rw [List.map_append, List.append_assoc, List.append_assoc]
    refine List.Perm.append_left _ ?_
    rw [← List.append_assoc, ← List.append_assoc]
    exact List.perm_append_comm.append_right _
  -- Nodes of the first edit are not touched by the second one.
  have hapart : ∀ id ∈ (rows.map Row.statement ++ trees).flatMap Tree.ids, id ∉ old' := by
    intro id hid hid'
    rcases hfirst.fresh id hid with hmem | hnew
    · exact hdisjoint hmem hid'
    · exact absurd (hlt id hid') (by omega)
  refine ⟨hfirst.size_le.trans hsecond.size_le, fun id hid hmem => ?_, ?_, ?_,
    hsecond.signatures.trans hfirst.signatures, hsecond.body.trans hfirst.body, ?_, ?_, ?_⟩
  · rw [List.mem_append, not_or] at hmem
    rw [hsecond.frame id (hid.trans_le hfirst.size_le) hmem.2, hfirst.frame id hid hmem.1]
  · rw [hsecond.vars, hfirst.vars, List.map_append, Array.append_assoc,
      List.append_toArray (rows.map Row.declared)]
  · intro row hrow
    rcases List.mem_append.mp hrow with hrow | hrow
    · exact Tree.ty?_mono (fun _ _ => hsecond.getElem?_vars) hsecond.signatures
        (hfirst.types row hrow)
    · exact hsecond.types row hrow
  · intro tree htree
    rcases List.mem_append.mp (hperm.mem_iff.mp htree) with htree | htree
    · exact hsecond.draws_of_disjoint (hfirst.draws tree htree) fun id hid =>
        hapart id (List.mem_flatMap.mpr ⟨tree, htree, hid⟩)
    · exact hsecond.draws tree htree
  · refine (hperm.flatMap_right _).nodup_iff.mpr ?_
    rw [List.flatMap_append]
    refine List.Nodup.append hfirst.nodup hsecond.nodup fun id hid hid' => ?_
    rcases hsecond.fresh id hid' with hmem | hnew
    · exact hapart id hid hmem
    · exact absurd (hfirst.lt_size hid) (by omega)
  · intro id hid
    have hid := ((hperm.flatMap_right _).mem_iff).mp hid
    rw [List.flatMap_append, List.mem_append] at hid
    rw [List.mem_append]
    rcases hid with hid | hid
    · exact (hfirst.fresh id hid).imp_left Or.inl
    · exact (hsecond.fresh id hid).imp Or.inr fun hnew => hfirst.size_le.trans hnew

/-- Overwriting a node that no tree contains. -/
theorem setNode (hgrows : program.Grows program' old rows trees) {id : NodeId} (node : Node)
    (hid : id ∉ (rows.map Row.statement ++ trees).flatMap Tree.ids) :
    program.Grows (program'.setNode id node) (id :: old) rows trees where
  size_le := by
    rw [Program.setNode, Array.size_setIfInBounds]
    exact hgrows.size_le
  frame other hlt hother := by
    rw [List.mem_cons, not_or] at hother
    rw [node_setNode_of_ne _ _ hother.1, hgrows.frame other hlt hother.2]
  vars := hgrows.vars
  types row hrow := Tree.ty?_mono (fun _ _ h => h) rfl (hgrows.types row hrow)
  signatures := hgrows.signatures
  body := hgrows.body
  draws tree htree := (hgrows.draws tree htree).congr fun other hother =>
    node_setNode_of_ne _ _ fun hsame => hid (List.mem_flatMap.mpr ⟨tree, htree, hsame ▸ hother⟩)
  nodup := hgrows.nodup
  fresh other hother := (hgrows.fresh other hother).imp_left (List.mem_cons_of_mem _)

/-- Trees become the children of a node that refers to them. -/
theorem join (hgrows : program.Grows program' old rows trees) {id : NodeId} {node : Node}
    (hnode : program'.node id = .ok node) (hchildren : node.children = trees.map Tree.id)
    (hold : id ∈ old) (hid : id ∉ (rows.map Row.statement ++ trees).flatMap Tree.ids) :
    program.Grows program' old rows [⟨id, node, trees⟩] := by
  have hids : (rows.map Row.statement ++ [(⟨id, node, trees⟩ : Tree)]).flatMap Tree.ids =
      (rows.map Row.statement).flatMap Tree.ids ++ id :: trees.flatMap Tree.ids := by
    simp [List.flatMap_append]
  have hold' : (rows.map Row.statement ++ trees).flatMap Tree.ids =
      (rows.map Row.statement).flatMap Tree.ids ++ trees.flatMap Tree.ids := List.flatMap_append
  refine ⟨hgrows.size_le, hgrows.frame, hgrows.vars, hgrows.types, hgrows.signatures, hgrows.body,
    ?_, ?_, ?_⟩
  · intro tree htree
    rcases List.mem_append.mp htree with htree | htree
    · exact hgrows.draws tree (List.mem_append_left _ htree)
    · obtain rfl := List.mem_singleton.mp htree
      exact .intro hnode hchildren fun child hchild =>
        hgrows.draws child (List.mem_append_right _ hchild)
  · rw [hids, List.perm_middle.nodup_iff, List.nodup_cons, ← hold']
    exact ⟨hid, hgrows.nodup⟩
  · intro other hother
    rw [hids, List.perm_middle.mem_iff, List.mem_cons, ← hold'] at hother
    rcases hother with rfl | hother
    · exact Or.inl hold
    · exact hgrows.fresh other hother

/-- Overwriting the root of a tree with a node that has the same children. -/
theorem replace {id : NodeId} {node node' : Node} {children : List Tree}
    (hgrows : program.Grows program' old rows (⟨id, node, children⟩ :: trees))
    (hchildren : node'.children = node.children) (hold : id ∈ old) :
    program.Grows (program'.setNode id node') old rows (⟨id, node', children⟩ :: trees) := by
  have hperm :
      ∀ node : Node, ((rows.map Row.statement ++ (⟨id, node, children⟩ : Tree) :: trees).flatMap
      Tree.ids).Perm (id :: (children.flatMap Tree.ids ++
        (rows.map Row.statement ++ trees).flatMap Tree.ids)) := by
    intro node
    refine (List.perm_middle.flatMap_right _).trans ?_
    rw [List.flatMap_cons, Tree.ids_mk, List.cons_append]
  have hnodup := (hperm node).nodup_iff.mp hgrows.nodup
  obtain ⟨hid, -⟩ := List.nodup_cons.mp hnodup
  rw [List.mem_append, not_or] at hid
  have hroot := hgrows.draws ⟨id, node, children⟩ (by simp)
  have hkeeps :
      ∀ tree, program'.Draws tree → id ∉ tree.ids → (program'.setNode id node').Draws tree :=
    fun tree hdraws hfree => hdraws.congr fun other hother =>
      node_setNode_of_ne _ _ fun hsame => hfree (hsame ▸ hother)
  have hset : ∀ other, other ≠ id → (program'.setNode id node').node other = program'.node other :=
    fun other hne => node_setNode_of_ne _ _ hne
  refine ⟨?_, fun other hlt hother => ?_, hgrows.vars, fun row hrow =>
    Tree.ty?_mono (fun _ _ h => h) rfl (hgrows.types row hrow), hgrows.signatures, hgrows.body,
      ?_, ?_, ?_⟩
  · rw [Program.setNode, Array.size_setIfInBounds]
    exact hgrows.size_le
  · rw [hset other (fun hsame => hother (hsame ▸ hold)), hgrows.frame other hlt hother]
  · intro tree htree
    rcases List.mem_cons.mp (List.perm_middle.mem_iff.mp htree) with rfl | htree
    · refine .intro (node_setNode_self _ _ (lt_size_of_node hroot.node_eq))
        (hchildren.trans hroot.children_eq) fun child hchild => hkeeps child (hroot.child hchild) ?_
      exact fun hmem => hid.1 (List.mem_flatMap.mpr ⟨child, hchild, hmem⟩)
    · refine hkeeps tree
        (hgrows.draws tree (List.perm_middle.mem_iff.mpr (List.mem_cons_of_mem _ htree)))
        fun hmem => hid.2 (List.mem_flatMap.mpr ⟨tree, htree, hmem⟩)
  · exact (hperm node').nodup_iff.mpr hnodup
  · intro other hother
    exact hgrows.fresh other ((hperm node).mem_iff.mpr ((hperm node').mem_iff.mp hother))

/-- The rows know the types of what they compute, and their temporaries are declared. -/
theorem declares (hgrows : program.Grows program' old rows trees)
    (htemporaries : rows.map (fun row => row.temporary.index) =
      List.range' program.vars.size rows.length) : Lifted.Declares program' rows := by
  intro row hrow
  refine ⟨?_, hgrows.types row hrow⟩
  obtain ⟨place, hplace, rfl⟩ := List.getElem_of_mem hrow
  have hindex := congrArg (fun indices => indices[place]?) htemporaries
  simp only [List.getElem?_map, List.getElem?_eq_getElem hplace, Option.map_some,
    List.getElem?_range' hplace, Option.some.injEq] at hindex
  rw [hindex, hgrows.vars, Array.getElem?_append_right (by omega)]
  simp [List.getElem?_eq_getElem hplace]

theorem getElem?_vars_of_append {old' : List NodeId} {trees' : List Tree}
    (hfirst : program.Grows program' old rows trees)
    (hsecond : program.Grows program'' old' (rows ++ rows') trees') {index : Nat}
    {declared : Variable} (hdeclared : program'.vars[index]? = some declared) :
    program''.vars[index]? = some declared := by
  rw [hsecond.vars, List.map_append, ← List.append_toArray (rows.map Row.declared),
    ← Array.append_assoc, ← hfirst.vars,
    Array.getElem?_append_left (Array.getElem?_eq_some_iff.mp hdeclared).choose, hdeclared]

/-- Adding a read of a variable. -/
theorem addLeaf (hgrows : program.Grows program' old rows trees) (read : VarId) :
    program.Grows (program'.withNode (.variable read)) old rows
      (trees ++ [⟨⟨program'.nodes.size⟩, .variable read, []⟩]) := by
  have hsize : (program'.withNode (.variable read)).nodes.size = program'.nodes.size + 1 := by simp
  refine ⟨?_, fun id hlt hid => ?_, hgrows.vars, fun row hrow =>
    Tree.ty?_mono (fun _ _ h => h) rfl (hgrows.types row hrow), hgrows.signatures, hgrows.body,
      ?_, ?_, ?_⟩
  · rw [hsize]
    exact hgrows.size_le.trans (Nat.le_succ _)
  · rw [node_withNode_of_lt _ _ (hlt.trans_le hgrows.size_le), hgrows.frame id hlt hid]
  all_goals rw [← List.append_assoc]
  · intro tree htree
    rcases List.mem_append.mp htree with htree | htree
    · have hdraws := hgrows.draws tree htree
      exact hdraws.congr fun id hid => node_withNode_of_lt _ _ (hdraws.lt_size hid)
    · obtain rfl := List.mem_singleton.mp htree
      exact .intro (node_withNode_self _ _) rfl (by simp)
  · rw [List.flatMap_append]
    refine List.Nodup.append hgrows.nodup (by simp) fun id hid hid' => ?_
    have hlt := hgrows.lt_size hid
    simp only [List.flatMap_cons, List.flatMap_nil, Tree.ids_mk, List.append_nil,
      List.mem_singleton] at hid'
    rw [hid'] at hlt
    exact Nat.lt_irrefl _ hlt
  · intro id hid
    rw [List.flatMap_append, List.mem_append] at hid
    rcases hid with hid | hid
    · exact hgrows.fresh id hid
    · simp only [List.flatMap_cons, List.flatMap_nil, Tree.ids_mk, List.append_nil,
        List.mem_singleton] at hid
      rw [hid]
      exact Or.inr hgrows.size_le

theorem ids_statement_newRow (program : Program) (ty : Ty) (value : Tree) :
    (program.newRow ty value).statement.ids =
      ⟨program.nodes.size + 1⟩ :: (value.ids ++ [⟨program.nodes.size⟩]) := by
  simp [newRow, Row.statement, Row.target]

/-- Putting a value into a new temporary. -/
theorem store {value : Tree} (hgrows : program.Grows program' old rows [value]) {ty : Ty}
    (hty : value.ty? program' = some ty) :
    program.Grows ((program'.withTemporary ty).withAssignment ⟨program'.vars.size⟩ value.id)
      old (rows ++ [program'.newRow ty value]) [] := by
  have hnodes : (program'.withTemporary ty).nodes = program'.nodes := rfl
  have hsame : ∀ id : NodeId, id.index < program'.nodes.size →
      ((program'.withTemporary ty).withAssignment ⟨program'.vars.size⟩ value.id).node id =
        program'.node id := by
    intro id hlt
    simp only [withAssignment]
    rw [node_withNode_of_lt _ _ (by rw [nodes_withNode, Array.size_push, hnodes]; omega),
      node_withNode_of_lt (program'.withTemporary ty) _ (by rw [hnodes]; exact hlt)]
    rfl
  have hplace : ((program'.withTemporary ty).withAssignment ⟨program'.vars.size⟩
      value.id).node ⟨program'.nodes.size⟩ = .ok (.variable ⟨program'.vars.size⟩) := by
    simp only [withAssignment]
    rw [node_withNode_of_lt _ _ (by simp [withTemporary])]
    exact node_withNode_self _ _
  have hstatement : ((program'.withTemporary ty).withAssignment ⟨program'.vars.size⟩
      value.id).node ⟨program'.nodes.size + 1⟩ =
        .ok (.assign ⟨program'.nodes.size⟩ value.id 0) := by
    simp only [withAssignment]
    have hself := node_withNode_self ((program'.withTemporary ty).withNode
      (.variable ⟨program'.vars.size⟩)) (.assign ⟨program'.nodes.size⟩ value.id 0)
    simpa [withTemporary] using hself
  have hvars : ((program'.withTemporary ty).withAssignment ⟨program'.vars.size⟩
      value.id).vars = program'.vars.push (program'.newRow ty value).declared := rfl
  have hsplit : ((rows ++ [program'.newRow ty value]).map Row.statement ++ []).flatMap Tree.ids =
      (rows.map Row.statement).flatMap Tree.ids ++ ⟨program'.nodes.size + 1⟩ ::
        (value.ids ++ [⟨program'.nodes.size⟩]) := by
    rw [List.append_nil, List.map_append, List.flatMap_append]
    simp [ids_statement_newRow]
  have hold : (rows.map Row.statement ++ [value]).flatMap Tree.ids =
      (rows.map Row.statement).flatMap Tree.ids ++ value.ids := by
    simp [List.flatMap_append]
  have hperm :
      (((rows ++ [program'.newRow ty value]).map Row.statement ++ []).flatMap Tree.ids).Perm
      (⟨program'.nodes.size + 1⟩ :: ⟨program'.nodes.size⟩ ::
        (rows.map Row.statement ++ [value]).flatMap Tree.ids) := by
    rw [hsplit, hold]
    refine List.perm_middle.trans (List.Perm.cons _ ?_)
    rw [← List.append_assoc]
    exact List.perm_append_singleton _ _
  refine ⟨?_, fun id hlt hid => ?_, ?_, ?_, hgrows.signatures, hgrows.body, ?_, ?_, ?_⟩
  · refine hgrows.size_le.trans ?_
    simp [withAssignment, withTemporary]
    omega
  · rw [hsame id (hlt.trans_le hgrows.size_le), hgrows.frame id hlt hid]
  · rw [hvars, hgrows.vars, List.map_append, ← List.append_toArray (rows.map Row.declared),
      ← Array.append_assoc, Array.push_eq_append]
    rfl
  · have hkeeps : ∀ (index : Nat) declared, program'.vars[index]? = some declared →
        ((program'.withTemporary ty).withAssignment ⟨program'.vars.size⟩
          value.id).vars[index]? = some declared := by
      intro index declared hdeclared
      rw [hvars, Array.getElem?_push_lt (Array.getElem?_eq_some_iff.mp hdeclared).choose,
        ← Array.getElem?_eq_getElem, hdeclared]
    intro row hrow
    rcases List.mem_append.mp hrow with hrow | hrow
    · exact Tree.ty?_mono hkeeps rfl (hgrows.types row hrow)
    · obtain rfl := List.mem_singleton.mp hrow
      exact Tree.ty?_mono hkeeps rfl hty
  · have hdraws : ∀ tree ∈ rows.map Row.statement ++ [value], Draws _ tree := fun tree htree =>
      (hgrows.draws tree htree).congr fun id hid => hsame id ((hgrows.draws tree htree).lt_size hid)
    intro tree htree
    rw [List.append_nil, List.map_append, List.mem_append] at htree
    rcases htree with htree | htree
    · exact hdraws tree (List.mem_append_left _ htree)
    · obtain rfl := List.mem_singleton.mp htree
      refine .intro hstatement rfl ?_
      simp only [List.mem_cons, List.not_mem_nil, or_false, forall_eq_or_imp, forall_eq]
      exact ⟨hdraws value (by simp), .intro hplace rfl (by simp)⟩
  · rw [hperm.nodup_iff, List.nodup_cons, List.nodup_cons]
    refine ⟨fun hmem => ?_, fun hmem => Nat.lt_irrefl _ (hgrows.lt_size hmem), hgrows.nodup⟩
    rcases List.mem_cons.mp hmem with hsame | hmem
    · have := congrArg NodeId.index hsame
      simp at this
    · exact absurd (hgrows.lt_size hmem) (by simp)
  · intro id hid
    rw [hperm.mem_iff, List.mem_cons, List.mem_cons] at hid
    have := hgrows.size_le
    rcases hid with rfl | rfl | hid
    · exact Or.inr (by dsimp only; omega)
    · exact Or.inr (by dsimp only; omega)
    · exact hgrows.fresh id hid

end Program.Grows

end ShaderIR
