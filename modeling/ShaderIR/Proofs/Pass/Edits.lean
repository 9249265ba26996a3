import ShaderIR.Proofs.Pass.Growth

/-!
What the parts of an edit make of operands. `Edit.Lifts` says that operands of a draft have been
lifted: the arena has grown by the rows and the edited operands, and the rows wait to be inserted.
`Edit.Edits` says it of an edit of expressions and `Edit.EditsPlace` of an edit of places, whenever
they come to an end.
-/

set_option autoImplicit false

namespace ShaderIR

/-- The arena holds trees in which no node occurs twice. -/
structure Program.Separate (program : Program) (trees : List Tree) : Prop where
  draws : ∀ tree ∈ trees, program.Draws tree
  nodup : (trees.flatMap Tree.ids).Nodup

namespace Program.Separate

variable {program : Program} {trees trees' : List Tree}

theorem left (trees : List Tree) (hseparate : program.Separate (trees ++ trees')) :
    program.Separate trees where
  draws tree htree := hseparate.draws tree (List.mem_append_left _ htree)
  nodup := by
    have hnodup := hseparate.nodup
    rw [List.flatMap_append] at hnodup
    exact hnodup.of_append_left

theorem right (trees : List Tree) (hseparate : program.Separate (trees ++ trees')) :
    program.Separate trees' where
  draws tree htree := hseparate.draws tree (List.mem_append_right _ htree)
  nodup := by
    have hnodup := hseparate.nodup
    rw [List.flatMap_append] at hnodup
    exact hnodup.of_append_right

theorem disjoint (trees : List Tree) (hseparate : program.Separate (trees ++ trees')) :
    (trees.flatMap Tree.ids).Disjoint (trees'.flatMap Tree.ids) := by
  have hnodup := hseparate.nodup
  rw [List.flatMap_append] at hnodup
  exact List.disjoint_of_nodup_append hnodup

theorem lt_size (hseparate : program.Separate trees) :
    ∀ id ∈ trees.flatMap Tree.ids, id.index < program.nodes.size := by
  intro id hid
  obtain ⟨tree, htree, hid⟩ := List.mem_flatMap.mp hid
  exact (hseparate.draws tree htree).lt_size hid

theorem children {tree : Tree} (hseparate : program.Separate [tree]) :
    program.Separate tree.children ∧ tree.id ∉ tree.children.flatMap Tree.ids := by
  obtain ⟨hdraws, hnodup⟩ := hseparate
  obtain ⟨id, node, children⟩ := tree
  simp only [List.flatMap_cons, List.flatMap_nil, List.append_nil, Tree.ids_mk, List.nodup_cons]
    at hnodup
  exact ⟨⟨fun child hchild => (hdraws _ List.mem_cons_self).child hchild, hnodup.2⟩, hnodup.1⟩

theorem perm (hseparate : program.Separate trees) (hperm : trees'.Perm trees) :
    program.Separate trees' where
  draws tree htree := hseparate.draws tree (hperm.mem_iff.mp htree)
  nodup := (hperm.flatMap_right _).nodup_iff.mpr hseparate.nodup

/-- Trees that an edit does not touch stay. -/
theorem of_grows {program' : Program} {old : List NodeId} {rows : List Row} {made : List Tree}
    (hseparate : program.Separate trees) (hgrows : program.Grows program' old rows made)
    (hdisjoint : (trees.flatMap Tree.ids).Disjoint old) : program'.Separate trees where
  draws tree htree := hgrows.draws_of_disjoint (hseparate.draws tree htree) fun _ hid =>
    hdisjoint (List.mem_flatMap.mpr ⟨tree, htree, hid⟩)
  nodup := hseparate.nodup

end Program.Separate

namespace Edit

variable {κ : Type}

/-- Operands of a draft have been lifted, and the rows wait to be inserted. -/
structure Lifts (remembers : κ → Temporaries) (verdict : Verdict) (draft draft' : Draft κ)
    (forest : List (Role × Tree)) (forest' : List Tree) (rows : List Row) : Prop where
  grows : draft.program.Grows draft'.program ((forest.map Prod.snd).flatMap Tree.ids) rows forest'
  lifted : Lifted verdict (remembers draft.memory) draft.program.vars.size forest forest' rows
    (remembers draft'.memory) draft'.program.vars.size
  pending : draft'.pending = draft.pending ++ rows.map Row.id

/-- An edit lifts an expression and answers the one that stands for it. -/
def Edits (remembers : κ → Temporaries) (verdict : Verdict) (role : Role)
    (edit : NodeId → Edit κ NodeId) (tree : Tree) : Prop :=
  ∀ draft answer draft', draft.program.Separate [tree] →
    Walk.Answers (edit tree.id) draft answer draft' → ∃ tree' rows, tree'.id = answer ∧
      Lifts remembers verdict draft draft' [(role, tree)] [tree'] rows

/-- An edit lifts a place, whose id it keeps. -/
def EditsPlace (remembers : κ → Temporaries) (verdict : Verdict) (edit : NodeId → Edit κ Unit)
    (tree : Tree) : Prop :=
  ∀ draft draft', draft.program.Separate [tree] → Walk.Answers (edit tree.id) draft () draft' →
    ∃ tree' rows, tree'.id = tree.id ∧
      Lifts remembers verdict draft draft' [(.place, tree)] [tree'] rows

variable {remembers : κ → Temporaries} {verdict : Verdict} {draft draft₁ draft' : Draft κ}
  {forest more : List (Role × Tree)} {forest' more' : List Tree} {rows rows' : List Row}

/-! ### Steps -/

theorem answers_ask {α : Type} {request : Program → Except Crash α} {answer : α} :
    Walk.Answers (ask request : Edit κ α) draft answer draft' ↔
      request draft.program = .ok answer ∧ draft = draft' := by
  unfold ask
  simp only [Walk.answers_bind, Walk.answers_get, Walk.answers_liftCrash]
  constructor
  · rintro ⟨_, _, ⟨rfl, rfl⟩, hrequest, rfl⟩
    exact ⟨hrequest, rfl⟩
  · rintro ⟨hrequest, rfl⟩
    exact ⟨_, _, ⟨rfl, rfl⟩, hrequest, rfl⟩

theorem answers_changeNode {id : NodeId} {change : Node → Node} {answer : Unit} :
    Walk.Answers (changeNode id change : Edit κ Unit) draft answer draft' ↔
      ∃ node, draft.program.node id = .ok node ∧
        draft' = { draft with program := draft.program.setNode id (change node) } := by
  unfold changeNode
  simp only [Walk.answers_bind, answers_ask, Walk.answers_modify]
  constructor
  · rintro ⟨node, _, ⟨hnode, rfl⟩, rfl⟩
    exact ⟨node, hnode, rfl⟩
  · rintro ⟨node, hnode, rfl⟩
    exact ⟨node, _, ⟨hnode, rfl⟩, rfl⟩

theorem answers_setNode {id : NodeId} {node : Node} {answer : Unit} :
    Walk.Answers (setNode id node : Edit κ Unit) draft answer draft' ↔
      draft' = { draft with program := draft.program.setNode id node } := by
  unfold setNode
  rw [Walk.answers_modify, eq_comm]

theorem answers_create {α : Type} {addition : Program → Except Crash (α × Program)} {answer : α} :
    Walk.Answers (create addition : Edit κ α) draft answer draft' ↔ ∃ program,
      addition draft.program = .ok (answer, program) ∧ draft' = { draft with program } := by
  unfold create
  simp only [Walk.answers_bind, Walk.answers_get, Walk.answers_liftCrash, Walk.answers_modify,
    Walk.answers_pure]
  constructor
  · rintro ⟨_, _, ⟨rfl, rfl⟩, ⟨_, program⟩, _, ⟨haddition, rfl⟩, _, _, rfl, rfl, rfl⟩
    exact ⟨program, haddition, rfl⟩
  · rintro ⟨program, haddition, rfl⟩
    exact ⟨_, _, ⟨rfl, rfl⟩, _, _, ⟨haddition, rfl⟩, ⟨⟩, _, rfl, rfl, rfl⟩

theorem answers_create_of_iff {α : Type} {addition : Program → Except Crash (α × Program)}
    {fits : Prop} {created answer : α} {program : Program} (hadds : ∀ reached,
      addition draft.program = .ok reached ↔ fits ∧ (created, program) = reached) :
    Walk.Answers (create addition : Edit κ α) draft answer draft' ↔
      fits ∧ answer = created ∧ draft' = { draft with program } := by
  rw [answers_create]
  simp only [hadds, Prod.mk.injEq]
  constructor
  · rintro ⟨_, ⟨hfits, rfl, rfl⟩, rfl⟩
    exact ⟨hfits, rfl, rfl⟩
  · rintro ⟨hfits, rfl, rfl⟩
    exact ⟨_, ⟨hfits, rfl, rfl⟩, rfl⟩

theorem answers_addNode {node : Node} {answer : NodeId} :
    Walk.Answers (create fun program => program.addNode node : Edit κ NodeId) draft answer draft' ↔
      draft.program.nodes.size < UInt32.size ∧ answer = ⟨draft.program.nodes.size⟩ ∧
        draft' = { draft with program := draft.program.withNode node } :=
  answers_create_of_iff fun _ => Program.addNode_eq_ok_iff

theorem answers_addTemporary {ty : Ty} {answer : VarId} :
    Walk.Answers (create fun program => program.addTemporary ty : Edit κ VarId)
      draft answer draft' ↔
      (draft.program.temporaries.next < IdAllocator.last ∧ draft.program.vars.size < UInt32.size) ∧
        answer = ⟨draft.program.vars.size⟩ ∧
        draft' = { draft with program := draft.program.withTemporary ty } :=
  answers_create_of_iff fun _ => Program.addTemporary_eq_ok_iff

theorem answers_addAssignment {target : VarId} {value answer : NodeId} :
    Walk.Answers (create fun program => program.addAssignment target value : Edit κ NodeId)
      draft answer draft' ↔
        draft.program.nodes.size + 1 < UInt32.size ∧ answer = ⟨draft.program.nodes.size + 1⟩ ∧
        draft' = { draft with program := draft.program.withAssignment target value } :=
  answers_create_of_iff fun _ => Program.addAssignment_eq_ok_iff

theorem answers_readOf {id : VarId} {answer : NodeId} :
    Walk.Answers (readOf id : Edit κ NodeId) draft answer draft' ↔
      draft.program.nodes.size < UInt32.size ∧ answer = ⟨draft.program.nodes.size⟩ ∧
        draft' = { draft with program := draft.program.withNode (.variable id) } :=
  answers_addNode

theorem exists_of_answers_materialize {id : NodeId} {answer : VarId}
    (hanswers : Walk.Answers (materialize id : Edit κ VarId) draft answer draft') :
    ∃ ty, draft.program.typeOf id = .ok ty ∧ answer = ⟨draft.program.vars.size⟩ ∧
      draft' = { draft with
        program := ((draft.program.withTemporary ty).withAssignment
          ⟨draft.program.vars.size⟩ id)
        pending := draft.pending ++ [⟨draft.program.nodes.size + 1⟩]
        changed := true } := by
  unfold materialize at hanswers
  simp only [Walk.answers_bind, answers_ask, answers_addTemporary, answers_addAssignment,
    Walk.answers_modify, Walk.answers_pure] at hanswers
  obtain ⟨ty, _, ⟨hty, rfl⟩, temporary, _, ⟨-, rfl, rfl⟩, assignment, _, ⟨-, rfl, rfl⟩, _, _,
    rfl, rfl, rfl⟩ := hanswers
  exact ⟨ty, hty, rfl, rfl⟩

/-! ### Operands one after the other -/

theorem Lifts.nil (draft : Draft κ) : Lifts remembers verdict draft draft [] [] [] where
  grows := .of_draws (by simp) (by simp)
  lifted := .nil _ _
  pending := by simp

theorem Lifts.append (hfirst : Lifts remembers verdict draft draft₁ forest forest' rows)
    (hsecond : Lifts remembers verdict draft₁ draft' more more' rows')
    (hseparate : draft.program.Separate ((forest ++ more).map Prod.snd)) :
    Lifts remembers verdict draft draft' (forest ++ more) (forest' ++ more') (rows ++ rows') where
  grows := by
    rw [List.map_append] at hseparate ⊢
    rw [List.flatMap_append]
    exact hfirst.grows.append hsecond.grows hseparate.disjoint hseparate.right.lt_size
  lifted := hfirst.lifted.append hsecond.lifted
  pending := by rw [hsecond.pending, hfirst.pending, List.map_append, List.append_assoc]

/-- The rest of a row of operands is still there when the first ones have been lifted. -/
theorem Lifts.separate (hlifts : Lifts remembers verdict draft draft' forest forest' rows)
    (hseparate : draft.program.Separate ((forest ++ more).map Prod.snd)) :
    draft'.program.Separate (more.map Prod.snd) := by
  rw [List.map_append] at hseparate
  exact hseparate.right.of_grows hlifts.grows hseparate.disjoint.symm

theorem lifts_mapM {role : Role} {edit : NodeId → Edit κ NodeId} {trees : List Tree}
    (hedit : ∀ tree ∈ trees, Edits remembers verdict role edit tree)
    (hseparate : draft.program.Separate trees) {answers : List NodeId}
    (hanswers : Walk.Answers ((trees.map Tree.id).mapM edit) draft answers draft') :
    ∃ trees' rows, trees'.map Tree.id = answers ∧
      Lifts remembers verdict draft draft' (trees.map (role, ·)) trees' rows := by
  induction trees generalizing draft answers with
  | nil =>
    obtain ⟨rfl, rfl⟩ := Walk.answers_mapM_nil.mp hanswers
    exact ⟨[], [], rfl, .nil _⟩
  | cons tree trees ih =>
    obtain ⟨hfirst, hrest⟩ := List.forall_mem_cons.mp hedit
    rw [List.map_cons] at hanswers
    obtain ⟨answer, later, between, htree, htrees, rfl⟩ := Walk.answers_mapM_cons.mp hanswers
    obtain ⟨tree', rows, rfl, hlifts⟩ := hfirst draft answer between
      (hseparate.left [tree]) htree
    have hforest :
        draft.program.Separate (([(role, tree)] ++ trees.map (role, ·)).map Prod.snd) := by
      simpa using hseparate
    have hlater := hlifts.separate hforest
    rw [List.map_map] at hlater
    obtain ⟨trees', rows', rfl, hlifts'⟩ := ih hrest (by simpa using hlater) htrees
    exact ⟨tree' :: trees', rows ++ rows', rfl, hlifts.append hlifts' hforest⟩

/-! ### Expressions -/

/-- The children of a node are edited and written back. -/
theorem exists_of_editChildren {edit : NodeId → Edit κ NodeId} {tree : Tree}
    (hedit : ∀ child ∈ tree.children, Edits remembers verdict .value edit child)
    (hseparate : draft.program.Separate [tree])
    (hanswers : Walk.Answers (editChildren edit tree.id) draft () draft') :
    ∃ children rows, Lifted verdict (remembers draft.memory) draft.program.vars.size
        (tree.children.map (Role.value, ·))
        children rows (remembers draft'.memory) draft'.program.vars.size ∧
      draft.program.Grows draft'.program tree.ids rows [tree.withChildren children] ∧
      draft'.pending = draft.pending ++ rows.map Row.id := by
  obtain ⟨hchildren, hroot⟩ := hseparate.children
  have hdraws := hseparate.draws tree List.mem_cons_self
  unfold editChildren at hanswers
  simp only [Walk.answers_bind, answers_ask, answers_changeNode] at hanswers
  obtain ⟨node, _, ⟨hnode, rfl⟩, answers, between, hmap, found, hfound, rfl⟩ := hanswers
  obtain rfl : tree.node = node := Except.ok.inj (hdraws.node_eq.symm.trans hnode)
  rw [hdraws.children_eq] at hmap
  obtain ⟨children, rows, rfl, hlifts⟩ := lifts_mapM hedit hchildren hmap
  have hgrows := hlifts.grows
  have hold : (tree.children.map (Role.value, ·)).map Prod.snd = tree.children := by simp
  rw [hold] at hgrows
  have hlt := Program.lt_size_of_node hdraws.node_eq
  obtain rfl : tree.node = found := by
    rw [hgrows.frame _ hlt hroot] at hfound
    exact Except.ok.inj (hdraws.node_eq.symm.trans hfound)
  have hnotMade := hgrows.not_mem_of_lt hlt hroot
  refine ⟨children, rows, hlifts.lifted, ?_, hlifts.pending⟩
  have hlength : (children.map Tree.id).length = tree.node.children.length := by
    rw [List.length_map, hdraws.children_eq, List.length_map, hlifts.lifted.length_eq,
      List.length_map]
  have hset := hgrows.setNode (tree.node.refill (children.map Tree.id)) hnotMade
  have hjoin := hset.join (Program.node_setNode_self _ _ (hlt.trans_le hgrows.size_le))
    (Node.children_refill _ hlength) List.mem_cons_self hnotMade
  obtain ⟨id, node, operands⟩ := tree
  rw [Tree.ids_mk]
  exact hjoin

/-- An expression that stays. -/
theorem lifts_kept {role : Role} {edit : NodeId → Edit κ NodeId} {tree : Tree}
    (hkeeps : role = .root ∨ role = .value ∧ verdict tree = none)
    (hedit : ∀ child ∈ tree.children, Edits remembers verdict .value edit child)
    (hseparate : draft.program.Separate [tree])
    (hanswers : Walk.Answers (editChildren edit tree.id) draft () draft') :
    ∃ tree' rows, tree'.id = tree.id ∧
      Lifts remembers verdict draft draft' [(role, tree)] [tree'] rows := by
  obtain ⟨children, rows, hlifted, hgrows, hpending⟩ :=
    exists_of_editChildren hedit hseparate hanswers
  refine ⟨tree.withChildren children, rows, rfl, ?_, ?_, hpending⟩
  · simpa using hgrows
  · rw [← List.append_nil rows]
    exact .kept hkeeps hlifted (.nil _ _)

/-- An expression that goes into a new temporary. -/
theorem lifts_stored {edit : NodeId → Edit κ NodeId} {tree : Tree} {shared : Option ValueNumber}
    (htaken : verdict tree = some shared)
    (hfresh : ∀ number ∈ shared, (remembers draft.memory).lookup number = none)
    (hedit : ∀ child ∈ tree.children, Edits remembers verdict .value edit child)
    (hseparate : draft.program.Separate [tree]) {between stored noted : Draft κ}
    {temporary : VarId} {answer : NodeId}
    (hchildren : Walk.Answers (editChildren edit tree.id) draft () between)
    (hmaterialize : Walk.Answers (materialize tree.id) between temporary stored)
    (hnoted : noted.program = stored.program ∧ noted.pending = stored.pending ∧
      remembers noted.memory = shared.toList.map (·, temporary) ++ remembers stored.memory)
    (hread : Walk.Answers (readOf temporary) noted answer draft') :
    ∃ tree' rows, tree'.id = answer ∧
      Lifts remembers verdict draft draft' [(.value, tree)] [tree'] rows := by
  obtain ⟨children, rows, hlifted, hgrows, hpending⟩ :=
    exists_of_editChildren hedit hseparate hchildren
  obtain ⟨ty, hty, rfl, rfl⟩ := exists_of_answers_materialize hmaterialize
  obtain ⟨-, rfl, rfl⟩ := answers_readOf.mp hread
  obtain ⟨hprogram, hwaiting, hmemory⟩ := hnoted
  have hvalue := hgrows.draws (tree.withChildren children) (by simp)
  have hstore := (hgrows.store (hvalue.ty?_of_typeOf hty)).addLeaf ⟨between.program.vars.size⟩
  refine ⟨⟨⟨noted.program.nodes.size⟩, .variable ⟨between.program.vars.size⟩, []⟩,
    rows ++ [between.program.newRow ty (tree.withChildren children)], rfl, ?_, ?_, ?_⟩
  · rw [hprogram]
    simpa using hstore
  · have hsize : noted.program.vars.size = between.program.vars.size + 1 := by
      rw [hprogram]
      exact Array.size_push _
    have hlast : Lifted verdict (remembers noted.memory) (between.program.vars.size + 1) [] [] []
        (remembers noted.memory) noted.program.vars.size := by
      rw [hsize]
      exact .nil _ _
    rw [hmemory] at hlast
    rw [hmemory]
    have hstored : Lifted verdict (remembers draft.memory) draft.program.vars.size [(.value, tree)]
        [⟨⟨noted.program.nodes.size⟩, .variable (between.program.newRow ty _).temporary, []⟩]
        (rows ++ between.program.newRow ty (tree.withChildren children) :: []) _ _ :=
      .stored htaken hfresh hlifted rfl rfl hlast
    exact hstored
  · rw [hwaiting, hpending, List.map_append, List.append_assoc]
    rfl

/-- An expression that a temporary holds already. -/
theorem lifts_reused {tree : Tree} {number : ValueNumber} {temporary : VarId}
    (htaken : verdict tree = some (some number))
    (hheld : (remembers draft.memory).lookup number = some temporary) {noted : Draft κ}
    {answer : NodeId} (hnoted : noted.program = draft.program ∧ noted.pending = draft.pending ∧
      remembers noted.memory = remembers draft.memory)
    (hread : Walk.Answers (readOf temporary) noted answer draft') :
    ∃ tree' rows, tree'.id = answer ∧
      Lifts remembers verdict draft draft' [(.value, tree)] [tree'] rows := by
  obtain ⟨-, rfl, rfl⟩ := answers_readOf.mp hread
  obtain ⟨hprogram, hwaiting, hmemory⟩ := hnoted
  refine ⟨⟨⟨noted.program.nodes.size⟩, .variable temporary, []⟩, [], rfl, ?_, ?_, ?_⟩
  · have hnothing : draft.program.Grows draft.program ([].flatMap Tree.ids) [] [] :=
      .of_draws (by simp) (by simp)
    have hgrows := hnothing.addLeaf temporary
    rw [hprogram]
    exact hgrows.mono (by simp)
  · have hsame : (noted.program.withNode (.variable temporary)).vars.size =
        draft.program.vars.size := by
      rw [hprogram]
      rfl
    dsimp only
    rw [hsame, hmemory]
    exact .reused htaken hheld (.nil _ _)
  · rw [List.map_nil, List.append_nil]
    exact hwaiting

/-! ### Places -/

/-- Editing the indices in a place, when expressions that nest less are edited as they should be. -/
theorem editsPlace {limit : Nat} {edit : Nat → NodeId → Edit κ NodeId}
    (hedit : ∀ budget tree, Edits remembers verdict .value (edit budget) tree)
    (budget : Nat) {tree : Tree} (hplace : tree.isPlace = true) :
    EditsPlace remembers verdict (editPlace limit edit budget) tree := by
  induction budget generalizing tree with
  | zero => exact fun _ _ _ hanswers => absurd hanswers Walk.answers_throw
  | succ budget ih =>
    intro draft draft' hseparate hanswers
    have hdraws := hseparate.draws tree List.mem_cons_self
    obtain ⟨hchildren, hroot⟩ := hseparate.children
    obtain ⟨id, node, children⟩ := tree
    unfold editPlace at hanswers
    simp only [Walk.answers_bind, answers_ask] at hanswers
    obtain ⟨found, _, ⟨hfound, rfl⟩, hanswers⟩ := hanswers
    obtain rfl : node = found := Except.ok.inj (hdraws.node_eq.symm.trans hfound)
    have hids := hdraws.children_eq
    have hlt : id.index < draft.program.nodes.size := Program.lt_size_of_node hfound
    rw [Tree.isPlace, Tree.fold_mk, ← Tree.isPlace] at hplace
    cases node with
    | «variable» written =>
      obtain ⟨-, rfl⟩ := Walk.answers_pure.mp hanswers
      obtain rfl : children = [] := Tree.eq_nil_of_ids hids
      exact ⟨_, [], rfl, .of_draws (by simpa using hdraws) (by simp), .whole (.nil _ _), by simp⟩
    | field recordId number =>
      obtain ⟨record, rfl, rfl⟩ := Tree.exists_single_of_ids hids
      obtain ⟨record', rows, hsame, hlifts⟩ := ih hplace draft draft' hchildren hanswers
      have hgrows :
          draft.program.Grows draft'.program ([record].flatMap Tree.ids) rows [record'] := by
        simpa using hlifts.grows
      have hnode : draft'.program.node id = .ok (.field record'.id number) := by
        rw [hgrows.frame id hlt hroot, hfound, hsame]
      refine ⟨⟨id, .field record'.id number, [record']⟩, rows ++ [], rfl, ?_, ?_, ?_⟩
      · have hjoin := (hgrows.mono (List.subset_cons_self id _)).join hnode rfl List.mem_cons_self
          (hgrows.not_mem_of_lt hlt hroot)
        simpa using hjoin
      · exact .field rfl rfl hlifts.lifted (.nil _ _)
      · rw [hlifts.pending, List.append_nil]
    | index baseId positionId =>
      obtain ⟨base, position, rfl, rfl, rfl⟩ := Tree.exists_pair_of_ids hids
      simp only [Walk.answers_bind, answers_changeNode] at hanswers
      obtain ⟨answer, middle, hposition, ⟨⟩, _, ⟨node, hnode, rfl⟩, hbase⟩ := hanswers
      have hpair : draft.program.Separate (([(Role.value, position)] ++ [(Role.place, base)]).map
          Prod.snd) := hchildren.perm (List.Perm.swap _ _ _)
      obtain ⟨position', rows, rfl, hlifts⟩ := hedit budget position draft _ middle
        (hpair.left [position]) hposition
      have hgrows : draft.program.Grows middle.program (position.ids) rows [position'] := by
        simpa using hlifts.grows
      have hrootPosition : id ∉ position.ids := fun hmem => hroot (by simp [hmem])
      have hrootBase : id ∉ base.ids := fun hmem => hroot (by simp [hmem])
      obtain rfl : node = .index base.id position.id := by
        rw [hgrows.frame id hlt hrootPosition, hfound] at hnode
        exact (Except.ok.inj hnode).symm
      have hset :=
        hgrows.setNode (.index base.id position'.id) (hgrows.not_mem_of_lt hlt hrootPosition)
      have hbaseSeparate : draft.program.Separate [base] := hpair.right [position]
      have hbaseDisjoint : ([base].flatMap Tree.ids).Disjoint (id :: position.ids) := by
        have hdisjoint := hpair.disjoint [position]
        simp only [List.map_nil, List.flatMap_cons, List.flatMap_nil, List.append_nil]
          at hdisjoint ⊢
        exact List.disjoint_cons_right.mpr ⟨hrootBase, hdisjoint.symm⟩
      obtain ⟨base', rows', hsame, hlifts'⟩ :=
        ih hplace _ _ (hbaseSeparate.of_grows hset hbaseDisjoint) hbase
      have hgrows' := hlifts'.grows
      have hltSet :
          id.index < (middle.program.setNode id (.index base.id position'.id)).nodes.size :=
        hlt.trans_le hset.size_le
      have hbaseRoot :
          id ∉ ([(Role.place, base)].map Prod.snd).flatMap Tree.ids := by simpa using hrootBase
      have hnode' : draft'.program.node id = .ok (.index base'.id position'.id) := by
        rw [hgrows'.frame id hltSet hbaseRoot, hsame]
        exact Program.node_setNode_self _ _ (hlt.trans_le hgrows.size_le)
      have happend := hset.append hgrows' (by simpa using hbaseDisjoint.symm)
        (by simpa using hbaseSeparate.lt_size)
      have hnotMade : id ∉ ((rows ++ rows').map Row.statement ++ [base', position']).flatMap
          Tree.ids := by
        have hfirst := hgrows.not_mem_of_lt hlt hrootPosition
        have hsecond := hgrows'.not_mem_of_lt hltSet hbaseRoot
        simp only [List.map_append, List.flatMap_append, List.mem_append, List.flatMap_cons,
          List.flatMap_nil, List.append_nil] at hfirst hsecond ⊢
        tauto
      refine ⟨⟨id, .index base'.id position'.id, [base', position']⟩, rows ++ rows' ++ [], rfl,
        ?_, ?_, ?_⟩
      · have hjoin := (happend.perm (List.Perm.swap _ _ _)).join hnode' rfl (by simp) hnotMade
        refine (List.append_nil (rows ++ rows')).symm ▸ hjoin.mono ?_
        intro other hother
        simp only [List.map_cons, List.map_nil,
          List.flatMap_cons, List.flatMap_nil, List.append_nil,
          List.cons_append, List.mem_cons, List.mem_append, Tree.ids_mk] at hother ⊢
        tauto
      · refine .index rfl rfl ?_ (.nil _ _)
        exact hlifts.lifted.append hlifts'.lifted
      · rw [hlifts'.pending, List.append_nil, List.map_append, ← List.append_assoc,
          ← hlifts.pending]
    | _ => simp at hplace

end Edit

end ShaderIR
