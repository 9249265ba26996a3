import ShaderIR.Proofs.Answers
import ShaderIR.Proofs.Outline.Checked
import ShaderIR.Proofs.Rows

/-!
The order of the text. `Program.preOrder` lists all statements of a program, each control statement
before those of its bodies, and `Program.Lists` says which statement lists there are.
`Program.Frames` says of a code that its statement lists are those of a program, whatever stands
below the statements, and that no statement comes twice; every program that passes the check has
such a code (`Program.Outlines.frames`). Both the order and the lists can be read off it
(`Program.Frames.preOrder_eq`, `Program.Frames.mem_lists`), and each statement stands in one list
only (`Code.eq_of_mem_lists`).
-/

set_option autoImplicit false

namespace ShaderIR

namespace Program

/-- A statement followed by those of its bodies. -/
def preOrderOf (program : Program) (nested : ListRef → Except Crash (List NodeId))
    (statement : NodeId) : Except Crash (List NodeId) := do
  let bodies ← (← program.nestedLists statement).mapM nested
  return statement :: bodies.flatten

/-- The statements of a list in the order of the text, with bodies that nest at most so deep. -/
def preOrderWithin (program : Program) : (steps : Nat) → ListRef → Except Crash (List NodeId)
  | 0, _ => .error .endless
  | steps + 1, ref => do
    let rows ← (← program.list ref).mapM (program.preOrderOf (program.preOrderWithin steps))
    return rows.flatten

/-- All statements in the order of the text: a control statement is followed by those of its
bodies. -/
def preOrder (program : Program) : Except Crash (List NodeId) :=
  program.preOrderWithin program.chainBound .root

/-- A list of statements that can be reached from the root list. -/
inductive Lists (program : Program) : ListRef → List NodeId → Prop
  | root : Lists program .root program.body
  | nested {outer inner : ListRef} {statements body : List NodeId} {owner : NodeId} {node : Node}
    (houter : Lists program outer statements) (howner : owner ∈ statements)
    (hnode : program.node owner = .ok node) (hinner : inner ∈ node.lists owner)
    (hlist : program.list inner = .ok body) : Lists program inner body

theorem Lists.list_eq {program : Program} {ref : ListRef} {statements : List NodeId}
    (hlists : program.Lists ref statements) : program.list ref = .ok statements := by
  cases hlists with
  | root => rfl
  | nested _ _ _ _ hlist => exact hlist

end Program

/-! ### Codes -/

namespace Code

/-- The ids of all statements in the order of the text. -/
def order (code : Code) : List NodeId :=
  code.statements.map Tree.id

@[simp] theorem order_nil : order nil = [] :=
  rfl

@[simp] theorem order_step (statement : Tree) (rest : Code) :
    order (step statement rest) = statement.id :: rest.order :=
  rfl

@[simp] theorem order_branch (statement : Tree) (thenBody elseBody rest : Code) :
    order (branch statement thenBody elseBody rest) =
      statement.id :: (thenBody.order ++ elseBody.order ++ rest.order) := by
  simp [order, statements]

@[simp] theorem order_loop (statement : Tree) (body rest : Code) :
    order (loop statement body rest) = statement.id :: (body.order ++ rest.order) := by
  simp [order, statements]

theorem head?_order (code : Code) : code.order.head? = code.heads.head? := by
  cases code <;> simp [heads]

theorem heads_subset_order (code : Code) : code.heads ⊆ code.order := by
  induction code with
  | nil => exact List.Subset.refl _
  | step statement rest ih => exact List.cons_subset_cons _ ih
  | branch statement thenBody elseBody rest _ _ ih =>
    rw [order_branch]
    exact List.cons_subset_cons _ (List.subset_append_of_subset_right _ ih)
  | loop statement body rest _ ih =>
    rw [order_loop]
    exact List.cons_subset_cons _ (List.subset_append_of_subset_right _ ih)

theorem order_sublist_ids (code : Code) : code.order.Sublist code.ids := by
  have hsublist (statements : List Tree) :
      (statements.map Tree.id).Sublist (statements.flatMap Tree.ids) := by
    induction statements with
    | nil => exact .slnil
    | cons first rest ih =>
      obtain ⟨id, node, children⟩ := first
      rw [List.map_cons, List.flatMap_cons, Tree.ids_mk, List.cons_append]
      exact (ih.trans (List.sublist_append_right _ _)).cons_cons _
  exact hsublist code.statements

/-- How deep the bodies of a list nest. -/
def depth : Code → Nat
  | nil => 0
  | step _ rest => rest.depth
  | branch _ thenBody elseBody rest => max (max thenBody.depth elseBody.depth + 1) rest.depth
  | loop _ body rest => max (body.depth + 1) rest.depth

theorem depth_le_length_order (code : Code) : code.depth ≤ code.order.length := by
  induction code with
  | nil => exact Nat.le_refl _
  | step statement rest ih => exact ih.trans (Nat.le_succ _)
  | branch statement thenBody elseBody rest ihthen ihelse ih =>
    simp only [depth, order_branch, List.length_cons, List.length_append]
    omega
  | loop statement body rest ihbody ih =>
    simp only [depth, order_loop, List.length_cons, List.length_append]
    omega

/-! ### The lists of a code -/

/-- The bodies inside a list, each with the list that it is. -/
def bodies : Code → List (ListRef × List NodeId)
  | nil => []
  | step _ rest => rest.bodies
  | branch statement thenBody elseBody rest =>
    (.thenBody statement.id, thenBody.heads) :: thenBody.bodies ++
      (.elseBody statement.id, elseBody.heads) :: elseBody.bodies ++ rest.bodies
  | loop statement body rest => (.loopBody statement.id, body.heads) :: body.bodies ++ rest.bodies

/-- A list with all bodies inside it. -/
def lists (ref : ListRef) (code : Code) : List (ListRef × List NodeId) :=
  (ref, code.heads) :: code.bodies

theorem perm_flatMap_bodies (code : Code) :
    (code.heads ++ code.bodies.flatMap Prod.snd).Perm code.order := by
  induction code with
  | nil => exact .refl _
  | step statement rest ih => exact ih.cons _
  | branch statement thenBody elseBody rest ihthen ihelse ih =>
    rw [order_branch, heads, bodies, List.cons_append]
    refine .cons _ (.trans ?_ ((ihthen.append ihelse).append ih))
    refine List.perm_iff_count.mpr fun id => ?_
    simp only [List.flatMap_append, List.flatMap_cons, List.count_append]
    omega
  | loop statement body rest ihbody ih =>
    rw [order_loop, heads, bodies, List.cons_append]
    refine .cons _ (.trans ?_ (ihbody.append ih))
    refine List.perm_iff_count.mpr fun id => ?_
    simp only [List.flatMap_append, List.flatMap_cons, List.count_append]
    omega

theorem perm_flatMap_lists (ref : ListRef) (code : Code) :
    ((code.lists ref).flatMap Prod.snd).Perm code.order :=
  code.perm_flatMap_bodies

/-- A statement stands in one list only. -/
theorem eq_of_mem_lists {code : Code} {ref : ListRef} (hnodup : code.order.Nodup)
    {first second : ListRef × List NodeId} (hfirst : first ∈ code.lists ref)
    (hsecond : second ∈ code.lists ref) {id : NodeId} (hid : id ∈ first.2) (hid' : id ∈ second.2) :
    first = second :=
  eq_of_mem_flatMap ((code.perm_flatMap_lists ref).nodup_iff.mpr hnodup) hfirst hsecond hid hid'

theorem nodup_of_mem_lists {code : Code} {ref : ListRef} (hnodup : code.order.Nodup)
    {entry : ListRef × List NodeId} (hentry : entry ∈ code.lists ref) : entry.2.Nodup :=
  (List.nodup_flatMap.mp ((code.perm_flatMap_lists ref).nodup_iff.mpr hnodup)).1 entry hentry

theorem mem_order_of_mem_lists {code : Code} {ref : ListRef} {entry : ListRef × List NodeId}
    (hentry : entry ∈ code.lists ref) : entry.2 ⊆ code.order := fun _ hid =>
  (code.perm_flatMap_lists ref).subset (List.mem_flatMap.mpr ⟨entry, hentry, hid⟩)

/-- The owner of a body is a statement of the code. -/
theorem exists_owner_of_mem_bodies {code : Code} {entry : ListRef × List NodeId}
    (hentry : entry ∈ code.bodies) : ∃ owner ∈ code.order, entry.1.owner? = some owner := by
  induction code with
  | nil => cases hentry
  | step statement rest ih =>
    obtain ⟨owner, howner, hentry⟩ := ih hentry
    exact ⟨owner, List.mem_cons_of_mem _ howner, hentry⟩
  | branch statement thenBody elseBody rest ihthen ihelse ih =>
    simp only [order_branch, List.mem_cons, List.mem_append]
    simp only [bodies, List.mem_append, List.mem_cons] at hentry
    rcases hentry with ((rfl | hentry) | rfl | hentry) | hentry
    · exact ⟨_, Or.inl rfl, rfl⟩
    · obtain ⟨owner, howner, hentry⟩ := ihthen hentry
      exact ⟨owner, Or.inr (Or.inl (Or.inl howner)), hentry⟩
    · exact ⟨_, Or.inl rfl, rfl⟩
    · obtain ⟨owner, howner, hentry⟩ := ihelse hentry
      exact ⟨owner, Or.inr (Or.inl (Or.inr howner)), hentry⟩
    · obtain ⟨owner, howner, hentry⟩ := ih hentry
      exact ⟨owner, Or.inr (Or.inr howner), hentry⟩
  | loop statement body rest ihbody ih =>
    simp only [order_loop, List.mem_cons, List.mem_append]
    simp only [bodies, List.mem_append, List.mem_cons] at hentry
    rcases hentry with (rfl | hentry) | hentry
    · exact ⟨_, Or.inl rfl, rfl⟩
    · obtain ⟨owner, howner, hentry⟩ := ihbody hentry
      exact ⟨owner, Or.inr (Or.inl howner), hentry⟩
    · obtain ⟨owner, howner, hentry⟩ := ih hentry
      exact ⟨owner, Or.inr (Or.inr howner), hentry⟩

end Code

/-! ### Programs -/

namespace Program

variable {program : Program}

theorem nestedLists_of_node {id : NodeId} {node : Node} (hnode : program.node id = .ok node) :
    program.nestedLists id = .ok (node.lists id) := by
  rw [nestedLists, hnode]
  rfl

/-- The arena holds the statements of a code, whatever stands below them, and the lists that they
own. -/
inductive FramesCode (program : Program) : Code → Prop
  | nil : FramesCode program .nil
  | step {statement : Tree} {rest : Code}
    (hstatement : program.node statement.id = .ok statement.node)
    (hlists : statement.node.lists statement.id = []) (hrest : FramesCode program rest) :
    FramesCode program (.step statement rest)
  | branch {statement : Tree} {condition : NodeId} {thenBody elseBody rest : Code}
    (hstatement : program.node statement.id = .ok statement.node)
    (hnode : statement.node = .branch condition thenBody.heads elseBody.heads)
    (hthen : FramesCode program thenBody) (helse : FramesCode program elseBody)
    (hrest : FramesCode program rest) :
    FramesCode program (.branch statement thenBody elseBody rest)
  | loop {statement : Tree} {body rest : Code}
    (hstatement : program.node statement.id = .ok statement.node)
    (hnode : statement.node = .loop body.heads) (hbody : FramesCode program body)
    (hrest : FramesCode program rest) : FramesCode program (.loop statement body rest)

/-- The statement lists of a program are those of a code, and no statement comes twice. -/
structure Frames (program : Program) (code : Code) : Prop where
  framed : program.FramesCode code
  body : program.body = code.heads
  nodup_order : code.order.Nodup

theorem DrawsCode.framed {code : Code} (hdraws : program.DrawsCode code) :
    program.FramesCode code := by
  induction hdraws with
  | nil => exact .nil
  | step hstatement hlists _ ih => exact .step hstatement.node_eq hlists ih
  | branch hstatement hnode _ _ _ ihthen ihelse ih =>
    exact .branch hstatement.node_eq hnode ihthen ihelse ih
  | loop hstatement hnode _ _ ihbody ih => exact .loop hstatement.node_eq hnode ihbody ih

theorem Outlines.nodup_order {code : Code} (houtlines : program.Outlines code) : code.order.Nodup :=
  houtlines.nodup.sublist code.order_sublist_ids

theorem Outlines.frames {code : Code} (houtlines : program.Outlines code) : program.Frames code :=
  ⟨houtlines.draws.framed, houtlines.body, houtlines.nodup_order⟩

instance {code : Code} : Coe (program.Outlines code) (program.Frames code) :=
  ⟨Outlines.frames⟩

theorem FramesCode.node_eq {code : Code} (hframed : program.FramesCode code) :
    ∀ statement ∈ code.statements, program.node statement.id = .ok statement.node := by
  induction hframed with
  | nil => simp [Code.statements]
  | step hstatement _ _ ih => simpa [Code.statements] using ⟨hstatement, ih⟩
  | branch hstatement _ _ _ _ ihthen ihelse ihrest =>
    simp only [Code.statements, List.mem_cons, List.mem_append]
    rintro statement (rfl | (hmem | hmem) | hmem)
    exacts [hstatement, ihthen _ hmem, ihelse _ hmem, ihrest _ hmem]
  | loop hstatement _ _ _ ihbody ihrest =>
    simp only [Code.statements, List.mem_cons, List.mem_append]
    rintro statement (rfl | hmem | hmem)
    exacts [hstatement, ihbody _ hmem, ihrest _ hmem]

theorem FramesCode.lt_size {code : Code} (hframed : program.FramesCode code) {id : NodeId}
    (hid : id ∈ code.order) : id.index < program.nodes.size := by
  obtain ⟨statement, hstatement, rfl⟩ := List.mem_map.mp hid
  exact lt_size_of_node (hframed.node_eq statement hstatement)

theorem FramesCode.list_of_mem_bodies {code : Code} (hframed : program.FramesCode code)
    {entry : ListRef × List NodeId} (hentry : entry ∈ code.bodies) :
    program.list entry.1 = .ok entry.2 := by
  induction hframed with
  | nil => cases hentry
  | step _ _ _ ih => exact ih hentry
  | branch hstatement hnode _ _ _ ihthen ihelse ih =>
    have hnode := hnode ▸ hstatement
    simp only [Code.bodies, List.mem_append, List.mem_cons] at hentry
    rcases hentry with ((rfl | hentry) | rfl | hentry) | hentry
    exacts [list_thenBody hnode, ihthen hentry, list_elseBody hnode, ihelse hentry, ih hentry]
  | loop hstatement hnode _ _ ihbody ih =>
    have hnode := hnode ▸ hstatement
    simp only [Code.bodies, List.mem_append, List.mem_cons] at hentry
    rcases hentry with (rfl | hentry) | hentry
    exacts [list_loopBody hnode, ihbody hentry, ih hentry]

/-- The bodies that a statement of a code owns are bodies of the code. -/
theorem FramesCode.mem_bodies {code : Code} (hframed : program.FramesCode code) {owner : NodeId}
    (howner : owner ∈ code.order) {node : Node} (hnode : program.node owner = .ok node)
    {ref : ListRef} (href : ref ∈ node.lists owner) : (ref, node.bodyAt ref) ∈ code.bodies := by
  induction hframed with
  | nil => cases howner
  | step hstatement hlists _ ih =>
    rw [Code.order_step, List.mem_cons] at howner
    rcases howner with rfl | howner
    · obtain rfl := Except.ok.inj (hnode.symm.trans hstatement)
      rw [hlists] at href
      cases href
    · exact ih howner
  | branch hstatement hbranch _ _ _ ihthen ihelse ih =>
    simp only [Code.bodies, List.mem_append, List.mem_cons]
    simp only [Code.order_branch, List.mem_cons, List.mem_append] at howner
    rcases howner with rfl | (howner | howner) | howner
    · obtain rfl := Except.ok.inj (hnode.symm.trans (hbranch ▸ hstatement))
      simp only [Node.lists, List.mem_cons, List.not_mem_nil, or_false] at href
      rcases href with rfl | rfl
      · exact Or.inl (Or.inl (Or.inl rfl))
      · exact Or.inl (Or.inr (Or.inl rfl))
    · exact Or.inl (Or.inl (Or.inr (ihthen howner)))
    · exact Or.inl (Or.inr (Or.inr (ihelse howner)))
    · exact Or.inr (ih howner)
  | loop hstatement hloop _ _ ihbody ih =>
    simp only [Code.bodies, List.mem_append, List.mem_cons]
    simp only [Code.order_loop, List.mem_cons, List.mem_append] at howner
    rcases howner with rfl | howner | howner
    · obtain rfl := Except.ok.inj (hnode.symm.trans (hloop ▸ hstatement))
      obtain rfl := List.mem_singleton.mp href
      exact Or.inl (Or.inl rfl)
    · exact Or.inl (Or.inr (ihbody howner))
    · exact Or.inr (ih howner)

theorem preOrderOf_eq {nested : ListRef → Except Crash (List NodeId)} {id : NodeId} {node : Node}
    {bodies : List (List NodeId)} (hnode : program.node id = .ok node)
    (hbodies : (node.lists id).mapM nested = .ok bodies) :
    program.preOrderOf nested id = .ok (id :: bodies.flatten) := by
  rw [preOrderOf, nestedLists_of_node hnode]
  change ((node.lists id).mapM nested >>= _) = _
  rw [hbodies]
  rfl

theorem preOrderWithin_eq {ref : ListRef} {statements : List NodeId} {rows : List (List NodeId)}
    {steps : Nat} (hlist : program.list ref = .ok statements)
    (hrows : statements.mapM (program.preOrderOf (program.preOrderWithin steps)) = .ok rows) :
    program.preOrderWithin (steps + 1) ref = .ok rows.flatten := by
  rw [preOrderWithin, hlist]
  change (statements.mapM (program.preOrderOf (program.preOrderWithin steps)) >>= _) = _
  rw [hrows]
  rfl

/-- The order of the text, row by row, of a list that a code stands for. -/
theorem FramesCode.exists_rows {code : Code} (hframed : program.FramesCode code) :
    ∀ {steps : Nat}, code.depth ≤ steps →
      ∃ rows, code.heads.mapM (program.preOrderOf (program.preOrderWithin steps)) = .ok rows ∧
        rows.flatten = code.order := by
  induction hframed with
  | nil => exact fun _ => ⟨[], rfl, rfl⟩
  | @step statement rest hstatement hlists _ ih =>
    intro steps hdepth
    obtain ⟨rows, hrows, horder⟩ := ih hdepth
    have hfirst := @preOrderOf_eq _ (program.preOrderWithin steps) _ _ [] hstatement
      (by rw [hlists]; rfl)
    exact ⟨_, mapM_cons_eq_ok_iff.mpr ⟨_, _, hfirst, hrows, rfl⟩, by simp [horder]⟩
  | @branch statement condition thenBody elseBody rest hstatement hnode _ _ _ ihthen ihelse ih =>
    intro steps hdepth
    simp only [Code.depth, Nat.max_le, Nat.succ_le_iff] at hdepth
    obtain ⟨steps, rfl⟩ : ∃ steps', steps = steps' + 1 := ⟨steps - 1, by omega⟩
    have hnode := hnode ▸ hstatement
    obtain ⟨thenRows, hthenRows, hthenOrder⟩ := @ihthen steps (by omega)
    obtain ⟨elseRows, helseRows, helseOrder⟩ := @ihelse steps (by omega)
    obtain ⟨rows, hrows, horder⟩ := ih hdepth.2
    have hthen := preOrderWithin_eq (list_thenBody hnode) hthenRows
    have helse := preOrderWithin_eq (list_elseBody hnode) helseRows
    rw [hthenOrder] at hthen
    rw [helseOrder] at helse
    have hfirst := preOrderOf_eq hnode (mapM_cons_eq_ok_iff.mpr
      ⟨_, _, hthen, mapM_cons_eq_ok_iff.mpr ⟨_, _, helse, rfl, rfl⟩, rfl⟩)
    exact ⟨_, mapM_cons_eq_ok_iff.mpr ⟨_, _, hfirst, hrows, rfl⟩, by simp [horder]⟩
  | @loop statement body rest hstatement hnode _ _ ihbody ih =>
    intro steps hdepth
    simp only [Code.depth, Nat.max_le, Nat.succ_le_iff] at hdepth
    obtain ⟨steps, rfl⟩ : ∃ steps', steps = steps' + 1 := ⟨steps - 1, by omega⟩
    have hnode := hnode ▸ hstatement
    obtain ⟨bodyRows, hbodyRows, hbodyOrder⟩ := @ihbody steps (by omega)
    obtain ⟨rows, hrows, horder⟩ := ih hdepth.2
    have hbody := preOrderWithin_eq (list_loopBody hnode) hbodyRows
    rw [hbodyOrder] at hbody
    have hfirst := preOrderOf_eq hnode (mapM_cons_eq_ok_iff.mpr ⟨_, _, hbody, rfl, rfl⟩)
    exact ⟨_, mapM_cons_eq_ok_iff.mpr ⟨_, _, hfirst, hrows, rfl⟩, by simp [horder]⟩

theorem preOrderOf_eq_ok {nested : ListRef → Except Crash (List NodeId)} {statement : NodeId}
    {row : List NodeId} {node : Node} (hnode : program.node statement = .ok node)
    (hrow : program.preOrderOf nested statement = .ok row) :
    ∃ bodies, (node.lists statement).mapM nested = .ok bodies ∧
      row = statement :: bodies.flatten := by
  simp only [preOrderOf, nestedLists_of_node hnode, bind_eq_ok_iff, Except.ok.injEq,
    exists_eq_left'] at hrow
  obtain ⟨bodies, hbodies, hpure⟩ := hrow
  exact ⟨bodies, hbodies, (Except.ok.inj hpure).symm⟩

theorem order_eq_of_preOrderWithin {code : Code} {ref : ListRef}
    (hlist : program.list ref = .ok code.heads) (hrows : ∀ {steps rows},
      code.heads.mapM (program.preOrderOf (program.preOrderWithin steps)) = .ok rows →
      rows.flatten = code.order) {steps : Nat} {order : List NodeId}
    (horder : program.preOrderWithin steps ref = .ok order) : code.order = order := by
  cases steps with
  | zero => cases horder
  | succ steps =>
    simp only [preOrderWithin, hlist, bind_eq_ok_iff, Except.ok.injEq, exists_eq_left'] at horder
    obtain ⟨rows, hmap, hpure⟩ := horder
    exact (hrows hmap).symm.trans (Except.ok.inj hpure)

/-- Whenever the text of a list can be read, it is that of the code. -/
theorem FramesCode.flatten_eq_order {code : Code} (hframed : program.FramesCode code) {steps : Nat}
    {rows : List (List NodeId)}
    (hrows : code.heads.mapM (program.preOrderOf (program.preOrderWithin steps)) = .ok rows) :
    rows.flatten = code.order := by
  induction hframed generalizing steps rows with
  | nil =>
    cases hrows
    rfl
  | step hstatement hlists _ ih =>
    obtain ⟨row, later, hrow, hlater, rfl⟩ := mapM_cons_eq_ok_iff.mp hrows
    obtain ⟨bodies, hbodies, rfl⟩ := preOrderOf_eq_ok hstatement hrow
    rw [hlists] at hbodies
    cases hbodies
    simp [ih hlater]
  | branch hstatement hnode _ _ _ ihthen ihelse ih =>
    obtain ⟨row, later, hrow, hlater, rfl⟩ := mapM_cons_eq_ok_iff.mp hrows
    rw [hnode] at hstatement
    obtain ⟨bodies, hbodies, rfl⟩ := preOrderOf_eq_ok hstatement hrow
    simp only [Node.lists, List.mapM_cons, List.mapM_nil, bind_eq_ok_iff] at hbodies
    obtain ⟨_, hthen, _, ⟨_, helse, _, ⟨⟩, ⟨⟩⟩, ⟨⟩⟩ := hbodies
    obtain rfl := order_eq_of_preOrderWithin (list_thenBody hstatement) ihthen hthen
    obtain rfl := order_eq_of_preOrderWithin (list_elseBody hstatement) ihelse helse
    simp [ih hlater]
  | loop hstatement hnode _ _ ihbody ih =>
    obtain ⟨row, later, hrow, hlater, rfl⟩ := mapM_cons_eq_ok_iff.mp hrows
    rw [hnode] at hstatement
    obtain ⟨bodies, hbodies, rfl⟩ := preOrderOf_eq_ok hstatement hrow
    simp only [Node.lists, List.mapM_cons, List.mapM_nil, bind_eq_ok_iff] at hbodies
    obtain ⟨_, hbody, _, ⟨⟩, ⟨⟩⟩ := hbodies
    obtain rfl := order_eq_of_preOrderWithin (list_loopBody hstatement) ihbody hbody
    simp [ih hlater]

/-- As far down as the text of the program can be read, no statement comes twice in it. -/
def StatementsOnce (program : Program) : Prop :=
  ∀ steps order, program.preOrderWithin steps .root = .ok order → order.Nodup

namespace Frames

variable {code : Code}

theorem length_order_le (hframes : program.Frames code) : code.order.length ≤ program.nodes.size :=
  length_le_size_of_nodup hframes.nodup_order fun _ hid => hframes.framed.lt_size hid

theorem list_of_mem_lists (hframes : program.Frames code) {entry : ListRef × List NodeId}
    (hentry : entry ∈ code.lists .root) : program.list entry.1 = .ok entry.2 := by
  rcases List.mem_cons.mp hentry with rfl | hentry
  · exact congrArg Except.ok hframes.body
  · exact hframes.framed.list_of_mem_bodies hentry

/-- The order of the text is that of the code. -/
theorem preOrder_eq (hframes : program.Frames code) : program.preOrder = .ok code.order := by
  obtain ⟨rows, hrows, horder⟩ := hframes.framed.exists_rows
    (code.depth_le_length_order.trans hframes.length_order_le)
  have hlist : program.list .root = .ok code.heads := congrArg Except.ok hframes.body
  rw [preOrder, chainBound, preOrderWithin_eq hlist hrows, horder]

theorem statementsOnce (hframes : program.Frames code) : program.StatementsOnce := fun _ _ horder =>
  have hlist : program.list .root = .ok code.heads := congrArg Except.ok hframes.body
  order_eq_of_preOrderWithin hlist hframes.framed.flatten_eq_order horder ▸ hframes.nodup_order

/-- The lists of a program are those of its code. -/
theorem mem_lists (hframes : program.Frames code) {ref : ListRef} {statements : List NodeId}
    (hlists : program.Lists ref statements) : (ref, statements) ∈ code.lists .root := by
  induction hlists with
  | root => exact hframes.body ▸ List.mem_cons_self
  | @nested outer inner statements body owner node _ howner hnode hinner hlist ih =>
    have howner := Code.mem_order_of_mem_lists ih howner
    have hbody := Program.list_of_mem_lists hnode hinner
    obtain rfl : body = node.bodyAt inner := Except.ok.inj (hlist.symm.trans hbody)
    exact List.mem_cons_of_mem _ (hframes.framed.mem_bodies howner hnode hinner)

end Frames

theorem Lists.mem_lists {code : Code} (houtlines : program.Outlines code) {ref : ListRef}
    {statements : List NodeId} (hlists : program.Lists ref statements) :
    (ref, statements) ∈ code.lists .root :=
  houtlines.frames.mem_lists hlists

end Program

end ShaderIR
