import ShaderIR.Program.Basic
import Mathlib.Data.List.Nodup
import Mathlib.Data.Fintype.Card

/-!
Outlines of programs. A program keeps its nodes in an arena; a `Tree` is what an expression or a
statement of it looks like when every reference is followed, with the id of each node still on it,
and a `Code` is a statement list read the same way, with the bodies of its control statements
inside. `Program.Draws` and `Program.DrawsCode` say that the arena holds a tree or a code.

An outline depends on the nodes that it names and on no others (`Draws.congr`, `DrawsCode.congr`),
its id decides what it is (`Draws.unique`), and when no node occurs twice in it, it is no larger
than the arena (`Draws.length_ids_le`, `Draws.height_le`).
-/

set_option autoImplicit false

namespace ShaderIR

/-! ### Trees -/

/-- A node with the trees of its children, in evaluation order. -/
structure Tree where
  id : NodeId
  node : Node
  children : List Tree

namespace Tree

theorem induction {motive : Tree → Prop}
    (step : ∀ id node children, (∀ child ∈ children, motive child) → motive ⟨id, node, children⟩)
    (tree : Tree) : motive tree := by
  obtain ⟨id, node, children⟩ := tree
  exact step id node children fun child _ => induction step child
termination_by tree

theorem exists_eq_mk {tree : Tree} {node : Node} {children : List Tree} (hnode : tree.node = node)
    (hchildren : tree.children = children) : ∃ id, tree = ⟨id, node, children⟩ := by
  obtain ⟨id, _, _⟩ := tree
  obtain rfl := hnode
  obtain rfl := hchildren
  exact ⟨id, rfl⟩

/-- What a rule makes of a tree, from the leaves up. -/
def fold {β : Type} (rule : Node → List β → β) : Tree → β
  | ⟨_, node, children⟩ => rule node (children.map (fold rule))

theorem fold_mk {β : Type} (rule : Node → List β → β) (id : NodeId) (node : Node)
    (children : List Tree) :
    fold rule ⟨id, node, children⟩ = rule node (children.map (fold rule)) := by
  rw [fold]

/-- The tree and everything below it, each node before its children. -/
def subtrees : Tree → List Tree
  | ⟨id, node, children⟩ => ⟨id, node, children⟩ :: children.flatMap subtrees

/-- The ids of a tree, each one before those of its children. -/
def ids (tree : Tree) : List NodeId :=
  tree.subtrees.map Tree.id

/-- The number of nodes on the longest way down. -/
def height : Tree → Nat
  | ⟨_, _, children⟩ => (children.map height).foldr max 0 + 1

theorem subtrees_mk (id : NodeId) (node : Node) (children : List Tree) :
    subtrees ⟨id, node, children⟩ = ⟨id, node, children⟩ :: children.flatMap subtrees := by
  rw [subtrees]

@[simp] theorem ids_mk (id : NodeId) (node : Node) (children : List Tree) :
    ids ⟨id, node, children⟩ = id :: children.flatMap ids := by
  simp only [ids, subtrees_mk, List.map_cons, List.map_flatMap]
  rfl

theorem mem_subtrees_self (tree : Tree) : tree ∈ tree.subtrees := by
  obtain ⟨id, node, children⟩ := tree
  simp [subtrees_mk]

theorem id_mem_ids (tree : Tree) : tree.id ∈ tree.ids :=
  List.mem_map_of_mem tree.mem_subtrees_self

theorem eq_or_mem_of_mem_subtrees {tree below : Tree} (hbelow : below ∈ tree.subtrees) :
    below = tree ∨ ∃ child ∈ tree.children, below ∈ child.subtrees := by
  obtain ⟨id, node, children⟩ := tree
  rwa [subtrees_mk, List.mem_cons, List.mem_flatMap] at hbelow

theorem subtrees_subset_of_mem {tree : Tree} : ∀ {below : Tree}, below ∈ tree.subtrees →
    below.subtrees ⊆ tree.subtrees := by
  induction tree using Tree.induction with
  | step id node children ih =>
    intro below hbelow
    rw [subtrees_mk, List.mem_cons] at hbelow
    rcases hbelow with rfl | hbelow
    · exact List.Subset.refl _
    · obtain ⟨child, hchild, hbelow⟩ := List.mem_flatMap.mp hbelow
      intro other hother
      rw [subtrees_mk]
      exact List.mem_cons_of_mem _
        (List.mem_flatMap.mpr ⟨child, hchild, ih child hchild hbelow hother⟩)

theorem mem_subtrees_of_mem_children {tree child below : Tree} (hchild : child ∈ tree.children)
    (hbelow : below ∈ child.subtrees) : below ∈ tree.subtrees := by
  obtain ⟨id, node, children⟩ := tree
  rw [subtrees_mk]
  exact List.mem_cons_of_mem _ (List.mem_flatMap.mpr ⟨child, hchild, hbelow⟩)

theorem ids_subset_of_mem {tree below : Tree} (hbelow : below ∈ tree.subtrees) :
    below.ids ⊆ tree.ids :=
  List.map_subset _ (subtrees_subset_of_mem hbelow)

theorem ids_sublist_of_mem {tree below : Tree} (hbelow : below ∈ tree.subtrees) :
    below.ids.Sublist tree.ids := by
  induction tree using Tree.induction with
  | step id node children ih =>
    rcases eq_or_mem_of_mem_subtrees hbelow with rfl | ⟨child, hchild, hbelow⟩
    · exact List.Sublist.refl _
    · rw [ids_mk, List.flatMap_def]
      exact ((ih child hchild hbelow).trans
        (List.sublist_flatten_of_mem (List.mem_map_of_mem hchild))).cons id

theorem ids_subset_of_mem_children {tree child : Tree} (hchild : child ∈ tree.children) :
    child.ids ⊆ tree.ids :=
  ids_subset_of_mem (mem_subtrees_of_mem_children hchild child.mem_subtrees_self)

/-- A property of every node of a tree holds of the root and in every child. -/
theorem forall_subtrees_mk {property : Tree → Prop} {id : NodeId} {node : Node}
    {children : List Tree} : (∀ below ∈ subtrees ⟨id, node, children⟩, property below) ↔
      property ⟨id, node, children⟩ ∧
        ∀ child ∈ children, ∀ below ∈ child.subtrees, property below := by
  simp only [subtrees_mk, List.mem_cons, List.mem_flatMap, forall_eq_or_imp]
  constructor
  · rintro ⟨hroot, hbelow⟩
    exact ⟨hroot, fun child hchild below hmem => hbelow below ⟨child, hchild, hmem⟩⟩
  · rintro ⟨hroot, hbelow⟩
    exact ⟨hroot, fun below ⟨child, hchild, hmem⟩ => hbelow child hchild below hmem⟩

theorem height_le_foldr_max {tree : Tree} {trees : List Tree} (hmem : tree ∈ trees) :
    tree.height ≤ (trees.map height).foldr max 0 := by
  induction trees with
  | nil => simp at hmem
  | cons first rest ih =>
    rw [List.map_cons, List.foldr_cons]
    rcases List.mem_cons.mp hmem with rfl | hrest
    · exact Nat.le_max_left _ _
    · exact (ih hrest).trans (Nat.le_max_right _ _)

theorem foldr_max_le {trees : List Tree} {bound : Nat}
    (hbound : ∀ tree ∈ trees, tree.height ≤ bound) :
    (trees.map height).foldr max 0 ≤ bound := by
  induction trees with
  | nil => simp
  | cons first rest ih =>
    rw [List.map_cons, List.foldr_cons]
    exact Nat.max_le.mpr ⟨hbound first List.mem_cons_self,
      ih fun tree hmem => hbound tree (List.mem_cons_of_mem _ hmem)⟩

theorem height_mk_le_iff {id : NodeId} {node : Node} {children : List Tree} {bound : Nat} :
    height ⟨id, node, children⟩ ≤ bound + 1 ↔ ∀ child ∈ children, child.height ≤ bound := by
  rw [height, Nat.add_le_add_iff_right]
  exact ⟨fun hmax child hchild => (height_le_foldr_max hchild).trans hmax, foldr_max_le⟩

theorem height_pos (tree : Tree) : 0 < tree.height := by
  obtain ⟨id, node, children⟩ := tree
  rw [height]
  exact Nat.succ_pos _

theorem height_le_of_mem_children {tree child : Tree} {bound : Nat} (hchild : child ∈ tree.children)
    (hbound : tree.height ≤ bound + 1) : child.height ≤ bound := by
  obtain ⟨id, node, children⟩ := tree
  exact height_mk_le_iff.mp hbound child hchild

theorem height_lt_of_mem_children {tree child : Tree} (hchild : child ∈ tree.children) :
    child.height < tree.height := by
  obtain ⟨id, node, children⟩ := tree
  rw [height]
  exact Nat.lt_succ_of_le (height_le_foldr_max hchild)

theorem height_le_length_ids (tree : Tree) : tree.height ≤ tree.ids.length := by
  induction tree using Tree.induction with
  | step id node children ih =>
    rw [ids_mk, List.length_cons, height_mk_le_iff]
    intro child hchild
    rw [List.flatMap_def]
    exact (ih child hchild).trans
      (List.sublist_flatten_of_mem (List.mem_map_of_mem hchild)).length_le

/-- A tree has parts of every height up to its own. -/
theorem exists_subtree_of_height {tree : Tree} {height : Nat}
    (hpos : 0 < height) (hheight : height ≤ tree.height) :
    ∃ below ∈ tree.subtrees, below.height = height := by
  induction tree using Tree.induction with
  | step id node children ih =>
    by_cases hsmaller : ∃ child ∈ children, height ≤ child.height
    · obtain ⟨child, hchild, hchildHeight⟩ := hsmaller
      obtain ⟨below, hbelow, hsame⟩ := ih child hchild hchildHeight
      exact ⟨below, mem_subtrees_of_mem_children hchild hbelow, hsame⟩
    · refine ⟨_, mem_subtrees_self _, Nat.le_antisymm ?_ hheight⟩
      obtain ⟨bound, rfl⟩ := Nat.exists_eq_add_of_lt hpos
      rw [Nat.zero_add, height_mk_le_iff]
      intro child hchild
      have hlower : ¬ bound + 1 ≤ child.height := fun hle => hsmaller ⟨child, hchild, by omega⟩
      omega

theorem eq_nil_of_ids {trees : List Tree} (hids : [] = trees.map Tree.id) : trees = [] :=
  List.map_eq_nil_iff.mp hids.symm

theorem exists_single_of_ids {trees : List Tree} {id : NodeId} (hids : [id] = trees.map Tree.id) :
    ∃ tree, trees = [tree] ∧ tree.id = id := by
  obtain ⟨tree, rest, rfl, hid, hrest⟩ := List.map_eq_cons_iff.mp hids.symm
  rw [List.map_eq_nil_iff.mp hrest]
  exact ⟨tree, rfl, hid⟩

theorem exists_pair_of_ids {trees : List Tree} {id id' : NodeId}
    (hids : [id, id'] = trees.map Tree.id) :
    ∃ tree tree', trees = [tree, tree'] ∧ tree.id = id ∧ tree'.id = id' := by
  obtain ⟨tree, rest, rfl, hid, hrest⟩ := List.map_eq_cons_iff.mp hids.symm
  obtain ⟨tree', rfl, hid'⟩ := exists_single_of_ids hrest.symm
  exact ⟨tree, tree', rfl, hid, hid'⟩

end Tree

/-! ### Codes -/

/-- A statement list. -/
inductive Code
  | nil
  /-- A statement without bodies. -/
  | step (statement : Tree) (rest : Code)
  | branch (statement : Tree) (thenBody elseBody rest : Code)
  | loop (statement : Tree) (body rest : Code)

namespace Code

/-- The statements of the list itself. -/
def heads : Code → List NodeId
  | nil => []
  | step statement rest | branch statement _ _ rest | loop statement _ rest =>
    statement.id :: rest.heads

/-- All statements in the order of the text, a control statement before those of its bodies. -/
def statements : Code → List Tree
  | nil => []
  | step statement rest => statement :: rest.statements
  | branch statement thenBody elseBody rest =>
    statement :: (thenBody.statements ++ elseBody.statements ++ rest.statements)
  | loop statement body rest => statement :: (body.statements ++ rest.statements)

/-- The ids of all statements and of everything below them. -/
def ids (code : Code) : List NodeId :=
  code.statements.flatMap Tree.ids

@[simp] theorem ids_nil : ids nil = [] :=
  rfl

@[simp] theorem ids_step (statement : Tree) (rest : Code) :
    ids (step statement rest) = statement.ids ++ rest.ids :=
  rfl

@[simp] theorem ids_branch (statement : Tree) (thenBody elseBody rest : Code) :
    ids (branch statement thenBody elseBody rest) =
      statement.ids ++ (thenBody.ids ++ elseBody.ids ++ rest.ids) := by
  simp [ids, statements]

@[simp] theorem ids_loop (statement : Tree) (body rest : Code) :
    ids (loop statement body rest) = statement.ids ++ (body.ids ++ rest.ids) := by
  simp [ids, statements]

/-- Puts statements without bodies in front of a list. -/
def prepend (statements : List Tree) (code : Code) : Code :=
  statements.foldr step code

@[simp] theorem prepend_nil (code : Code) : prepend [] code = code :=
  rfl

@[simp] theorem prepend_cons (first : Tree) (rest : List Tree) (code : Code) :
    prepend (first :: rest) code = step first (prepend rest code) :=
  rfl

@[simp] theorem heads_prepend (statements : List Tree) (code : Code) :
    (prepend statements code).heads = statements.map Tree.id ++ code.heads := by
  induction statements with
  | nil => rfl
  | cons first rest ih => simp [heads, ih]

@[simp] theorem statements_prepend (statements : List Tree) (code : Code) :
    (prepend statements code).statements = statements ++ code.statements := by
  induction statements with
  | nil => rfl
  | cons first rest ih => simp [Code.statements, ih]

/-- The statements that own lists refer to the codes that stand for them. -/
def Shaped : Code → Prop
  | nil => True
  | step statement rest => statement.node.lists statement.id = [] ∧ rest.Shaped
  | branch statement thenBody elseBody rest =>
    (∃ condition, statement.node = .branch condition thenBody.heads elseBody.heads) ∧
      thenBody.Shaped ∧ elseBody.Shaped ∧ rest.Shaped
  | loop statement body rest => statement.node = .loop body.heads ∧ body.Shaped ∧ rest.Shaped

theorem shaped_prepend {statements : List Tree} {code : Code} :
    (prepend statements code).Shaped ↔
      (∀ statement ∈ statements, statement.node.lists statement.id = []) ∧ code.Shaped := by
  induction statements with
  | nil => simp
  | cons first rest ih => simp only [prepend_cons, Shaped, ih, List.forall_mem_cons, and_assoc]

end Code

/-! ### What an arena holds -/

namespace Program

variable {program other : Program}

theorem node_eq_ok_iff {id : NodeId} {node : Node} :
    program.node id = .ok node ↔ program.nodes[id.index]? = some node :=
  fetch_eq_ok_iff

theorem variableOf_eq_ok_iff {id : VarId} {declared : Variable} :
    program.variableOf id = .ok declared ↔ program.vars[id.index]? = some declared :=
  fetch_eq_ok_iff

theorem lt_size_of_node {id : NodeId} {node : Node} (hnode : program.node id = .ok node) :
    id.index < program.nodes.size := by
  rw [node_eq_ok_iff, Array.getElem?_eq_some_iff] at hnode
  exact hnode.choose

theorem list_thenBody {owner condition : NodeId} {thenBody elseBody : List NodeId}
    (hnode : program.node owner = .ok (.branch condition thenBody elseBody)) :
    program.list (.thenBody owner) = .ok thenBody := by
  rw [list.eq_def]
  dsimp only
  rw [hnode]
  rfl

theorem list_elseBody {owner condition : NodeId} {thenBody elseBody : List NodeId}
    (hnode : program.node owner = .ok (.branch condition thenBody elseBody)) :
    program.list (.elseBody owner) = .ok elseBody := by
  rw [list.eq_def]
  dsimp only
  rw [hnode]
  rfl

theorem list_loopBody {owner : NodeId} {body : List NodeId}
    (hnode : program.node owner = .ok (.loop body)) :
    program.list (.loopBody owner) = .ok body := by
  rw [list.eq_def]
  dsimp only
  rw [hnode]
  rfl

end Program

namespace Node

/-- The statements of a list that a node owns. -/
def bodyAt (node : Node) (ref : ListRef) : List NodeId :=
  match ref, node with
  | .thenBody _, .branch _ thenBody _ => thenBody
  | .elseBody _, .branch _ _ elseBody => elseBody
  | .loopBody _, .loop body => body
  | _, _ => []

/-- The node with other statements in a list that it owns. -/
def withBody (node : Node) (ref : ListRef) (statements : List NodeId) : Node :=
  match ref, node with
  | .thenBody _, .branch condition _ elseBody => .branch condition statements elseBody
  | .elseBody _, .branch condition thenBody _ => .branch condition thenBody statements
  | .loopBody _, .loop _ => .loop statements
  | _, node => node

theorem children_withBody (node : Node) (ref : ListRef) (statements : List NodeId) :
    (node.withBody ref statements).children = node.children := by
  unfold withBody
  split <;> rfl

end Node

namespace Program

variable {program other : Program}

theorem list_of_mem_lists {owner : NodeId} {node : Node} {ref : ListRef}
    (hnode : program.node owner = .ok node) (href : ref ∈ node.lists owner) :
    program.list ref = .ok (node.bodyAt ref) := by
  cases node with
  | branch condition thenBody elseBody =>
    simp only [Node.lists, List.mem_cons, List.not_mem_nil, or_false] at href
    rcases href with rfl | rfl
    · exact list_thenBody hnode
    · exact list_elseBody hnode
  | loop body =>
    obtain rfl := List.mem_singleton.mp href
    exact list_loopBody hnode
  | _ => simp [Node.lists] at href

theorem setList_of_mem_lists {owner : NodeId} {node : Node} {ref : ListRef}
    (hnode : program.node owner = .ok node)
    (href : ref ∈ node.lists owner) (statements : List NodeId) :
    program.setList ref statements =
      .ok (program.setNode owner (node.withBody ref statements)) := by
  cases node with
  | branch condition thenBody elseBody =>
    simp only [Node.lists, List.mem_cons, List.not_mem_nil, or_false] at href
    rcases href with rfl | rfl <;> rw [setList.eq_def] <;> dsimp only <;> rw [hnode] <;> rfl
  | loop body =>
    obtain rfl := List.mem_singleton.mp href
    rw [setList.eq_def]
    dsimp only
    rw [hnode]
    rfl
  | _ => simp [Node.lists] at href

/-- The arena holds a tree. -/
inductive Draws (program : Program) : Tree → Prop
  | intro {id : NodeId} {node : Node} {children : List Tree} (hnode : program.node id = .ok node)
    (hchildren : node.children = children.map Tree.id)
    (hbelow : ∀ child ∈ children, Draws program child) : Draws program ⟨id, node, children⟩

/-- The arena holds the statements of a code and the lists that they own. -/
inductive DrawsCode (program : Program) : Code → Prop
  | nil : DrawsCode program .nil
  | step {statement : Tree} {rest : Code} (hstatement : program.Draws statement)
    (hlists : statement.node.lists statement.id = []) (hrest : DrawsCode program rest) :
    DrawsCode program (.step statement rest)
  | branch {statement : Tree} {condition : NodeId} {thenBody elseBody rest : Code}
    (hstatement : program.Draws statement)
    (hnode : statement.node = .branch condition thenBody.heads elseBody.heads)
    (hthen : DrawsCode program thenBody) (helse : DrawsCode program elseBody)
    (hrest : DrawsCode program rest) : DrawsCode program (.branch statement thenBody elseBody rest)
  | loop {statement : Tree} {body rest : Code} (hstatement : program.Draws statement)
    (hnode : statement.node = .loop body.heads) (hbody : DrawsCode program body)
    (hrest : DrawsCode program rest) : DrawsCode program (.loop statement body rest)

namespace Draws

theorem node_eq {tree : Tree} (hdraws : program.Draws tree) :
    program.node tree.id = .ok tree.node := by
  cases hdraws with
  | intro hnode _ _ => exact hnode

theorem children_eq {tree : Tree} (hdraws : program.Draws tree) :
    tree.node.children = tree.children.map Tree.id := by
  cases hdraws with
  | intro _ hchildren _ => exact hchildren

theorem child {tree child : Tree} (hdraws : program.Draws tree) (hchild : child ∈ tree.children) :
    program.Draws child := by
  cases hdraws with
  | intro _ _ hbelow => exact hbelow child hchild

theorem subtree {tree : Tree} (hdraws : program.Draws tree) :
    ∀ below ∈ tree.subtrees, program.Draws below := by
  induction hdraws with
  | intro hnode hchildren hbelow ih =>
    exact Tree.forall_subtrees_mk.mpr ⟨.intro hnode hchildren hbelow, ih⟩

theorem congr {tree : Tree} (hdraws : program.Draws tree)
    (hsame : ∀ id ∈ tree.ids, other.node id = program.node id) : other.Draws tree := by
  induction hdraws with
  | @intro id node children hnode hchildren hbelow ih =>
    refine .intro ?_ hchildren fun child hchild => ih child hchild fun below hmem => ?_
    · rw [hsame id (Tree.id_mem_ids _), hnode]
    · have hchild : child ∈ (⟨id, node, children⟩ : Tree).children := hchild
      exact hsame below (Tree.ids_subset_of_mem_children hchild hmem)

theorem lt_size {tree : Tree} (hdraws : program.Draws tree) {id : NodeId} (hid : id ∈ tree.ids) :
    id.index < program.nodes.size := by
  obtain ⟨below, hbelow, rfl⟩ := List.mem_map.mp hid
  exact lt_size_of_node (hdraws.subtree below hbelow).node_eq

/-- The id of a tree decides the tree. -/
theorem unique {tree : Tree} (hdraws : program.Draws tree) :
    ∀ {tree' : Tree}, program.Draws tree' → tree.id = tree'.id → tree = tree' := by
  induction hdraws with
  | @intro id node children hnode hchildren hbelow ih =>
    rintro ⟨id', node', children'⟩ hdraws' rfl
    have hsame : node = node' := by simpa using hnode.symm.trans hdraws'.node_eq
    subst hsame
    have hids : children.map Tree.id = children'.map Tree.id :=
      hchildren.symm.trans hdraws'.children_eq
    have hrows : children = children' := by
      refine List.ext_getElem (by simpa using congrArg List.length hids)
        fun place hleft hright => ?_
      refine ih _ (List.getElem_mem hleft) (hdraws'.child (List.getElem_mem hright)) ?_
      have := congrArg (fun row => row[place]?) hids
      simpa [hleft, hright] using this
    rw [hrows]

end Draws

/-- A node can be reached from another one through operands only. -/
inductive Below (program : Program) : NodeId → NodeId → Prop
  | refl (id : NodeId) : Below program id id
  | step {top middle bottom : NodeId} {node : Node} (hmiddle : Below program top middle)
    (hnode : program.node middle = .ok node) (hbottom : bottom ∈ node.children) :
    Below program top bottom

theorem Draws.below_of_mem_subtrees {tree : Tree} (hdraws : program.Draws tree) :
    ∀ below ∈ tree.subtrees, program.Below tree.id below.id := by
  suffices hbelow : ∀ top, program.Below top tree.id → ∀ below ∈ tree.subtrees,
      program.Below top below.id from hbelow tree.id (.refl _)
  induction hdraws with
  | @intro id node children hnode hchildren _ ih =>
    intro top htop
    refine Tree.forall_subtrees_mk.mpr ⟨htop, fun child hchild => ih child hchild top ?_⟩
    exact .step htop hnode (hchildren ▸ List.mem_map_of_mem hchild)

theorem Draws.exists_subtree_of_below {tree : Tree} (hdraws : program.Draws tree) {id : NodeId}
    (hbelow : program.Below tree.id id) : ∃ below ∈ tree.subtrees, below.id = id := by
  generalize htop : tree.id = top at hbelow
  induction hbelow with
  | refl => exact ⟨tree, tree.mem_subtrees_self, htop⟩
  | step _ hnode hbottom ih =>
    obtain ⟨middle, hmiddle, rfl⟩ := ih
    have hdraw := hdraws.subtree middle hmiddle
    obtain rfl := Except.ok.inj (hdraw.node_eq.symm.trans hnode)
    rw [hdraw.children_eq] at hbottom
    obtain ⟨child, hchild, rfl⟩ := List.mem_map.mp hbottom
    exact ⟨child, Tree.subtrees_subset_of_mem hmiddle
      (Tree.mem_subtrees_of_mem_children hchild child.mem_subtrees_self), rfl⟩

/-- Pairwise different ids of an arena are no more than its nodes. -/
theorem length_le_size_of_nodup {ids : List NodeId} (hnodup : ids.Nodup)
    (hrange : ∀ id ∈ ids, id.index < program.nodes.size) : ids.length ≤ program.nodes.size := by
  have hindices : (ids.map NodeId.index).Nodup := by
    refine hnodup.map fun left right hsame => ?_
    cases left
    cases right
    exact congrArg NodeId.mk hsame
  have hsubset : ids.map NodeId.index ⊆ List.range program.nodes.size := by
    intro index hindex
    obtain ⟨id, hid, rfl⟩ := List.mem_map.mp hindex
    exact List.mem_range.mpr (hrange id hid)
  simpa using (hindices.subperm hsubset).length_le

namespace Draws

theorem length_ids_le {tree : Tree} (hdraws : program.Draws tree) (hnodup : tree.ids.Nodup) :
    tree.ids.length ≤ program.nodes.size :=
  length_le_size_of_nodup hnodup fun _ hid => hdraws.lt_size hid

theorem height_le {tree : Tree} (hdraws : program.Draws tree) (hnodup : tree.ids.Nodup) :
    tree.height ≤ program.nodes.size :=
  tree.height_le_length_ids.trans (hdraws.length_ids_le hnodup)

/-- No way down a tree of the arena comes by one node twice, also if parts of the tree are
shared. -/
theorem height_le_size {tree : Tree} (hdraws : program.Draws tree) :
    tree.height ≤ program.nodes.size := by
  have hparts (step : Fin tree.height) : ∃ below ∈ tree.subtrees, below.height = step.val + 1 :=
    Tree.exists_subtree_of_height (Nat.succ_pos _) step.isLt
  choose part hpart hheight using hparts
  let place (step : Fin tree.height) : Fin program.nodes.size :=
    ⟨(part step).id.index, lt_size_of_node (hdraws.subtree _ (hpart step)).node_eq⟩
  have hinjective : Function.Injective place := by
    intro step step' hsame
    have hid : (part step).id = (part step').id := congrArg NodeId.mk (Fin.val_eq_of_eq hsame)
    have hpartSame := (hdraws.subtree _ (hpart step)).unique (hdraws.subtree _ (hpart step')) hid
    have hheights := hheight step
    rw [hpartSame, hheight step'] at hheights
    exact Fin.ext (Nat.succ.inj hheights).symm
  simpa using Fintype.card_le_of_injective place hinjective

end Draws

namespace DrawsCode

theorem statement {code : Code} (hdraws : program.DrawsCode code) :
    ∀ statement ∈ code.statements, program.Draws statement := by
  induction hdraws with
  | nil => simp [Code.statements]
  | step hstatement _ _ ih => simpa [Code.statements] using ⟨hstatement, ih⟩
  | branch hstatement _ _ _ _ ihthen ihelse ihrest =>
    simp only [Code.statements, List.mem_cons, List.mem_append]
    rintro statement (rfl | (hmem | hmem) | hmem)
    exacts [hstatement, ihthen _ hmem, ihelse _ hmem, ihrest _ hmem]
  | loop hstatement _ _ _ ihbody ihrest =>
    simp only [Code.statements, List.mem_cons, List.mem_append]
    rintro statement (rfl | hmem | hmem)
    exacts [hstatement, ihbody _ hmem, ihrest _ hmem]

theorem shaped {code : Code} (hdraws : program.DrawsCode code) : code.Shaped := by
  induction hdraws with
  | nil => trivial
  | step _ hlists _ ih => exact ⟨hlists, ih⟩
  | branch _ hnode _ _ _ ihthen ihelse ihrest => exact ⟨⟨_, hnode⟩, ihthen, ihelse, ihrest⟩
  | loop _ hnode _ _ ihbody ihrest => exact ⟨hnode, ihbody, ihrest⟩

theorem of_shaped {code : Code} (hshaped : code.Shaped)
    (hstatements : ∀ statement ∈ code.statements, program.Draws statement) :
    program.DrawsCode code := by
  induction code with
  | nil => exact .nil
  | step statement rest ih =>
    obtain ⟨hfirst, hrest⟩ := List.forall_mem_cons.mp hstatements
    exact .step hfirst hshaped.1 (ih hshaped.2 hrest)
  | branch statement thenBody elseBody rest ihthen ihelse ih =>
    obtain ⟨hfirst, hlater⟩ := List.forall_mem_cons.mp hstatements
    obtain ⟨hbodies, hrest⟩ := List.forall_mem_append.mp hlater
    obtain ⟨hthen, helse⟩ := List.forall_mem_append.mp hbodies
    obtain ⟨⟨condition, hnode⟩, hthenShaped, helseShaped, hrestShaped⟩ := hshaped
    exact .branch hfirst hnode (ihthen hthenShaped hthen) (ihelse helseShaped helse)
      (ih hrestShaped hrest)
  | loop statement body rest ihbody ih =>
    obtain ⟨hfirst, hlater⟩ := List.forall_mem_cons.mp hstatements
    obtain ⟨hbody, hrest⟩ := List.forall_mem_append.mp hlater
    obtain ⟨hnode, hbodyShaped, hrestShaped⟩ := hshaped
    exact .loop hfirst hnode (ihbody hbodyShaped hbody) (ih hrestShaped hrest)

theorem congr {code : Code} (hdraws : program.DrawsCode code)
    (hsame : ∀ id ∈ code.ids, other.node id = program.node id) : other.DrawsCode code := by
  induction hdraws with
  | nil => exact .nil
  | step hstatement hlists _ ih =>
    simp only [Code.ids_step, List.mem_append] at hsame
    exact .step (hstatement.congr fun id hid => hsame id (Or.inl hid)) hlists
      (ih fun id hid => hsame id (Or.inr hid))
  | branch hstatement hnode _ _ _ ihthen ihelse ihrest =>
    simp only [Code.ids_branch, List.mem_append] at hsame
    exact .branch (hstatement.congr fun id hid => hsame id (Or.inl hid)) hnode
      (ihthen fun id hid => hsame id (Or.inr (Or.inl (Or.inl hid))))
      (ihelse fun id hid => hsame id (Or.inr (Or.inl (Or.inr hid))))
      (ihrest fun id hid => hsame id (Or.inr (Or.inr hid)))
  | loop hstatement hnode _ _ ihbody ihrest =>
    simp only [Code.ids_loop, List.mem_append] at hsame
    exact .loop (hstatement.congr fun id hid => hsame id (Or.inl hid)) hnode
      (ihbody fun id hid => hsame id (Or.inr (Or.inl hid)))
      (ihrest fun id hid => hsame id (Or.inr (Or.inr hid)))

theorem lt_size {code : Code} (hdraws : program.DrawsCode code)
    {id : NodeId} (hid : id ∈ code.ids) :
    id.index < program.nodes.size := by
  obtain ⟨statement, hmem, hid⟩ := List.mem_flatMap.mp hid
  exact (hdraws.statement statement hmem).lt_size hid

end DrawsCode

end Program

end ShaderIR
