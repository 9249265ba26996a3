import ShaderIR.Graph.Range

/-!
Graphs of basic blocks. A block is a row of ranges with the sets of blocks before and after it, kept
in ascending order. Ids stay what they are when blocks are merged: the place of a block that has
become part of another one stays empty.
-/

set_option autoImplicit false

namespace ShaderIR

/-- Names a block of a graph. -/
structure BlockId where
  index : Nat
deriving DecidableEq, Repr, Inhabited

instance : ToString BlockId :=
  ⟨fun id => "bb" ++ toString id.index⟩

/-- Sets of blocks, in ascending order. -/
abbrev BlockSet :=
  List BlockId

namespace BlockSet

/-- Adds a block to a set. -/
def insert (block : BlockId) : BlockSet → BlockSet
  | [] => [block]
  | first :: rest =>
    if block.index < first.index then block :: first :: rest
    else if block = first then first :: rest
    else first :: insert block rest

/-- Takes a block out of a set. -/
def remove (block : BlockId) (set : BlockSet) : BlockSet :=
  set.filter fun member => member != block

/-- The set of some blocks. -/
def ofList (blocks : List BlockId) : BlockSet :=
  blocks.foldl (fun set block => insert block set) []

@[simp] theorem mem_insert {block added : BlockId} {set : BlockSet} :
    block ∈ insert added set ↔ block = added ∨ block ∈ set := by
  induction set with
  | nil => simp [insert]
  | cons first rest ih =>
    unfold insert
    split
    · simp
    · split
      · next same => simp [same]
      · simp only [List.mem_cons, ih]
        constructor
        · rintro (h | h | h) <;> simp [h]
        · rintro (h | h | h) <;> simp [h]

@[simp] theorem mem_remove {block removed : BlockId} {set : BlockSet} :
    block ∈ remove removed set ↔ block ∈ set ∧ block ≠ removed := by
  simp [remove]

end BlockSet

/-- A basic block. -/
structure BasicBlock where
  id : BlockId
  /-- In execution order. A range after the first one opens a body of the conditional that ends the
  range before it, or follows it in the same list. -/
  ranges : List BlockRange
  predecessors : BlockSet := []
  successors : BlockSet := []
deriving DecidableEq, Repr, Inhabited

namespace BasicBlock

/-- The range in which a block begins. -/
def entry? (block : BasicBlock) : Option BlockRange :=
  block.ranges.head?

/-- The range in which a block ends. -/
def exit? (block : BasicBlock) : Option BlockRange :=
  block.ranges.getLast?

/-- The statements of a block, in execution order. -/
def statements (block : BasicBlock) (program : Program) : Except Crash (List NodeId) := do
  return (← block.ranges.mapM fun range => range.statements program).flatten

end BasicBlock

/-- The basic blocks of one function. -/
structure Graph where
  slots : Array (Option BasicBlock)
  /-- Set when a pass has changed the program through this graph. -/
  changed : Bool := false
deriving DecidableEq, Repr, Inhabited

namespace Graph

/-- One block for each range, without any edges. -/
def ofRanges (ranges : List BlockRange) : Graph where
  slots := (ranges.mapIdx fun index range => some { id := ⟨index⟩, ranges := [range] }).toArray

/-- The blocks that are left, by ascending id. -/
def blocks (graph : Graph) : List BasicBlock :=
  graph.slots.toList.filterMap id

/-- The ids of the blocks that are left. -/
def ids (graph : Graph) : List BlockId :=
  graph.blocks.map BasicBlock.id

/-- The number of blocks that are left. -/
def size (graph : Graph) : Nat :=
  graph.blocks.length

/-- The block of an id. -/
def block (graph : Graph) (id : BlockId) : Except Crash BasicBlock := do
  match ← fetch graph.slots id.index with
  | some block => return block
  | none => throw .blockMerged

/-- Overwrites the place of an id. -/
def setSlot (graph : Graph) (id : BlockId) (slot : Option BasicBlock) : Graph :=
  { graph with slots := graph.slots.setIfInBounds id.index slot }

/-- Changes the block of an id. -/
def modifyBlock (graph : Graph) (id : BlockId) (change : BasicBlock → BasicBlock) :
    Except Crash Graph := do
  let block ← graph.block id
  return graph.setSlot id (some (change block))

/-- The blocks that begin in a list. -/
def blocksIn (graph : Graph) (ref : ListRef) : List BasicBlock :=
  graph.blocks.filter fun block => block.entry?.any fun range => range.list == ref

end Graph

end ShaderIR
