import ShaderIR.Proofs.Numbering.Labels
import ShaderIR.Proofs.Pass.Conditions
import ShaderIR.Proofs.Pass.Scoping

/-!
Value numbers without their order. A `Symbol` says what a value is made of, down to what the
variables held before the block and to values that writes have made. A `Ledger` keeps what was
written to each variable in symbols, and `Ledger.performed` says what a statement makes of it: its
operands are numbered (`Ledger.numbered`), and then places are written (`Ledger.affected`).
Numbering an operand does not change what anything is made of (`Ledger.symbols_numbered`), so that
the order of the operands of a statement does not matter here.
-/

set_option autoImplicit false

namespace ShaderIR

/-! ### Symbols -/

/-- What a value is made of. -/
inductive Symbol
  /-- What a variable held before the block. -/
  | entry (id : VarId)
  /-- What came of a write in the block, by the number of the write. -/
  | made (event : Nat)
  | computed (head : Head) (operands : List (List Symbol))

/-- A symbol is made of what a variable held before the block. -/
inductive Symbol.Mentions (id : VarId) : Symbol → Prop
  | entry : Mentions id (.entry id)
  | computed {head : Head} {operands : List (List Symbol)} {operand : List Symbol} {symbol : Symbol}
    (hoperand : operand ∈ operands) (hsymbol : symbol ∈ operand) (hmentions : Mentions id symbol) :
    Mentions id (.computed head operands)

/-- The last full write in a history with all partial ones after it. -/
noncomputable def Symbol.latest (partials history : List Symbol) : List Symbol :=
  open scoped Classical in
  history.drop
    (history.length - ((history.reverse.takeWhile fun symbol => symbol ∈ partials).length + 1))

theorem Symbol.latest_singleton (partials : List Symbol) (symbol : Symbol) :
    latest partials [symbol] = [symbol] := by
  unfold latest
  rw [List.length_singleton, Nat.sub_eq_zero_of_le (by omega), List.drop_zero]

theorem Symbol.latest_subset (partials history : List Symbol) : latest partials history ⊆ history :=
  List.drop_subset _ _

theorem Node.Alike.head?_eq {node node' : Node} (halike : node.Alike node') :
    node.head? = node'.head? := by
  cases halike with
  | texture op channel _ _ _ hshape =>
    exact congrArg (some ∘ Head.texture op channel) (TextureOperands.packedShape_eq_of_shape hshape)
  | _ => simp_all [Node.head?]

/-! ### Ledgers -/

/-- What is known in the middle of a block. -/
structure Ledger where
  /-- The writes to each variable, oldest first, behind what it held before the block if that was
  read first. -/
  history : VarId → List Symbol := fun id => [.entry id]
  /-- The variables that have been read or written. -/
  touched : Set VarId := ∅
  /-- What was stored by, or stands for, a write to a part of a variable. -/
  partials : List Symbol := []
  /-- How many values have been made by writes. -/
  made : Nat := 0
  /-- Nodes that may be shared. -/
  noted : Set (NodeId × Symbol) := ∅
  /-- What has been computed, whether it may be shared or not. -/
  computed : Set Symbol := ∅

/-- The symbols that have come up in the block. -/
def Ledger.Lists (ledger : Ledger) : Symbol → Prop
  | .entry id => id ∈ ledger.touched ∧ .entry id ∈ ledger.history id
  | .made event => event < ledger.made
  | .computed head operands => .computed head operands ∈ ledger.computed

/-- What a variable reads as. -/
noncomputable def Ledger.read (ledger : Ledger) (id : VarId) : List Symbol :=
  Symbol.latest ledger.partials (ledger.history id)

/-- What a node is made of, given what its children are made of. -/
noncomputable def Node.symbols (ledger : Ledger) (node : Node) (children : List (List Symbol)) :
    List Symbol :=
  match node with
  | .variable id => ledger.read id
  | node => node.head?.toList.map fun head => .computed head children

namespace Tree

/-- What an operand is made of. -/
noncomputable def symbols (ledger : Ledger) : Tree → List Symbol :=
  fold (Node.symbols ledger)

variable {ledger ledger' : Ledger} {tree : Tree}

theorem symbols_mk (ledger : Ledger) (id : NodeId) (node : Node) (children : List Tree) :
    symbols ledger ⟨id, node, children⟩ = node.symbols ledger (children.map (symbols ledger)) :=
  fold_mk _ id node children

theorem symbols_variable (ledger : Ledger) (id : NodeId) (read : VarId) (children : List Tree) :
    symbols ledger ⟨id, .variable read, children⟩ = ledger.read read := by
  rw [symbols_mk, Node.symbols]

theorem symbols_of_head? {head : Head} (hhead : tree.node.head? = some head) :
    tree.symbols ledger = [.computed head (tree.children.map (symbols ledger))] := by
  obtain ⟨id, node, children⟩ := tree
  dsimp only at hhead
  rw [symbols_mk]
  cases node <;> simp_all [Node.symbols, Node.head?]

/-- An operand reads a variable, or it computes something. -/
theorem eq_variable_or_head? (hlinked : tree.Linked) (hoperand : tree.node.isStatement = false) :
    (∃ read, tree = ⟨tree.id, .variable read, []⟩) ∨ ∃ head, tree.node.head? = some head := by
  have hchildren := hlinked tree tree.mem_subtrees_self
  obtain ⟨id, node, children⟩ := tree
  dsimp only at hchildren hoperand ⊢
  cases node with
  | «variable» read =>
    obtain rfl := eq_nil_of_ids hchildren
    exact Or.inl ⟨read, rfl⟩
  | constant | index | field | swizzle | apply | texture => exact Or.inr ⟨_, rfl⟩
  | _ => cases hoperand

/-- What an operand is made of depends on what the variables read as. -/
theorem symbols_congr (hread : ∀ id ∈ tree.reads, ledger'.read id = ledger.read id) :
    tree.symbols ledger' = tree.symbols ledger := by
  induction tree using Tree.induction with
  | step id node children ih =>
    have hchildren : children.map (symbols ledger') = children.map (symbols ledger) :=
      List.map_congr_left fun child hchild => ih child hchild fun read hmem =>
        hread read (mem_reads_mk.mpr (Or.inr ⟨child, hchild, hmem⟩))
    rw [symbols_mk, symbols_mk, hchildren]
    cases node with
    | «variable» read => exact hread read (mem_reads_mk.mpr (Or.inl rfl))
    | _ => rfl

/-- A variable that has not been touched is one of those that an operand which reads it is made
of. -/
theorem exists_mentions {read : VarId} (hlinked : tree.Linked)
    (hoperand : ∀ below ∈ tree.subtrees, below.node.isStatement = false) (hread : read ∈ tree.reads)
    (hhistory : ledger.history read = [.entry read]) :
    ∃ symbol ∈ tree.symbols ledger, symbol.Mentions read := by
  induction tree using Tree.induction with
  | step id node children ih =>
    rcases mem_reads_mk.mp hread with rfl | ⟨child, hchild, hbelow⟩
    · rw [symbols_variable, Ledger.read, hhistory, Symbol.latest_singleton]
      exact ⟨_, List.mem_singleton_self _, .entry⟩
    · have hmem : child ∈ (⟨id, node, children⟩ : Tree).children := hchild
      obtain ⟨symbol, hsymbol, hmentions⟩ := ih child hchild (hlinked.child hmem)
        (fun below hbelow => hoperand below (mem_subtrees_of_mem_children hmem hbelow)) hbelow
      rcases eq_variable_or_head? hlinked (hoperand _ (mem_subtrees_self _))
        with ⟨_, hvariable⟩ | ⟨head, hhead⟩
      · obtain rfl : children = [] := congrArg Tree.children hvariable
        cases hchild
      · rw [symbols_of_head? hhead]
        exact ⟨_, List.mem_singleton_self _,
          .computed (List.mem_map_of_mem hchild) hsymbol hmentions⟩

end Tree

/-! ### Operands -/

/-- Whether a write under a mask covers only a part of the variable of a place. -/
def Program.writesPart (program : Program) (target : Tree) (mask : UInt8) : Bool :=
  match target.node with
  | .variable written => mask != 0 &&
      program.vars[written.index]?.all fun declared => mask != declared.ty.fullMask
  | _ => true

theorem Program.writesPart_eq {program : Program} {target : Tree} {mask : UInt8} {part : Bool}
    (hdraws : program.Draws target) (hpart : program.isPartialWrite target.id mask = .ok part) :
    program.writesPart target mask = part := by
  obtain ⟨id, node, children⟩ := target
  unfold isPartialWrite at hpart
  rw [hdraws.node_eq] at hpart
  unfold writesPart
  cases node with
  | «variable» written =>
    change (do return mask != 0 && mask != (← program.variableOf written).ty.fullMask) = _ at hpart
    cases hdeclared : program.variableOf written with
    | error crash =>
      rw [hdeclared] at hpart
      cases hpart
    | ok declared =>
      rw [hdeclared] at hpart
      simpa [variableOf_eq_ok_iff.mp hdeclared] using Except.ok.inj hpart
  | _ => exact Except.ok.inj hpart

/-- A statement that is a call which leaves its arguments alone. -/
def Program.MakesPureCall (program : Program) (statement : Tree) : Prop :=
  ∃ callee arguments result signature, statement.node = .call callee arguments result ∧
    program.signature callee = .ok signature ∧ signature.isPure = true

theorem Program.StoresCall.makesPureCall {program : Program} {statement : Tree}
    (hcall : program.StoresCall statement) : program.MakesPureCall statement := by
  obtain ⟨callee, arguments, target, signature, hcall⟩ := hcall
  exact ⟨callee, arguments, some target, signature, hcall⟩

/-- The operands of a statement that are values. -/
def Program.passedBy (program : Program) (statement : Tree) : List Tree :=
  ((program.parts .value statement).filter fun item => item.1 = .value).map Prod.snd

namespace Ledger

variable (program : Program) (eligible : NodeKinds) (ledger : Ledger)

/-- The nodes in some operands that may be shared, with what they are made of. -/
def notes (trees : List Tree) : Set (NodeId × Symbol) :=
  { note | ∃ tree ∈ trees, ∃ below ∈ tree.subtrees, eligible.contains below.node.kind = true ∧
    below.node.head?.isSome = true ∧ below.id = note.1 ∧ below.symbols ledger = [note.2] }

/-- What is computed in some operands. -/
def computes (trees : List Tree) : Set Symbol :=
  { symbol | ∃ tree ∈ trees, ∃ below ∈ tree.subtrees, below.node.head?.isSome = true ∧
    below.symbols ledger = [symbol] }

/-- What is known when more nodes have been noted and more has been computed. -/
def noting (notes : Set (NodeId × Symbol)) (symbols : Set Symbol) : Ledger :=
  { ledger with noted := ledger.noted ∪ notes, computed := ledger.computed ∪ symbols }

/-- What is known when operands have been numbered. -/
def numbered (trees : List Tree) : Ledger :=
  { ledger with
    touched := ledger.touched ∪ { id | ∃ tree ∈ trees, id ∈ tree.reads }
    noted := ledger.noted ∪ ledger.notes eligible trees
    computed := ledger.computed ∪ ledger.computes trees }

/-! ### Statements -/

/-- What the result of a call is made of that leaves its arguments alone. -/
noncomputable def returned (statement : Tree) : List Symbol :=
  statement.node.head?.toList.map fun head =>
    .computed head ((program.passedBy statement).map (Tree.symbols ledger))

/-- The statement as a node that may be shared, if it is a call that leaves its arguments alone and
its result is used. -/
noncomputable def calls (statement : Tree) : Set (NodeId × Symbol) :=
  { note | ledger.returned program statement = [note.2] ∧ note.1 = statement.id ∧
    eligible.contains statement.node.kind = true ∧ program.StoresCall statement }

/-- The result of a call that leaves its arguments alone, whether it is used or not. -/
noncomputable def results (statement : Tree) : Set Symbol :=
  { symbol | ledger.returned program statement = [symbol] ∧ program.MakesPureCall statement }

/-- Writes a part of a variable or all of it. What is stored in a part counts as partial then, and
the write itself makes a new value. -/
noncomputable def write (part : Bool) (root : VarId) (value : List Symbol) : Ledger :=
  open scoped Classical in
  if part then { ledger with
    history := Function.update ledger.history root (ledger.history root ++ [.made ledger.made])
    touched := insert root ledger.touched
    partials := .made ledger.made :: (value ++ ledger.partials)
    made := ledger.made + 1 }
  else { ledger with
    history := Function.update ledger.history root
      ((if root ∈ ledger.touched then ledger.history root else []) ++ value)
    touched := insert root ledger.touched }

/-- Stores a value through a place. -/
noncomputable def stored (target : Tree) (mask : UInt8) (value : List Symbol) : Ledger :=
  match target.root? with
  | some root => ledger.write (program.writesPart target mask) root value
  | none => ledger

/-- Makes a value that is not known. -/
def make : Ledger :=
  { ledger with made := ledger.made + 1 }

/-- Stores unknown values, each of its own, through places. -/
noncomputable def overwritten (targets : List Tree) : Ledger :=
  targets.foldl (fun between target =>
    between.make.stored program target 0 [.made between.made]) ledger

/-- What is known when the places of a statement have been written. -/
noncomputable def affected (statement : Tree) : Ledger :=
  match statement.node with
  | .assign _ _ mask => (program.writtenBy statement).foldl (fun between target =>
      between.stored program target mask
        ((program.passedBy statement).flatMap (Tree.symbols ledger))) ledger
  | .call callee _ result =>
    match program.signature callee with
    | .ok signature =>
      if signature.isPure then (program.writtenBy statement).foldl (fun between target =>
        between.stored program target 0 (ledger.returned program statement)) ledger
      else
        -- the call is a value of its own, which comes after the arguments and before the result
        let arguments := (program.writtenBy statement).length - result.toList.length
        (ledger.overwritten program ((program.writtenBy statement).take arguments)).make.overwritten
          program ((program.writtenBy statement).drop arguments)
    | .error _ => ledger
  | _ => ledger

/-- What is known after a statement. -/
noncomputable def performed (statement : Tree) : Ledger :=
  ((ledger.numbered eligible (Role.forest (program.parts .value statement))).noting
    (ledger.calls program eligible statement) (ledger.results program statement)).affected
      program statement

/-- What is known after some statements. -/
noncomputable def performedAll (statements : List Tree) : Ledger :=
  statements.foldl (fun between statement => between.performed program eligible statement) ledger

variable {program eligible ledger}

@[simp] theorem symbols_numbered (trees : List Tree) :
    Tree.symbols (ledger.numbered eligible trees) = Tree.symbols ledger :=
  funext fun _ => Tree.symbols_congr fun _ _ => rfl

@[simp] theorem symbols_noting (notes : Set (NodeId × Symbol)) (symbols : Set Symbol) :
    Tree.symbols (ledger.noting notes symbols) = Tree.symbols ledger :=
  funext fun _ => Tree.symbols_congr fun _ _ => rfl

theorem notes_append (first second : List Tree) :
    ledger.notes eligible (first ++ second) = ledger.notes eligible first ∪
      ledger.notes eligible second := by
  ext note
  simp only [notes, List.mem_append, Set.mem_ofPred_eq, Set.mem_union, or_and_right, exists_or]

theorem computes_append (first second : List Tree) :
    ledger.computes (first ++ second) = ledger.computes first ∪ ledger.computes second := by
  ext symbol
  simp only [computes, List.mem_append, Set.mem_ofPred_eq, Set.mem_union, or_and_right, exists_or]

@[simp] theorem notes_numbered (trees more : List Tree) :
    (ledger.numbered eligible trees).notes eligible more = ledger.notes eligible more := by
  simp only [notes, symbols_numbered]

@[simp] theorem computes_numbered (trees more : List Tree) :
    (ledger.numbered eligible trees).computes more = ledger.computes more := by
  simp only [computes, symbols_numbered]

theorem numbered_nil : ledger.numbered eligible [] = ledger := by
  simp [numbered, notes, computes]

theorem numbered_append (first second : List Tree) :
    ledger.numbered eligible (first ++ second) =
      (ledger.numbered eligible first).numbered eligible second := by
  have htouched : { id | ∃ tree ∈ first ++ second, id ∈ tree.reads } =
      { id | ∃ tree ∈ first, id ∈ tree.reads } ∪ { id | ∃ tree ∈ second, id ∈ tree.reads } := by
    ext id
    simp only [List.mem_append, Set.mem_ofPred_eq, Set.mem_union, or_and_right, exists_or]
  rw [numbered, htouched, notes_append, computes_append, ← Set.union_assoc, ← Set.union_assoc,
    ← Set.union_assoc, numbered, notes_numbered, computes_numbered]
  rfl

theorem numbered_perm {trees trees' : List Tree} (hperm : trees.Perm trees') :
    ledger.numbered eligible trees = ledger.numbered eligible trees' := by
  simp only [numbered, notes, computes, hperm.mem_iff]

theorem notes_variable (id : NodeId) (read : VarId) :
    ledger.notes eligible [⟨id, .variable read, []⟩] = ∅ := by
  ext note
  simp [notes, Tree.subtrees_mk, Node.head?]

theorem computes_variable (id : NodeId) (read : VarId) :
    ledger.computes [⟨id, .variable read, []⟩] = ∅ := by
  ext symbol
  simp [computes, Tree.subtrees_mk, Node.head?]

/-- A computation is noted behind its operands if those of its kind may be shared. -/
theorem notes_of_head? {tree : Tree} {head : Head} (hhead : tree.node.head? = some head) :
    ledger.notes eligible [tree] = ledger.notes eligible tree.children ∪
      { note | eligible.contains tree.node.kind = true ∧
        note = (tree.id, .computed head (tree.children.map (Tree.symbols ledger))) } := by
  have hsymbols : tree.symbols ledger = _ := Tree.symbols_of_head? hhead
  ext note
  constructor
  · rintro ⟨found, hfound, below, hbelow, heligible, hsome, hid, hspelled⟩
    obtain rfl := List.mem_singleton.mp hfound
    rcases Tree.eq_or_mem_of_mem_subtrees hbelow with rfl | ⟨child, hchild, hbelow⟩
    · exact Or.inr ⟨heligible,
        Prod.ext hid.symm (List.singleton_injective (hspelled.symm.trans hsymbols))⟩
    · exact Or.inl ⟨child, hchild, below, hbelow, heligible, hsome, hid, hspelled⟩
  · rintro (⟨child, hchild, below, hbelow, hnoted⟩ | ⟨heligible, rfl⟩)
    · exact ⟨_, List.mem_singleton_self _, below,
        Tree.mem_subtrees_of_mem_children hchild hbelow, hnoted⟩
    · exact ⟨_, List.mem_singleton_self _, _, Tree.mem_subtrees_self _,
        heligible, by rw [hhead]; rfl, rfl, hsymbols⟩

/-- A computation is made of what its operands are made of. -/
theorem computes_of_head? {tree : Tree} {head : Head} (hhead : tree.node.head? = some head) :
    ledger.computes [tree] = ledger.computes tree.children ∪
      {.computed head (tree.children.map (Tree.symbols ledger))} := by
  have hsymbols : tree.symbols ledger = _ := Tree.symbols_of_head? hhead
  ext symbol
  constructor
  · rintro ⟨found, hfound, below, hbelow, hsome, hspelled⟩
    obtain rfl := List.mem_singleton.mp hfound
    rcases Tree.eq_or_mem_of_mem_subtrees hbelow with rfl | ⟨child, hchild, hbelow⟩
    · exact Or.inr (List.singleton_injective (hspelled.symm.trans hsymbols))
    · exact Or.inl ⟨child, hchild, below, hbelow, hsome, hspelled⟩
  · rintro (⟨child, hchild, below, hbelow, hcomputed⟩ | rfl)
    · exact ⟨_, List.mem_singleton_self _, below, Tree.mem_subtrees_of_mem_children hchild hbelow,
        hcomputed⟩
    · exact ⟨_, List.mem_singleton_self _, _, Tree.mem_subtrees_self _, by rw [hhead]; rfl,
        hsymbols⟩

/-- A variable that is read has been touched then. -/
theorem numbered_variable (id : NodeId) (read : VarId) :
    ledger.numbered eligible [⟨id, .variable read, []⟩] =
      { ledger with touched := insert read ledger.touched } := by
  have htouched :
      { id' | ∃ tree ∈ [(⟨id, .variable read, []⟩ : Tree)], id' ∈ tree.reads } = {read} := by
    ext id'
    simp [Tree.mem_reads_mk, eq_comm]
  rw [numbered, htouched, notes_variable, computes_variable, Set.union_empty, Set.union_empty,
    Set.union_comm, Set.singleton_union]

/-- What is known after a computation. -/
theorem numbered_of_head? {tree : Tree} {head : Head} (hhead : tree.node.head? = some head) :
    ledger.numbered eligible [tree] = (ledger.numbered eligible tree.children).noting
      { note | eligible.contains tree.node.kind = true ∧
        note = (tree.id, .computed head (tree.children.map (Tree.symbols ledger))) }
      {.computed head (tree.children.map (Tree.symbols ledger))} := by
  have htouched : { id | ∃ found ∈ [tree], id ∈ found.reads } =
      { id | ∃ child ∈ tree.children, id ∈ child.reads } := by
    obtain ⟨id, node, children⟩ := tree
    ext read
    have hnode : node ≠ .variable read := by
      rintro rfl
      cases hhead
    simp [Tree.mem_reads_mk, hnode]
  rw [numbered, htouched, notes_of_head? hhead, computes_of_head? hhead, ← Set.union_assoc,
    ← Set.union_assoc]
  rfl

end Ledger

namespace Program

variable {program : Program} {eligible : NodeKinds} {ledger : Ledger}

/-- What a call with written arguments writes to has no indices in it. -/
def Unindexed (program : Program) (statement : Tree) : Prop :=
  ∀ callee arguments result signature, statement.node = .call callee arguments result →
    program.signature callee = .ok signature → signature.isPure = false →
      ∀ target ∈ program.writtenBy statement, target.indices = []

/-- A call leaves values as they are, and writes to places. -/
theorem passedBy_of_isPure (id : NodeId) {callee : SignatureId}
    {arguments : List Tree} (result : Option Tree) {signature : Signature}
    (hsignature : program.signature callee = .ok signature) (hpure : signature.isPure = true)
    (hlength : signature.params.length = arguments.length) :
    program.passedBy ⟨id, .call callee (arguments.map Tree.id) (result.map Tree.id),
      arguments ++ result.toList⟩ = arguments ∧
      program.writtenBy ⟨id, .call callee (arguments.map Tree.id) (result.map Tree.id),
        arguments ++ result.toList⟩ = result.toList := by
  have hparts := parts_of_isPure id result hsignature hpure hlength
  unfold passedBy writtenBy
  rw [hparts]
  cases result <;> simp [List.filter_append, List.filter_map, Function.comp_def]

theorem writtenBy_effectful (id : NodeId) {callee : SignatureId}
    {arguments : List Tree} (result : Option Tree)
    {signature : Signature} (hsignature : program.signature callee = .ok signature)
    (hlength : signature.params.length = arguments.length) :
    program.writtenBy
      ⟨id, .call callee (arguments.map Tree.id) (result.map Tree.id), arguments ++ result.toList⟩ =
      ((signature.params.zip arguments).filter fun passed => passed.1.mode.writes).map Prod.snd ++
        result.toList := by
  rw [writtenBy_call hsignature hlength, Signature.roles, List.zip_map_left, List.filter_map,
    List.map_map]
  refine congrArg₂ _ (congrArg₂ _ rfl (List.filter_congr fun passed _ => ?_)) rfl
  cases hmode : passed.1.mode <;> simp [hmode, ParamMode.writes]

end Program

namespace Ledger

variable {program : Program} {eligible : NodeKinds} {ledger : Ledger}

@[simp] theorem notes_noting (notes : Set (NodeId × Symbol)) (symbols : Set Symbol)
    (trees : List Tree) :
    (ledger.noting notes symbols).notes eligible trees = ledger.notes eligible trees := by
  simp only [Ledger.notes, symbols_noting]

@[simp] theorem computes_noting (notes : Set (NodeId × Symbol)) (symbols : Set Symbol)
    (trees : List Tree) : (ledger.noting notes symbols).computes trees = ledger.computes trees := by
  simp only [Ledger.computes, symbols_noting]

theorem numbered_noting (notes : Set (NodeId × Symbol)) (symbols : Set Symbol)
    (trees : List Tree) : (ledger.noting notes symbols).numbered eligible trees =
      (ledger.numbered eligible trees).noting notes symbols := by
  unfold numbered
  rw [notes_noting, computes_noting]
  simp only [noting, Set.union_right_comm]

theorem noting_empty : ledger.noting ∅ ∅ = ledger := by
  rw [noting, Set.union_empty, Set.union_empty]

theorem noting_computed {symbol : Symbol} (hcomputed : symbol ∈ ledger.computed) :
    ledger.noting ∅ {symbol} = ledger := by
  rw [noting, Set.union_empty,
    Set.union_eq_self_of_subset_right (Set.singleton_subset_iff.mpr hcomputed)]

theorem noting_noting (notes more : Set (NodeId × Symbol)) (symbols others : Set Symbol) :
    (ledger.noting notes symbols).noting more others =
      ledger.noting (notes ∪ more) (symbols ∪ others) := by
  simp only [noting, Set.union_assoc]

theorem calls_eq_empty {statement : Tree} (hcall : ¬ program.StoresCall statement) :
    ledger.calls program eligible statement = ∅ :=
  Set.eq_empty_of_forall_notMem fun _ hnote => hcall hnote.2.2.2

theorem results_eq_empty {statement : Tree} (hcall : ¬ program.MakesPureCall statement) :
    ledger.results program statement = ∅ :=
  Set.eq_empty_of_forall_notMem fun _ hsymbol => hcall hsymbol.2

/-- A statement that is no call, or one that writes arguments, is not noted. -/
theorem performed_eq {statement : Tree} (hcall : ¬ program.MakesPureCall statement) :
    ledger.performed program eligible statement =
      (ledger.numbered eligible (Role.forest (program.parts .value statement))).affected program
        statement := by
  rw [performed, calls_eq_empty (mt Program.StoresCall.makesPureCall hcall), results_eq_empty hcall,
    noting_empty]

theorem stored_eq {target : Tree} {mask : UInt8} {part : Bool} {root : VarId} {value : List Symbol}
    (hdraws : program.Draws target) (hroot : target.root? = some root)
    (hpart : program.isPartialWrite target.id mask = .ok part) :
    ledger.stored program target mask value = ledger.write part root value := by
  rw [stored, hroot, Program.writesPart_eq hdraws hpart]

theorem performed_assign (id : NodeId) (target value : Tree) (mask : UInt8) :
    ledger.performed program eligible ⟨id, .assign target.id value.id mask, [value, target]⟩ =
      (ledger.numbered eligible (value :: target.indices)).stored program target mask
        (value.symbols ledger) := by
  have hcall : ¬ program.MakesPureCall ⟨id, .assign target.id value.id mask, [value, target]⟩ :=
    fun hcall => by
      obtain ⟨_, _, _, _, hnode, -⟩ := hcall
      cases hnode
  rw [performed_eq hcall, affected]
  simp [Program.writtenBy, Program.passedBy, Program.parts, Role.forest, Role.operands]

theorem performed_of_isPure (id : NodeId) {callee : SignatureId}
    {arguments : List Tree} (result : Option Tree) {signature : Signature}
    (hsignature : program.signature callee = .ok signature) (hpure : signature.isPure = true)
    (hlength : signature.params.length = arguments.length) :
    ledger.performed program eligible ⟨id,
          .call callee (arguments.map Tree.id) (result.map Tree.id), arguments ++ result.toList⟩ =
      result.toList.foldl (fun between target => between.stored program target 0
          [.computed (.call callee) (arguments.map (Tree.symbols ledger))])
        ((ledger.numbered eligible (arguments ++ result.toList.flatMap Tree.indices)).noting
          { note | result.isSome = true ∧ eligible.contains .call = true ∧
            note = (id, .computed (.call callee) (arguments.map (Tree.symbols ledger))) }
          {.computed (.call callee) (arguments.map (Tree.symbols ledger))}) := by
  obtain ⟨hpassed, hwritten⟩ := Program.passedBy_of_isPure id result hsignature hpure hlength
  have hforest : Role.forest (program.parts .value
        ⟨id, .call callee (arguments.map Tree.id) (result.map Tree.id),
      arguments ++ result.toList⟩) = arguments ++ result.toList.flatMap Tree.indices := by
    rw [Program.parts_of_isPure id result hsignature hpure hlength, Role.forest,
      List.flatMap_append, List.flatMap_map, List.flatMap_map]
    simp [Role.operands]
  have hreturned :
      ledger.returned program ⟨id, .call callee (arguments.map Tree.id) (result.map Tree.id),
      arguments ++ result.toList⟩ =
      [.computed (.call callee) (arguments.map (Tree.symbols ledger))] := by
    simp only [returned, Node.head?, Option.toList_some, List.map_cons, List.map_nil, hpassed]
  have hcalls :
      ledger.calls program eligible ⟨id, .call callee (arguments.map Tree.id) (result.map Tree.id),
      arguments ++ result.toList⟩ = { note | result.isSome = true ∧ eligible.contains .call = true ∧
        note = (id, .computed (.call callee) (arguments.map (Tree.symbols ledger))) } := by
    ext ⟨id', symbol⟩
    have hstores :
        program.StoresCall ⟨id, .call callee (arguments.map Tree.id) (result.map Tree.id),
        arguments ++ result.toList⟩ ↔ result.isSome = true := by
      refine ⟨fun hstores => ?_, fun hsome => ?_⟩
      · obtain ⟨_, _, target, _, hnode, -⟩ := hstores
        rw [← Option.isSome_map, (Node.call.inj hnode).2.2]
        rfl
      · obtain ⟨target, rfl⟩ := Option.isSome_iff_exists.mp hsome
        exact ⟨callee, _, target.id, signature, rfl, hsignature, hpure⟩
    simp only [calls, hreturned, hstores, Node.kind, Set.mem_ofPred_eq, List.cons.injEq, and_true,
      Prod.mk.injEq]
    tauto
  have hresults :
      ledger.results program ⟨id, .call callee (arguments.map Tree.id) (result.map Tree.id),
      arguments ++ result.toList⟩ =
      {.computed (.call callee) (arguments.map (Tree.symbols ledger))} := by
    ext symbol
    have hmakes :
        program.MakesPureCall ⟨id, .call callee (arguments.map Tree.id) (result.map Tree.id),
        arguments ++ result.toList⟩ := ⟨callee, _, _, signature, rfl, hsignature, hpure⟩
    simp only [results, hreturned, hmakes, Set.mem_ofPred_eq, List.cons.injEq, and_true,
      Set.mem_singleton_iff, eq_comm]
  rw [performed, hcalls, hresults, hforest, affected]
  simp only [hsignature, if_pos hpure, hwritten, returned, Node.head?, Option.toList_some,
    List.map_cons, List.map_nil, hpassed, symbols_noting, symbols_numbered]

theorem performed_effectful (id : NodeId) {callee : SignatureId}
    {arguments : List Tree} (result : Option Tree) {signature : Signature}
    (hsignature : program.signature callee = .ok signature) (hpure : signature.isPure = false)
    (hlength : signature.params.length = arguments.length) (hunindexed : program.Unindexed
      ⟨id, .call callee (arguments.map Tree.id) (result.map Tree.id), arguments ++ result.toList⟩) :
    ledger.performed program eligible ⟨id,
          .call callee (arguments.map Tree.id) (result.map Tree.id), arguments ++ result.toList⟩ =
      ((ledger.numbered eligible (((signature.params.zip arguments).filter
          fun passed => passed.1.mode = .input).map Prod.snd)).overwritten program
        (((signature.params.zip arguments).filter fun passed => passed.1.mode.writes).map
          Prod.snd)).make.overwritten program result.toList := by
  have hwritten := Program.writtenBy_effectful id result hsignature hlength
  have hindices := hunindexed callee _ _ signature rfl hsignature hpure
  have hcall :
      ¬ program.MakesPureCall ⟨id, .call callee (arguments.map Tree.id) (result.map Tree.id),
      arguments ++ result.toList⟩ := fun hcall => by
        obtain ⟨_, _, _, found, hnode, hfound, hpure'⟩ := hcall
        obtain ⟨rfl, -, -⟩ := Node.call.inj hnode
        obtain rfl := Except.ok.inj (hsignature.symm.trans hfound)
        exact Bool.false_ne_true (hpure.symm.trans hpure')
  have hforest :
      (Role.forest (program.parts .value
            ⟨id, .call callee (arguments.map Tree.id) (result.map Tree.id),
      arguments ++ result.toList⟩)).Perm (((signature.params.zip arguments).filter fun passed =>
            passed.1.mode = .input).map Prod.snd) := by
    refine ((Program.perm_parts_call id result hsignature hlength).flatMap_right _).trans
      (.of_eq ?_)
    rw [List.flatMap_append, ← Role.forest, Role.forest_map_value, List.flatMap_map,
      List.flatMap_eq_nil_iff.mpr, List.append_nil]
    exact fun target htarget => hindices target (hwritten ▸ htarget)
  have hcount : (result.map Tree.id).toList.length = result.toList.length := by cases result <;> rfl
  rw [performed_eq hcall, numbered_perm hforest, affected]
  simp only [hsignature, hpure, Bool.false_eq_true, if_false, hwritten, hcount, List.length_append,
    Nat.add_sub_cancel, List.take_left, List.drop_left]

/-- A statement that only reads. -/
theorem performed_operands {statement : Tree} (hsound : program.Sound statement)
    (hwrites : statement.node.kind ≠ .assign ∧ statement.node.kind ≠ .call) :
    ledger.performed program eligible statement = ledger.numbered eligible statement.children := by
  have hcall : ¬ program.MakesPureCall statement := fun hcall => by
    obtain ⟨_, _, _, _, hnode, -⟩ := hcall
    exact hwrites.2 (by rw [hnode, Node.kind])
  rw [performed_eq hcall]
  cases hsound with
  | assign => exact absurd rfl hwrites.1
  | call => exact absurd rfl hwrites.2
  | _ => simp [affected, Program.parts, Role.forest, Role.operands, List.flatMap_map]

theorem performedAll_cons (first : Tree) (rest : List Tree) :
    ledger.performedAll program eligible (first :: rest) =
      (ledger.performed program eligible first).performedAll program eligible rest :=
  rfl

theorem performedAll_append (first second : List Tree) :
    ledger.performedAll program eligible (first ++ second) =
      (ledger.performedAll program eligible first).performedAll program eligible second :=
  List.foldl_append ..

/-! ### Touched variables -/

theorem touched_write (ledger : Ledger) (part : Bool) (root : VarId) (value : List Symbol) :
    (ledger.write part root value).touched = insert root ledger.touched := by
  cases part <;> rfl

theorem touched_subset_stored (ledger : Ledger) (program : Program)
    (target : Tree) (mask : UInt8) (value : List Symbol) :
    ledger.touched ⊆ (ledger.stored program target mask value).touched := by
  unfold stored
  split
  · rw [touched_write]
    exact Set.subset_insert _ _
  · exact Set.Subset.refl _

/-- What a step keeps touched, a row of such steps does. -/
theorem touched_subset_foldl {step : Ledger → Tree → Ledger}
    (hstep : ∀ ledger target, ledger.touched ⊆ (step ledger target).touched) (targets : List Tree)
    (ledger : Ledger) : ledger.touched ⊆ (targets.foldl step ledger).touched := by
  induction targets generalizing ledger with
  | nil => exact Set.Subset.refl _
  | cons target targets ih => exact (hstep ledger target).trans (ih _)

theorem touched_subset_overwritten (ledger : Ledger) (program : Program) (targets : List Tree) :
    ledger.touched ⊆ (ledger.overwritten program targets).touched :=
  touched_subset_foldl
    (fun ledger target => touched_subset_stored ledger.make program target _ _) _ _

theorem touched_subset_affected (ledger : Ledger) (program : Program) (statement : Tree) :
    ledger.touched ⊆ (ledger.affected program statement).touched := by
  have hstored (mask : UInt8) (value : List Symbol) (targets : List Tree) (ledger : Ledger) :=
    touched_subset_foldl (fun ledger target =>
      ledger.touched_subset_stored program target mask value) targets ledger
  unfold affected
  split
  · exact hstored _ _ _ ledger
  · split
    · split
      · exact hstored _ _ _ ledger
      · exact (ledger.touched_subset_overwritten program _).trans
          (touched_subset_overwritten (make _) program _)
    · exact Set.Subset.refl _
  · exact Set.Subset.refl _

theorem touched_subset_performed (ledger : Ledger)
    (program : Program) (eligible : NodeKinds) (statement : Tree) :
    ledger.touched ⊆ (ledger.performed program eligible statement).touched := by
  have hnumbered : ledger.touched ⊆
      ((ledger.numbered eligible (Role.forest (program.parts .value statement))).noting
        (ledger.calls program eligible statement) (ledger.results program statement)).touched :=
    Set.subset_union_left
  exact hnumbered.trans (touched_subset_affected _ program statement)

theorem touched_subset_performedAll (ledger : Ledger)
    (program : Program) (eligible : NodeKinds) (statements : List Tree) :
    ledger.touched ⊆ (ledger.performedAll program eligible statements).touched := by
  induction statements generalizing ledger with
  | nil => exact Set.Subset.refl _
  | cons statement statements ih =>
    exact (ledger.touched_subset_performed program eligible statement).trans (ih _)

/-! ### Noted nodes -/

@[simp] theorem noted_write (ledger : Ledger) (part : Bool) (root : VarId) (value : List Symbol) :
    (ledger.write part root value).noted = ledger.noted := by
  cases part <;> rfl

@[simp] theorem noted_stored (ledger : Ledger) (program : Program)
    (target : Tree) (mask : UInt8) (value : List Symbol) :
    (ledger.stored program target mask value).noted = ledger.noted := by
  unfold stored
  split <;> simp

theorem noted_foldl {step : Ledger → Tree → Ledger}
    (hstep : ∀ ledger target, (step ledger target).noted = ledger.noted) (targets : List Tree)
    (ledger : Ledger) : (targets.foldl step ledger).noted = ledger.noted := by
  induction targets generalizing ledger with
  | nil => rfl
  | cons target targets ih => exact (ih _).trans (hstep ledger target)

theorem noted_overwritten (ledger : Ledger) (program : Program) (targets : List Tree) :
    (ledger.overwritten program targets).noted = ledger.noted :=
  noted_foldl (fun ledger target => noted_stored ledger.make program target _ _) _ _

/-- Writing places notes nothing. -/
theorem noted_affected (ledger : Ledger) (program : Program) (statement : Tree) :
    (ledger.affected program statement).noted = ledger.noted := by
  have hstored (mask : UInt8) (value : List Symbol) (targets : List Tree) (ledger : Ledger) :=
    noted_foldl (fun ledger target => ledger.noted_stored program target mask value) targets ledger
  unfold affected
  split
  · exact hstored _ _ _ ledger
  · split
    · split
      · exact hstored _ _ _ ledger
      · exact (noted_overwritten (make _) program _).trans (ledger.noted_overwritten program _)
    · rfl
  · rfl

/-- A statement notes nodes in its operands, and itself. -/
theorem noted_performed (ledger : Ledger) (program : Program)
    (eligible : NodeKinds) (statement : Tree) :
    (ledger.performed program eligible statement).noted = ledger.noted ∪ ledger.notes eligible
        (Role.forest (program.parts .value statement)) ∪ ledger.calls program eligible statement :=
  noted_affected _ program statement

theorem noted_subset_performedAll (ledger : Ledger) (program : Program)
    (eligible : NodeKinds) (statements : List Tree) :
    ledger.noted ⊆ (ledger.performedAll program eligible statements).noted := by
  induction statements generalizing ledger with
  | nil => exact Set.Subset.refl _
  | cons statement statements ih =>
    have hfirst : ledger.noted ⊆ (ledger.performed program eligible statement).noted := by
      rw [noted_performed, Set.union_assoc]
      exact Set.subset_union_left
    exact hfirst.trans (ih _)

end Ledger

end ShaderIR
