import ShaderIR.Pass.Sharing
import ShaderIR.Proofs.Numbering.Records

/-!
Ledgers of a block before and after sharing. `Ledger.Holds` says that the old variables have the
same histories in both and that the temporaries in memory hold the symbols of their numbers; then
operands that read temporaries for what was taken out of them are made of the same
(`Ledger.Mirrored`). A variable that only a removed operand has read has been touched all the same,
since what the temporary holds is made of it (`Ledger.Grounded`). `Ledger.Mirrors` is what stays
true from statement to statement, and writes keep it (`Ledger.Mirrors.write`).
-/

set_option autoImplicit false

namespace ShaderIR

/-! ### Touched variables -/

namespace Ledger

/-- All variables that a symbol is made of have been touched. -/
def Covers (ledger : Ledger) (symbol : Symbol) : Prop :=
  ∀ read, symbol.Mentions read → read ∈ ledger.touched

/-- What was written is made of variables that have been touched. -/
structure Grounded (ledger : Ledger) : Prop where
  untouched : ∀ id ∉ ledger.touched, ledger.history id = [.entry id]
  covers : ∀ id ∈ ledger.touched, ∀ symbol ∈ ledger.history id, ledger.Covers symbol

variable {program : Program} {eligible : NodeKinds} {ledger ledger' : Ledger} {symbol : Symbol}
  {tree : Tree}

theorem Covers.mono (hcovers : ledger.Covers symbol) (htouched : ledger.touched ⊆ ledger'.touched) :
    ledger'.Covers symbol :=
  fun read hmentions => htouched (hcovers read hmentions)

theorem covers_made (ledger : Ledger) (event : Nat) : ledger.Covers (.made event) :=
  fun _ hmentions => by cases hmentions

theorem covers_computed {rows : List (List Symbol)}
    (hrows : ∀ row ∈ rows, ∀ symbol ∈ row, ledger.Covers symbol)
    (head : Head) : ledger.Covers (.computed head rows) := fun read hmentions => by
  cases hmentions with
  | computed hoperand hbelow hmentions => exact hrows _ hoperand _ hbelow read hmentions

theorem grounded_nil : Grounded {} where
  untouched _ _ := rfl
  covers _ hid := absurd hid (Set.notMem_empty _)

namespace Grounded

variable (hgrounded : ledger.Grounded)

include hgrounded

/-- What is made of touched variables only covers them. -/
theorem covers_symbols (hreads : ∀ read ∈ tree.reads, read ∈ ledger.touched) :
    ∀ symbol ∈ tree.symbols ledger, ledger.Covers symbol := by
  induction tree using Tree.induction with
  | step id node children ih =>
    intro symbol hsymbol
    rw [Tree.symbols_mk] at hsymbol
    have hchildren :
        ∀ row ∈ children.map (Tree.symbols ledger), ∀ symbol ∈ row, ledger.Covers symbol :=
      List.forall_mem_map.mpr fun child hchild => ih child hchild fun read hread =>
        hreads read (Tree.mem_reads_mk.mpr (Or.inr ⟨child, hchild, hread⟩))
    have hcomputed (hsymbol : symbol ∈ node.head?.toList.map fun head => Symbol.computed head
        (children.map (Tree.symbols ledger))) : ledger.Covers symbol := by
      obtain ⟨head, -, rfl⟩ := List.mem_map.mp hsymbol
      exact covers_computed hchildren head
    cases node with
    | «variable» id =>
      exact hgrounded.covers id (hreads id (Tree.mem_reads_mk.mpr (Or.inl rfl))) symbol
        (Symbol.latest_subset _ _ hsymbol)
    | _ => exact hcomputed hsymbol

/-- More variables have been touched. -/
theorem of_touched (hhistory : ledger'.history = ledger.history)
    (htouched : ledger.touched ⊆ ledger'.touched) :
    ledger'.Grounded where
  untouched id hid := hhistory ▸ hgrounded.untouched id fun hmem => hid (htouched hmem)
  covers id hid symbol hsymbol := by
    rw [hhistory] at hsymbol
    by_cases hmem : id ∈ ledger.touched
    · exact (hgrounded.covers id hmem symbol hsymbol).mono htouched
    · rw [hgrounded.untouched id hmem, List.mem_singleton] at hsymbol
      subst hsymbol
      intro read hmentions
      cases hmentions
      exact hid

/-- A variable has a new history. -/
theorem setHistory {root : VarId} {symbols : List Symbol}
    (hhistory : ledger'.history = Function.update ledger.history root symbols)
    (htouched : ledger'.touched = insert root ledger.touched)
    (hsymbols : ∀ symbol ∈ symbols, ledger'.Covers symbol) :
    ledger'.Grounded where
  untouched id hid := by
    obtain ⟨hne, hid⟩ := not_or.mp (htouched ▸ hid)
    rw [hhistory, Function.update_of_ne hne]
    exact hgrounded.untouched id hid
  covers id hid symbol hsymbol := by
    by_cases hsame : id = root
    · rw [hhistory, hsame, Function.update_self] at hsymbol
      exact hsymbols symbol hsymbol
    · rw [hhistory, Function.update_of_ne hsame] at hsymbol
      rw [htouched] at hid
      exact (hgrounded.covers id (Set.mem_of_mem_insert_of_ne hid hsame) symbol hsymbol).mono
        (htouched ▸ Set.subset_insert _ _)

/-- Something that is made of touched variables has been written. -/
theorem write (part : Bool) {root : VarId} {value : List Symbol}
    (hvalue : ∀ symbol ∈ value, ledger.Covers symbol) :
    (ledger.write part root value).Grounded := by
  have hinsert : Grounded { ledger with touched := insert root ledger.touched } :=
    hgrounded.of_touched rfl (Set.subset_insert _ _)
  have hhistory : ∀ symbol ∈ ledger.history root,
      Covers { ledger with touched := insert root ledger.touched } symbol :=
    hinsert.covers root (Set.mem_insert _ _)
  cases part with
  | true =>
    refine hgrounded.setHistory rfl rfl (List.forall_mem_append.mpr ⟨hhistory, ?_⟩)
    exact List.forall_mem_singleton.mpr (covers_made _ _)
  | false =>
    refine hgrounded.setHistory rfl rfl
      (List.forall_mem_append.mpr ⟨fun symbol hsymbol => ?_, fun symbol hsymbol => ?_⟩)
    · split at hsymbol
      · exact hhistory symbol hsymbol
      · cases hsymbol
    · exact (hvalue symbol hsymbol).mono (Set.subset_insert _ _)

end Grounded

/-! ### Old variables and temporaries -/

/-- The old variables have the same histories, and what is in memory is held by temporaries. -/
structure Holds (bound : Nat) (naming : Naming) (memory : Temporaries) (ledger ledger' : Ledger) :
    Prop where
  grounded : ledger'.Grounded
  history : ∀ id : VarId, id.index < bound → ledger'.history id = ledger.history id
  partials : ledger'.partials = ledger.partials
  held : ∀ entry ∈ memory, entry.2 ∈ ledger'.touched ∧ ∃ symbol, naming entry.1 = some symbol ∧
    ledger'.history entry.2 = [symbol]

variable {bound : Nat} {naming : Naming} {memory memory' : Temporaries}

namespace Holds

variable (hholds : Holds bound naming memory' ledger ledger')

include hholds

theorem mono (hmemory : memory ⊆ memory') : Holds bound naming memory ledger ledger' :=
  ⟨hholds.grounded, hholds.history, hholds.partials,
    fun entry hentry => hholds.held entry (hmemory hentry)⟩

theorem read {id : VarId} (hid : id.index < bound) : ledger'.read id = ledger.read id := by
  rw [Ledger.read, Ledger.read, hholds.history id hid, hholds.partials]

/-- A temporary reads as what its number names. -/
theorem read_held {number : ValueNumber} {temporary : VarId}
    {symbol : Symbol} (hentry : (number, temporary) ∈ memory')
    (hnamed : naming number = some symbol) : ledger'.read temporary = [symbol] := by
  obtain ⟨-, found, hfound, hhistory⟩ := hholds.held _ hentry
  obtain rfl := Option.some.inj (hnamed.symm.trans hfound)
  rw [Ledger.read, hhistory, Symbol.latest_singleton]

/-- A variable that an operand reads has been touched if all have been that the operand is made
of. -/
theorem mem_touched (hlinked : tree.Linked)
    (hoperand : ∀ below ∈ tree.subtrees, below.node.isStatement = false)
    {read : VarId} (hread : read ∈ tree.reads) (hlt : read.index < bound)
    (hmentions : ∀ symbol ∈ tree.symbols ledger, symbol.Mentions read → read ∈ ledger'.touched) :
    read ∈ ledger'.touched := by
  by_contra huntouched
  have hhistory : ledger.history read = [.entry read] :=
    (hholds.history read hlt).symm.trans (hholds.grounded.untouched read huntouched)
  obtain ⟨symbol, hsymbol, hfound⟩ := Tree.exists_mentions hlinked hoperand hread hhistory
  exact huntouched (hmentions symbol hsymbol hfound)

/-- What a temporary holds is made of variables that have been touched. -/
theorem covers_held {number : ValueNumber} {temporary : VarId}
    {symbol : Symbol} (hentry : (number, temporary) ∈ memory')
    (hnamed : naming number = some symbol) : ledger'.Covers symbol := by
  obtain ⟨htouched, found, hfound, hhistory⟩ := hholds.held _ hentry
  obtain rfl := Option.some.inj (hnamed.symm.trans hfound)
  exact hholds.grounded.covers temporary htouched
    symbol (by rw [hhistory]; exact List.mem_singleton_self _)

/-- A read of a temporary touches and notes nothing new. -/
theorem numbered_read {number : ValueNumber} {temporary : VarId}
    (hentry : (number, temporary) ∈ memory') (leaf : NodeId) :
    ledger'.numbered eligible [⟨leaf, .variable temporary, []⟩] = ledger' := by
  rw [numbered_variable, Set.insert_eq_of_mem (hholds.held _ hentry).1]

end Holds

/-! ### Operands -/

/-- The variables that operands read have been touched, their nodes have been noted, and what they
compute has been computed. -/
structure Knows (ledger : Ledger) (eligible : NodeKinds) (trees : List Tree) : Prop where
  touched : ∀ tree ∈ trees, ∀ read ∈ tree.reads, read ∈ ledger.touched
  noted : ledger.notes eligible trees ⊆ ledger.noted
  computed : ledger.computes trees ⊆ ledger.computed

theorem knows_numbered (ledger : Ledger) (eligible : NodeKinds) (trees : List Tree) :
    (ledger.numbered eligible trees).Knows eligible trees where
  touched tree htree read hread := Or.inr ⟨tree, htree, hread⟩
  noted := notes_numbered trees trees ▸ Set.subset_union_right
  computed := by
    rw [computes_numbered]
    exact Set.subset_union_right

theorem Knows.noting {trees : List Tree} (hknows : ledger.Knows eligible trees)
    (notes : Set (NodeId × Symbol)) (symbols : Set Symbol) :
    (ledger.noting notes symbols).Knows eligible trees where
  touched := hknows.touched
  noted := notes_noting notes symbols trees ▸ hknows.noted.trans Set.subset_union_left
  computed := computes_noting notes symbols trees ▸ hknows.computed.trans Set.subset_union_left

theorem Knows.of_subtrees {trees more : List Tree} (hknows : ledger.Knows eligible more)
    (hsubset : ∀ tree ∈ trees, ∃ other ∈ more, tree.subtrees ⊆ other.subtrees) :
    ledger.Knows eligible trees where
  touched tree htree read hread := by
    obtain ⟨other, hother, hsubset⟩ := hsubset tree htree
    obtain ⟨below, hbelow, hnode⟩ := Tree.mem_reads_iff.mp hread
    exact hknows.touched other hother read (Tree.mem_reads_iff.mpr ⟨below, hsubset hbelow, hnode⟩)
  noted := fun _ ⟨tree, htree, below, hbelow, hnoted⟩ => by
    obtain ⟨other, hother, hsubset⟩ := hsubset tree htree
    exact hknows.noted ⟨other, hother, below, hsubset hbelow, hnoted⟩
  computed := fun _ ⟨tree, htree, below, hbelow, hcomputed⟩ => by
    obtain ⟨other, hother, hsubset⟩ := hsubset tree htree
    exact hknows.computed ⟨other, hother, below, hsubset hbelow, hcomputed⟩

theorem Knows.subset {trees more : List Tree}
    (hknows : ledger.Knows eligible more) (hsubset : trees ⊆ more) :
    ledger.Knows eligible trees :=
  hknows.of_subtrees fun tree htree => ⟨tree, hsubset htree, List.Subset.refl _⟩

theorem Knows.children (hknows : ledger.Knows eligible [tree]) :
    ledger.Knows eligible tree.children :=
  hknows.of_subtrees fun _ hchild =>
    ⟨tree, List.mem_singleton_self _,
      fun _ hbelow => Tree.mem_subtrees_of_mem_children hchild hbelow⟩

/-- What has become of an operand is made of the same, notes and computes nothing new, and touches
the same old variables. -/
structure Mirrored (eligible : NodeKinds) (bound : Nat) (ledger ledger' : Ledger)
    (trees trees' : List Tree) : Prop where
  symbols : trees'.map (Tree.symbols ledger') = trees.map (Tree.symbols ledger)
  notes : ledger'.notes eligible trees' ⊆ ledger.notes eligible trees
  computes : ledger'.computes trees' ⊆ ledger.computes trees
  touches : (∀ tree' ∈ trees', ∀ read ∈ tree'.reads, read ∈ ledger'.touched) →
    ∀ tree ∈ trees, ∀ read ∈ tree.reads, read ∈ ledger'.touched
  reads : ∀ tree' ∈ trees', ∀ read ∈ tree'.reads, read ∈ ledger'.touched ∨
    read.index < bound ∧ ∃ tree ∈ trees, read ∈ tree.reads

namespace Mirrored

variable {trees trees' more more' : List Tree} {leaf : NodeId} {number : ValueNumber}
  {temporary : VarId}

theorem nil (eligible : NodeKinds) (bound : Nat) (ledger ledger' : Ledger) :
    Mirrored eligible bound ledger ledger' [] [] := by
  refine ⟨rfl, fun note hnote => ?_, fun symbol hsymbol => ?_, by simp, by simp⟩
  · obtain ⟨_, htree, -⟩ := hnote
    cases htree
  · obtain ⟨_, htree, -⟩ := hsymbol
    cases htree

theorem append (hfirst : Mirrored eligible bound ledger ledger' trees trees')
    (hmore : Mirrored eligible bound ledger ledger' more more') :
    Mirrored eligible bound ledger ledger' (trees ++ more) (trees' ++ more') where
  symbols := by rw [List.map_append, List.map_append, hfirst.symbols, hmore.symbols]
  notes := by
    rw [notes_append, notes_append]
    exact Set.union_subset_union hfirst.notes hmore.notes
  computes := by
    rw [computes_append, computes_append]
    exact Set.union_subset_union hfirst.computes hmore.computes
  touches := by
    intro htouched
    obtain ⟨hleft, hright⟩ := List.forall_mem_append.mp htouched
    exact List.forall_mem_append.mpr ⟨hfirst.touches hleft, hmore.touches hright⟩
  reads := by
    refine List.forall_mem_append.mpr
      ⟨fun tree' htree' read hread => ?_, fun tree' htree' read hread => ?_⟩
    · refine (hfirst.reads tree' htree' read hread).imp_right fun ⟨hlt, tree, htree, hold⟩ =>
        ⟨hlt, tree, List.mem_append_left _ htree, hold⟩
    · refine (hmore.reads tree' htree' read hread).imp_right fun ⟨hlt, tree, htree, hold⟩ =>
        ⟨hlt, tree, List.mem_append_right _ htree, hold⟩

/-- Rows of operands one after the other. -/
theorem flatten {α β : Type} {first : α → List Tree} {second : β → List Tree}
    {items : List α} {others : List β} (hall : List.Forall₂ (fun item other =>
        Mirrored eligible bound ledger ledger' (first item) (second other)) items others) :
    Mirrored eligible bound ledger ledger' (items.flatMap first) (others.flatMap second) := by
  induction hall with
  | nil => exact .nil _ _ _ _
  | cons hfirst _ ih => exact hfirst.append ih

/-- A temporary holds what an operand is made of. -/
theorem of_held (hholds : Holds bound naming memory ledger ledger') (hlinked : tree.Linked)
    (hoperand : ∀ below ∈ tree.subtrees, below.node.isStatement = false)
    (hreads : ∀ read ∈ tree.reads, read.index < bound) (hentry : (number, temporary) ∈ memory)
    (hnamed : naming number = some symbol) (hsymbols : tree.symbols ledger = [symbol]) :
    Mirrored eligible bound ledger ledger' [tree] [⟨leaf, .variable temporary, []⟩] := by
  obtain ⟨htouched, -⟩ := hholds.held _ hentry
  have hleaf {read : VarId} (hread : read ∈ (⟨leaf, .variable temporary, []⟩ : Tree).reads) :
      read = temporary := by
    simpa [Tree.mem_reads_mk, eq_comm] using hread
  refine ⟨?_, ?_, ?_, fun _ => List.forall_mem_singleton.mpr fun read hread => ?_,
    List.forall_mem_singleton.mpr fun read hread => Or.inl (hleaf hread ▸ htouched)⟩
  · rw [List.map_singleton, List.map_singleton, Tree.symbols_variable,
      hholds.read_held hentry hnamed, hsymbols]
  · rw [notes_variable]
    exact Set.empty_subset _
  · rw [computes_variable]
    exact Set.empty_subset _
  · refine hholds.mem_touched hlinked hoperand hread (hreads read hread)
      fun found hfound hmentions => ?_
    rw [hsymbols, List.mem_singleton] at hfound
    exact hholds.covers_held hentry hnamed read (hfound ▸ hmentions)

/-- An operand with what has become of its children. -/
theorem withChildren {children : List Tree}
    (hholds : Holds bound naming memory ledger ledger') (hlinked : tree.Linked)
    (hoperand : tree.node.isStatement = false) (hreads : ∀ read ∈ tree.reads, read.index < bound)
    (hlength : children.length = tree.children.length)
    (hchildren : Mirrored eligible bound ledger ledger' tree.children children) :
    Mirrored eligible bound ledger ledger' [tree] [tree.withChildren children] := by
  rcases Tree.eq_variable_or_head? hlinked hoperand with ⟨read, hvariable⟩ | ⟨head, hhead⟩
  · obtain ⟨id, node, below⟩ := tree
    obtain ⟨-, rfl, rfl⟩ := Tree.mk.inj hvariable
    obtain rfl := List.eq_nil_of_length_eq_zero hlength
    have hread := hholds.read (hreads read (Tree.mem_reads_mk.mpr (Or.inl rfl)))
    have hsame : Tree.withChildren ⟨id, .variable read, []⟩ [] = ⟨id, .variable read, []⟩ := rfl
    rw [hsame]
    refine ⟨?_, ?_, ?_, fun htouched => htouched, List.forall_mem_singleton.mpr fun found hfound =>
      Or.inr ⟨hreads found hfound, _, List.mem_singleton_self _, hfound⟩⟩
    · rw [List.map_singleton, List.map_singleton, Tree.symbols_variable,
        Tree.symbols_variable, hread]
    · rw [notes_variable]
      exact Set.empty_subset _
    · rw [computes_variable]
      exact Set.empty_subset _
  · have halike := Tree.alike_withChildren hlinked children hlength
    have hhead' : (tree.withChildren children).node.head? = some head := halike.head?_eq ▸ hhead
    have hbelow {read : VarId} {made : Tree}
        (hmade : made.node.head? = some head) (hread : read ∈ made.reads) :
        ∃ child ∈ made.children, read ∈ child.reads := by
      obtain ⟨id, node, below⟩ := made
      refine (Tree.mem_reads_mk.mp hread).resolve_left ?_
      rintro rfl
      cases hmade
    refine ⟨?_, ?_, ?_, fun htouched => List.forall_mem_singleton.mpr fun read hread => ?_,
      List.forall_mem_singleton.mpr fun read hread => ?_⟩
    · rw [List.map_singleton, List.map_singleton, Tree.symbols_of_head? hhead,
        Tree.symbols_of_head? hhead', Tree.withChildren_children, hchildren.symbols]
    · rw [notes_of_head? hhead, notes_of_head? hhead', Tree.withChildren_children,
        hchildren.symbols, halike.kind_eq]
      exact Set.union_subset_union_left _ hchildren.notes
    · rw [computes_of_head? hhead, computes_of_head? hhead', Tree.withChildren_children,
        hchildren.symbols]
      exact Set.union_subset_union_left _ hchildren.computes
    · obtain ⟨child, hchild, hread⟩ := hbelow hhead hread
      refine hchildren.touches (fun child' hchild' read' hread' => ?_) child hchild read hread
      have hmem : child' ∈ (tree.withChildren children).children := hchild'
      exact htouched _ (List.mem_singleton_self _) read'
        (Tree.reads_subset_of_mem_children hmem hread')
    · obtain ⟨child', hchild', hread⟩ := hbelow hhead' hread
      refine (hchildren.reads child' hchild' read hread).imp_right
        fun ⟨hlt, child, hchild, hold⟩ => ?_
      exact ⟨hlt, tree, List.mem_singleton_self _, Tree.reads_subset_of_mem_children hchild hold⟩

end Mirrored

/-! ### Statements -/

/-- The second ledger says nothing that the first one does not, but for temporaries with indices in
this range. -/
structure Follows (bound : Nat) (naming : Naming) (memory : Temporaries) (next : Nat)
    (ledger ledger' : Ledger) : Prop extends Holds bound naming memory ledger ledger' where
  bound_le : bound ≤ next
  made : ledger'.made = ledger.made
  touched : ∀ id ∈ ledger'.touched, id.index < bound → id ∈ ledger.touched
  fresh : ∀ id ∈ ledger'.touched, id.index < next
  noted : ledger'.noted ⊆ ledger.noted
  computed : ledger'.computed ⊆ ledger.computed
  defined : ∀ id ∈ ledger'.touched, bound ≤ id.index → .entry id ∉ ledger'.history id
  temporaries : ∀ entry ∈ memory, bound ≤ entry.2.index

/-- The ledgers say the same of the old variables. -/
structure Mirrors (bound : Nat) (naming : Naming) (memory : Temporaries) (next : Nat)
    (ledger ledger' : Ledger) : Prop extends Follows bound naming memory next ledger ledger' where
  touched_subset : ledger.touched ⊆ ledger'.touched

variable {next : Nat} {trees trees' : List Tree}

theorem mirrors_nil (naming : Naming) (next : Nat) (hbound : bound ≤ next) :
    Mirrors bound naming [] next {} {} where
  grounded := grounded_nil
  history _ _ := rfl
  partials := rfl
  held := by simp
  bound_le := hbound
  made := rfl
  touched _ hid _ := hid
  fresh _ hid := absurd hid (Set.notMem_empty _)
  noted := Set.Subset.refl _
  computed := Set.Subset.refl _
  defined _ hid := absurd hid (Set.notMem_empty _)
  temporaries := by simp
  touched_subset := Set.Subset.refl _

/-- Operands have been numbered in the first block, and a statement has been noted. -/
theorem Mirrors.advance (hmirrors : Mirrors bound naming memory next ledger ledger')
    (trees : List Tree) (notes : Set (NodeId × Symbol)) (symbols : Set Symbol) :
    Follows bound naming memory next ((ledger.numbered eligible trees).noting notes symbols)
      ledger' :=
  ⟨⟨hmirrors.grounded, hmirrors.history, hmirrors.partials, hmirrors.held⟩, hmirrors.bound_le,
    hmirrors.made, fun id hid hlt => Or.inl (hmirrors.touched id hid hlt), hmirrors.fresh,
    (hmirrors.noted.trans Set.subset_union_left).trans Set.subset_union_left,
    (hmirrors.computed.trans Set.subset_union_left).trans Set.subset_union_left, hmirrors.defined,
    hmirrors.temporaries⟩

namespace Follows

variable (hfollows : Follows bound naming memory next ledger ledger')

include hfollows

/-- What has become of operands has been numbered in the second block. -/
theorem numbered (hknows : ledger.Knows eligible trees)
    (hmirrored : Mirrored eligible bound ledger ledger' trees trees') :
    Follows bound naming memory next ledger (ledger'.numbered eligible trees') := by
  have hreads : ∀ tree' ∈ trees', ∀ read ∈ tree'.reads, read ∈ ledger'.touched ∨
      read.index < bound ∧ read ∈ ledger.touched := fun tree' htree' read hread =>
    (hmirrored.reads tree' htree' read hread).imp_right fun ⟨hlt, tree, htree, hold⟩ =>
      ⟨hlt, hknows.touched tree htree read hold⟩
  refine ⟨⟨hfollows.grounded.of_touched rfl Set.subset_union_left, hfollows.history,
      hfollows.partials, fun entry hentry => (hfollows.held entry hentry).imp_left
      fun hmem => Or.inl hmem⟩, hfollows.bound_le, hfollows.made,
    ?_, ?_, Set.union_subset hfollows.noted (hmirrored.notes.trans hknows.noted),
    Set.union_subset hfollows.computed (hmirrored.computes.trans hknows.computed), ?_,
    hfollows.temporaries⟩
  · rintro id (hid | ⟨tree', htree', hread⟩) hlt
    · exact hfollows.touched id hid hlt
    · exact (hreads tree' htree' id hread).elim (fun hid => hfollows.touched id hid hlt) And.right
  · rintro id (hid | ⟨tree', htree', hread⟩)
    · exact hfollows.fresh id hid
    · exact (hreads tree' htree' id hread).elim (hfollows.fresh id) fun hold =>
        hold.1.trans_le hfollows.bound_le
  · rintro id (hid | ⟨tree', htree', hread⟩) hle
    · exact hfollows.defined id hid hle
    · exact (hreads tree' htree' id hread).elim (fun hid => hfollows.defined id hid hle)
        fun hold => absurd hold.1 (Nat.not_lt.mpr hle)

/-- What has been noted and computed in the second block has been so in the first one. -/
theorem noting {notes : Set (NodeId × Symbol)} {symbols : Set Symbol}
    (hnotes : notes ⊆ ledger.noted) (hsymbols : symbols ⊆ ledger.computed) :
    Follows bound naming memory next ledger (ledger'.noting notes symbols) :=
  ⟨⟨hfollows.grounded.of_touched rfl (Set.Subset.refl _), hfollows.history,
      hfollows.partials, hfollows.held⟩, hfollows.bound_le, hfollows.made,
    hfollows.touched, hfollows.fresh, Set.union_subset hfollows.noted hnotes,
    Set.union_subset hfollows.computed hsymbols, hfollows.defined, hfollows.temporaries⟩

/-- The next temporary has been defined. -/
theorem define {number : ValueNumber} (hnamed : naming number = some symbol)
    (hcovers : ledger'.Covers symbol) :
    Follows bound naming ((number, ⟨next⟩) :: memory) (next + 1) ledger
      (ledger'.write false ⟨next⟩ [symbol]) := by
  have huntouched : (⟨next⟩ : VarId) ∉ ledger'.touched :=
    fun hmem => Nat.lt_irrefl _ (hfollows.fresh _ hmem)
  have hhistory : (ledger'.write false ⟨next⟩ [symbol]).history =
      Function.update ledger'.history ⟨next⟩ [symbol] := by
    simp [write, huntouched]
  have hne {id : VarId} (hlt : id.index < next) : id ≠ ⟨next⟩ := fun hsame => by
    rw [hsame] at hlt
    exact Nat.lt_irrefl _ hlt
  refine ⟨⟨hfollows.grounded.write false (List.forall_mem_singleton.mpr hcovers),
      fun id hid => ?_, hfollows.partials,
    List.forall_mem_cons.mpr ⟨⟨Set.mem_insert _ _, symbol, hnamed, ?_⟩, fun entry hentry => ?_⟩⟩,
    hfollows.bound_le.trans (Nat.le_succ _), hfollows.made, ?_, ?_, hfollows.noted,
    hfollows.computed, ?_, List.forall_mem_cons.mpr ⟨hfollows.bound_le, hfollows.temporaries⟩⟩
  · rw [hhistory, Function.update_of_ne (hne (hid.trans_le hfollows.bound_le))]
    exact hfollows.history id hid
  · rw [hhistory, Function.update_self]
  · obtain ⟨htouched, found, hfound, hwritten⟩ := hfollows.held entry hentry
    refine ⟨Set.mem_insert_of_mem _ htouched, found, hfound, ?_⟩
    rw [hhistory, Function.update_of_ne (hne (hfollows.fresh _ htouched)), hwritten]
  · rintro id (rfl | hid) hlt
    · exact absurd (hlt.trans_le hfollows.bound_le) (Nat.lt_irrefl _)
    · exact hfollows.touched id hid hlt
  · rintro id (rfl | hid)
    · exact Nat.lt_succ_self _
    · exact (hfollows.fresh id hid).trans (Nat.lt_succ_self _)
  · rintro id (rfl | hid) hle
    · -- what covers a symbol has touched the variable that it stands for
      rw [hhistory, Function.update_self, List.mem_singleton]
      rintro rfl
      exact huntouched (hcovers _ .entry)
    · rw [hhistory, Function.update_of_ne (hne (hfollows.fresh id hid))]
      exact hfollows.defined id hid hle

/-- No symbol comes up in the second block that has not come up in the first one. -/
theorem lists {symbol : Symbol} (hlists : ledger'.Lists symbol) : ledger.Lists symbol := by
  cases symbol with
  | entry id =>
    obtain ⟨htouched, hentry⟩ := hlists
    have hlt : id.index < bound :=
      Nat.lt_of_not_le fun hle => hfollows.defined id htouched hle hentry
    exact ⟨hfollows.touched id htouched hlt, hfollows.history id hlt ▸ hentry⟩
  | made event => exact lt_of_lt_of_eq hlists hfollows.made
  | computed head operands => exact hfollows.computed hlists

end Follows

namespace Mirrors

variable (hmirrors : Mirrors bound naming memory next ledger ledger')

include hmirrors

/-- An old variable has been written in both blocks. -/
theorem write (part : Bool) {root : VarId} {value : List Symbol} (hroot : root.index < bound)
    (hvalue : ∀ symbol ∈ value, ledger'.Covers symbol) :
    Mirrors bound naming memory next (ledger.write part root value)
      (ledger'.write part root value) := by
  have hsame : (root ∈ ledger'.touched) = (root ∈ ledger.touched) :=
    propext ⟨fun hmem => hmirrors.touched root hmem hroot, fun hmem => hmirrors.touched_subset hmem⟩
  have htemporary : ∀ entry ∈ memory, entry.2 ≠ root := fun entry hentry hequal => by
    have hle := hmirrors.temporaries entry hentry
    rw [hequal] at hle
    omega
  obtain ⟨symbols, symbols', hhistory, hhistory', hequal⟩ : ∃ symbols symbols',
      (ledger.write part root value).history = Function.update ledger.history root symbols ∧
        (ledger'.write part root value).history = Function.update ledger'.history root symbols' ∧
        symbols' = symbols := by
    cases part with
    | true => exact ⟨_, _, rfl, rfl, by rw [hmirrors.history root hroot, hmirrors.made]⟩
    | false => exact ⟨_, _, rfl, rfl, by rw [hmirrors.history root hroot, hsame]⟩
  have htouched (ledger : Ledger) := ledger.touched_write part root value
  have hcomputed (ledger : Ledger) : (ledger.write part root value).computed = ledger.computed := by
    cases part <;> rfl
  refine ⟨⟨⟨hmirrors.grounded.write part hvalue, fun id hid => ?_, ?_, fun entry hentry => ?_⟩,
      hmirrors.bound_le, ?_, ?_, ?_, ?_, ?_, ?_, hmirrors.temporaries⟩, ?_⟩
  · rw [hhistory, hhistory', hequal]
    by_cases hid' : id = root
    · rw [hid', Function.update_self, Function.update_self]
    · rw [Function.update_of_ne hid', Function.update_of_ne hid', hmirrors.history id hid]
  · cases part with
    | true =>
      exact congrArg₂ List.cons (congrArg Symbol.made hmirrors.made)
        (congrArg (value ++ ·) hmirrors.partials)
    | false => exact hmirrors.partials
  · obtain ⟨hmem, found, hfound, hwritten⟩ := hmirrors.held entry hentry
    rw [htouched, hhistory', Function.update_of_ne (htemporary entry hentry)]
    exact ⟨Set.mem_insert_of_mem _ hmem, found, hfound, hwritten⟩
  · cases part with
    | true => exact congrArg (· + 1) hmirrors.made
    | false => exact hmirrors.made
  · rw [htouched, htouched]
    rintro id (rfl | hid) hlt
    · exact Set.mem_insert _ _
    · exact Set.mem_insert_of_mem _ (hmirrors.touched id hid hlt)
  · rw [htouched]
    rintro id (rfl | hid)
    · exact hroot.trans_le hmirrors.bound_le
    · exact hmirrors.fresh id hid
  · rw [noted_write, noted_write]
    exact hmirrors.noted
  · rw [hcomputed, hcomputed]
    exact hmirrors.computed
  · rw [htouched]
    rintro id (rfl | hid) hle
    · exact absurd hroot (Nat.not_lt.mpr hle)
    · have hne : id ≠ root := fun hsame => absurd hroot (Nat.not_lt.mpr (hsame ▸ hle))
      rw [hhistory', Function.update_of_ne hne]
      exact hmirrors.defined id hid hle
  · rw [htouched, htouched]
    exact Set.insert_subset_insert hmirrors.touched_subset

/-- A value that is not known has been made in both blocks. -/
theorem make : Mirrors bound naming memory next ledger.make ledger'.make :=
  ⟨⟨⟨hmirrors.grounded.of_touched rfl (Set.Subset.refl _), hmirrors.history,
        hmirrors.partials, hmirrors.held⟩, hmirrors.bound_le,
    congrArg (· + 1) hmirrors.made, hmirrors.touched, hmirrors.fresh, hmirrors.noted,
    hmirrors.computed, hmirrors.defined, hmirrors.temporaries⟩, hmirrors.touched_subset⟩

variable {program' : Program} {targets targets' : List Tree}

/-- A value has been stored in both blocks. -/
theorem stored {target target' : Tree} {mask : UInt8}
    {value : List Symbol} (hroot : target'.root? = target.root?)
    (hpart : program'.writesPart target' mask = program.writesPart target mask)
    (hold : ∀ root ∈ target.root?, root.index < bound)
    (hvalue : ∀ symbol ∈ value, ledger'.Covers symbol) :
    Mirrors bound naming memory next (ledger.stored program target mask value)
      (ledger'.stored program' target' mask value) := by
  unfold Ledger.stored
  rw [hroot, hpart]
  cases hfound : target.root? with
  | none => exact hmirrors
  | some root => exact hmirrors.write _ (hold root hfound) hvalue

/-- A value has been stored through places in both blocks. -/
theorem storedAll {mask : UInt8} {value : List Symbol}
    (htargets : List.Forall₂ (fun target target' : Tree =>
      target'.root? = target.root? ∧
        program'.writesPart target' mask = program.writesPart target mask) targets targets')
    (hold : ∀ target ∈ targets, ∀ root ∈ target.root?, root.index < bound)
      (hvalue : ∀ symbol ∈ value, ledger'.Covers symbol) :
    Mirrors bound naming memory next (targets.foldl
      (fun between target => between.stored program target mask value) ledger) (targets'.foldl
        (fun between target => between.stored program' target mask value) ledger') := by
  induction htargets generalizing ledger ledger' with
  | nil => exact hmirrors
  | cons htarget _ ih =>
    obtain ⟨hfirst, hlater⟩ := List.forall_mem_cons.mp hold
    exact ih (hmirrors.stored htarget.1 htarget.2 hfirst hvalue) hlater fun symbol hsymbol =>
      (hvalue symbol hsymbol).mono (ledger'.touched_subset_stored program' _ mask value)

/-- Values that are not known have been stored in both blocks. -/
theorem overwritten
    (htargets : List.Forall₂ (fun target target' : Tree => target'.root? = target.root? ∧
        program'.writesPart target' 0 = program.writesPart target 0) targets targets')
    (hold : ∀ target ∈ targets, ∀ root ∈ target.root?, root.index < bound) :
    Mirrors bound naming memory next (ledger.overwritten program targets)
      (ledger'.overwritten program' targets') := by
  unfold Ledger.overwritten
  induction htargets generalizing ledger ledger' with
  | nil => exact hmirrors
  | cons htarget _ ih =>
    obtain ⟨hfirst, hlater⟩ := List.forall_mem_cons.mp hold
    rw [List.foldl_cons, List.foldl_cons, hmirrors.made]
    exact ih (hmirrors.make.stored htarget.1 htarget.2 hfirst
      (List.forall_mem_singleton.mpr (covers_made _ _))) hlater

omit hmirrors in
/-- Calls of the same with the same return the same. -/
theorem returned_eq {statement statement' : Tree} (halike : statement.node.Alike statement'.node)
    (hpassed : (program'.passedBy statement').map (Tree.symbols ledger') =
      (program.passedBy statement).map (Tree.symbols ledger)) :
    ledger'.returned program' statement' = ledger.returned program statement := by
  rw [returned, returned, hpassed, halike.head?_eq]

omit hmirrors in
theorem covers_returned {statement : Tree} (hcovers : ∀ tree ∈ program.passedBy statement,
      ∀ symbol ∈ tree.symbols ledger, ledger.Covers symbol) :
    ∀ symbol ∈ ledger.returned program statement, ledger.Covers symbol := by
  intro symbol hsymbol
  obtain ⟨head, -, rfl⟩ := List.mem_map.mp hsymbol
  exact covers_computed (List.forall_mem_map.mpr hcovers) head

/-- Statements that write the same to the same places have been performed in both blocks. -/
theorem affected {statement statement' : Tree} (halike : statement.node.Alike statement'.node)
    (hsignatures : program'.signatures = program.signatures)
    (hwritten : ∀ mask, List.Forall₂ (fun target target' : Tree => target'.root? = target.root? ∧
        program'.writesPart target' mask = program.writesPart target mask)
      (program.writtenBy statement) (program'.writtenBy statement'))
    (hold : ∀ target ∈ program.writtenBy statement, ∀ root ∈ target.root?, root.index < bound)
    (hpassed : (program'.passedBy statement').map (Tree.symbols ledger') =
      (program.passedBy statement).map (Tree.symbols ledger))
    (hcovers : ∀ tree ∈ program'.passedBy statement',
      ∀ symbol ∈ tree.symbols ledger', ledger'.Covers symbol) :
    Mirrors bound naming memory next (ledger.affected program statement)
      (ledger'.affected program' statement') := by
  have hreturned : ledger'.returned program' statement' = ledger.returned program statement :=
    returned_eq halike hpassed
  have hsignature (callee : SignatureId) :
      program'.signature callee = program.signature callee := by
    rw [Program.signature, Program.signature, hsignatures]
  have hflat : (program'.passedBy statement').flatMap (Tree.symbols ledger') =
      (program.passedBy statement).flatMap (Tree.symbols ledger) := by
    rw [List.flatMap_def, List.flatMap_def, hpassed]
  unfold Ledger.affected
  generalize statement.node = node at halike
  generalize statement'.node = node' at halike
  cases halike with
  | assign _ _ _ _ mask =>
    dsimp only
    rw [← hflat]
    refine hmirrors.storedAll (hwritten mask) hold (List.forall_mem_flatMap.mpr hcovers)
  | call callee _ _ result result' _ hresult =>
    have hcount : result.toList.length = result'.toList.length := by
      cases result <;> cases result' <;> simp_all
    dsimp only
    rw [hsignature, ← hreturned]
    cases program.signature callee with
    | error crash => exact hmirrors
    | ok signature =>
      dsimp only
      split
      · exact hmirrors.storedAll (hwritten 0) hold (covers_returned hcovers)
      · rw [(hwritten 0).length_eq, hcount]
        refine Mirrors.overwritten
          (make (hmirrors.overwritten (List.forall₂_take _ (hwritten 0)) ?_))
          (List.forall₂_drop _ (hwritten 0)) ?_
        · exact fun target hmem => hold target (List.mem_of_mem_take hmem)
        · exact fun target hmem => hold target (List.mem_of_mem_drop hmem)
  | _ => exact hmirrors

end Mirrors

end Ledger

end ShaderIR
