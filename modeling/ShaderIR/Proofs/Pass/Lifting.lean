import ShaderIR.Pass.Sharing
import ShaderIR.Proofs.Outline.Checked
import ShaderIR.Proofs.Outline.Types

/-!
What an edit of a statement makes of its operands, as a relation on trees. `Lifted` takes
computations out of the operands of a statement one after the other: each becomes a `Row`, an
assignment to a temporary of its own that goes in front of the statement, and a read of the
temporary stands where it was. A computation that some temporary holds already becomes a read of
that one. A `Verdict` says which computations are taken out, and under which number they are
remembered.
-/

set_option autoImplicit false

namespace ShaderIR

/-! ### Rows -/

/-- A computation that has been put into a temporary of its own. -/
structure Row where
  /-- The assignment to the temporary. -/
  id : NodeId
  /-- The temporary on its left side. -/
  place : NodeId
  temporary : VarId
  name : String
  ty : Ty
  /-- What is computed. -/
  value : Tree

namespace Row

/-- The tree on the left side of the assignment. -/
def target (row : Row) : Tree :=
  ⟨row.place, .variable row.temporary, []⟩

/-- The assignment to the temporary. -/
def statement (row : Row) : Tree :=
  ⟨row.id, .assign row.place row.value.id 0, [row.value, row.target]⟩

/-- How the temporary is declared. -/
def declared (row : Row) : Variable :=
  ⟨row.name, row.ty, .temporary⟩

end Row

/-- A tree with other children, whose ids its node refers to. -/
def Tree.withChildren (tree : Tree) (children : List Tree) : Tree :=
  ⟨tree.id, tree.node.refill (children.map Tree.id), children⟩

@[simp] theorem Tree.withChildren_id (tree : Tree) (children : List Tree) :
    (tree.withChildren children).id = tree.id :=
  rfl

@[simp] theorem Tree.withChildren_children (tree : Tree) (children : List Tree) :
    (tree.withChildren children).children = children :=
  rfl

/-- The nodes of a tree refer to the nodes below them. -/
def Tree.Linked (tree : Tree) : Prop :=
  ∀ below ∈ tree.subtrees, below.node.children = below.children.map Tree.id

theorem Program.Draws.linked {program : Program} {tree : Tree} (hdraws : program.Draws tree) :
    tree.Linked :=
  fun below hbelow => (hdraws.subtree below hbelow).children_eq

namespace Tree

variable {tree operand : Tree}

theorem Linked.child (hlinked : tree.Linked) (hchild : operand ∈ tree.children) : operand.Linked :=
  fun below hbelow => hlinked below (mem_subtrees_of_mem_children hchild hbelow)

theorem alike_withChildren (hlinked : tree.Linked) (children : List Tree)
    (hlength : children.length = tree.children.length) :
    tree.node.Alike (tree.withChildren children).node := by
  refine Node.alike_refill _ ?_
  rw [hlinked tree tree.mem_subtrees_self, List.length_map, List.length_map, hlength]

end Tree

/-! ### Lifting -/

/-- What becomes of a computation: nothing if there is no answer, else it is taken out and perhaps
remembered under a number. -/
abbrev Verdict :=
  Tree → Option (Option ValueNumber)

/-- What an operand of a statement is to the statement. -/
inductive Role
  /-- A value that may be taken out. -/
  | value
  /-- A value that stays while its operands may be taken out. -/
  | root
  /-- A place that is written to, in which only indices may be taken out. -/
  | place
deriving DecidableEq

/-- The indices in a place. -/
def Tree.indices : Tree → List Tree
  | ⟨_, .index .., [base, position]⟩ => position :: base.indices
  | ⟨_, .field .., [record]⟩ => record.indices
  | _ => []

/-- The nodes of an operand that may be taken out. -/
def Role.loose : Role → Tree → List Tree
  | .place, tree => tree.indices.flatMap Tree.subtrees
  | _, tree => tree.subtrees

namespace Role

variable {role : Role} {tree : Tree}

theorem loose_eq_subtrees (hrole : role ≠ .place) : role.loose tree = tree.subtrees := by
  cases role with
  | place => exact absurd rfl hrole
  | _ => rfl

theorem loose_subset_of_mem_children (hrole : role ≠ .place) {child : Tree}
    (hchild : child ∈ tree.children) : Role.value.loose child ⊆ role.loose tree := by
  rw [loose_eq_subtrees hrole, loose_eq_subtrees (by simp)]
  exact fun below hbelow => Tree.mem_subtrees_of_mem_children hchild hbelow

theorem loose_field {tree record : Tree} {recordId : NodeId}
    {number : Nat} (hnode : tree.node = .field recordId number)
    (htree : tree.children = [record]) : Role.place.loose tree = Role.place.loose record := by
  obtain ⟨id, rfl⟩ := Tree.exists_eq_mk hnode htree
  simp only [loose, Tree.indices]

theorem loose_index {tree base position : Tree} {baseId positionId : NodeId}
    (hnode : tree.node = .index baseId positionId) (htree : tree.children = [base, position]) :
    Role.place.loose tree = position.subtrees ++ Role.place.loose base := by
  obtain ⟨id, rfl⟩ := Tree.exists_eq_mk hnode htree
  simp only [loose, Tree.indices, List.flatMap_cons]

end Role

/-- The operands in the first list become those in the second one, and the computations that have
been taken out of them become rows. Before and after, the memory tells which temporaries hold which
numbers, and the next temporary has this index. -/
inductive Lifted (verdict : Verdict) :
    Temporaries → Nat → List (Role × Tree) → List Tree → List Row →
    Temporaries → Nat → Prop
  | nil (memory : Temporaries) (next : Nat) : Lifted verdict memory next [] [] [] memory next
  /-- A value stays where it is. -/
  | kept {memory memory₁ memory₂ : Temporaries} {next next₁ next₂ : Nat} {role : Role} {tree : Tree}
    {rest : List (Role × Tree)} {children rest' : List Tree} {rows rows' : List Row}
    (hkeeps : role = .root ∨ role = .value ∧ verdict tree = none)
    (hchildren : Lifted verdict memory next (tree.children.map (Role.value, ·)) children rows
      memory₁ next₁) (hrest : Lifted verdict memory₁ next₁ rest rest' rows' memory₂ next₂) :
    Lifted verdict memory next ((role, tree) :: rest) (tree.withChildren children :: rest')
        (rows ++ rows') memory₂ next₂
  /-- A temporary holds the value already. -/
  | reused {memory memory₁ : Temporaries} {next next₁ : Nat} {tree : Tree} {number : ValueNumber}
    {temporary : VarId} {leaf : NodeId} {rest : List (Role × Tree)} {rest' : List Tree}
    {rows : List Row} (htaken : verdict tree = some (some number))
    (hheld : memory.lookup number = some temporary)
    (hrest : Lifted verdict memory next rest rest' rows memory₁ next₁) :
    Lifted verdict memory next ((.value, tree) :: rest)
      (⟨leaf, .variable temporary, []⟩ :: rest') rows memory₁ next₁
  /-- The value goes into a new temporary. -/
  | stored {memory memory₁ memory₂ : Temporaries} {next next₁ next₂ : Nat} {tree : Tree}
    {shared : Option ValueNumber} {row : Row} {leaf : NodeId} {rest : List (Role × Tree)}
    {children rest' : List Tree} {rows rows' : List Row} (htaken : verdict tree = some shared)
    (hfresh : ∀ number ∈ shared, memory.lookup number = none) (hchildren : Lifted verdict memory
      next (tree.children.map (Role.value, ·)) children rows memory₁ next₁)
    (htemporary : row.temporary = ⟨next₁⟩) (hvalue : row.value = tree.withChildren children)
    (hrest : Lifted verdict (shared.toList.map (·, row.temporary) ++ memory₁) (next₁ + 1) rest rest'
      rows' memory₂ next₂) : Lifted verdict memory next ((.value, tree) :: rest)
        (⟨leaf, .variable row.temporary, []⟩ :: rest') (rows ++ row :: rows') memory₂ next₂
  /-- A whole variable is written to. -/
  | whole {memory memory₁ : Temporaries} {next next₁ : Nat} {id : NodeId} {written : VarId}
    {rest : List (Role × Tree)} {rest' : List Tree} {rows : List Row}
    (hrest : Lifted verdict memory next rest rest' rows memory₁ next₁) :
    Lifted verdict memory next ((.place, ⟨id, .variable written, []⟩) :: rest)
      (⟨id, .variable written, []⟩ :: rest') rows memory₁ next₁
  /-- A field of a place is written to. -/
  | field {memory memory₁ memory₂ : Temporaries}
    {next next₁ next₂ : Nat} {tree record record' : Tree}
    {number : Nat} {rest : List (Role × Tree)} {rest' : List Tree} {rows rows' : List Row}
    (hnode : tree.node = .field record.id number) (htree : tree.children = [record])
    (hrecord : Lifted verdict memory next [(.place, record)] [record'] rows memory₁ next₁)
    (hrest : Lifted verdict memory₁ next₁ rest rest' rows' memory₂ next₂) :
    Lifted verdict memory next ((.place, tree) :: rest) (tree.withChildren [record'] :: rest')
        (rows ++ rows') memory₂ next₂
  /-- An element of a place is written to, whose index comes first. -/
  | index {memory memory₁ memory₂ : Temporaries} {next next₁ next₂ : Nat}
    {tree base position base' position' : Tree} {rest : List (Role × Tree)} {rest' : List Tree}
    {rows rows' : List Row} (hnode : tree.node = .index base.id position.id)
    (htree : tree.children = [base, position])
    (hparts : Lifted verdict memory next [(.value, position), (.place, base)] [position', base']
      rows memory₁ next₁) (hrest : Lifted verdict memory₁ next₁ rest rest' rows' memory₂ next₂) :
    Lifted verdict memory next ((.place, tree) :: rest)
      (tree.withChildren [base', position'] :: rest') (rows ++ rows') memory₂ next₂

namespace Lifted

variable {verdict : Verdict} {memory memory' : Temporaries} {next next' : Nat}
  {forest : List (Role × Tree)} {forest' : List Tree} {rows : List Row}

theorem of_nil (hlifted : Lifted verdict memory next [] forest' rows memory' next') :
    forest' = [] ∧ rows = [] ∧ memory' = memory ∧ next' = next := by
  cases hlifted
  exact ⟨rfl, rfl, rfl, rfl⟩

theorem length_eq (hlifted : Lifted verdict memory next forest forest' rows memory' next') :
    forest'.length = forest.length := by
  induction hlifted <;> simp_all

theorem append {memory₁ memory₂ : Temporaries} {next₁ next₂ : Nat} {more : List (Role × Tree)}
    {more' : List Tree} {rows' : List Row}
    (hlifted : Lifted verdict memory next forest forest' rows memory₁ next₁)
    (hmore : Lifted verdict memory₁ next₁ more more' rows' memory₂ next₂) :
    Lifted verdict memory next (forest ++ more) (forest' ++ more')
      (rows ++ rows') memory₂ next₂ := by
  induction hlifted with
  | nil => exact hmore
  | kept hkeeps hchildren _ _ ih =>
    rw [List.append_assoc]
    exact .kept hkeeps hchildren (ih hmore)
  | reused htaken hheld _ ih => exact .reused htaken hheld (ih hmore)
  | stored htaken hfresh hchildren htemporary hvalue _ _ ih =>
    rw [List.append_assoc]
    exact .stored htaken hfresh hchildren htemporary hvalue (ih hmore)
  | whole _ ih => exact .whole (ih hmore)
  | field hnode htree hrecord _ _ ih =>
    rw [List.append_assoc]
    exact .field hnode htree hrecord (ih hmore)
  | index hnode htree hparts _ _ ih =>
    rw [List.append_assoc]
    exact .index hnode htree hparts (ih hmore)

theorem next_eq (hlifted : Lifted verdict memory next forest forest' rows memory' next') :
    next' = next + rows.length := by
  induction hlifted with
  | nil => rfl
  | reused _ _ _ ih | whole _ ih => exact ih
  | kept _ _ _ ih ih' | field _ _ _ _ ih ih' | index _ _ _ _ ih ih' =>
    rw [ih', ih, List.length_append, Nat.add_assoc]
  | stored _ _ _ _ _ _ ih ih' =>
    rw [ih', ih, List.length_append, List.length_cons]
    omega

/-- The temporaries of the rows are the next ones, in order. -/
theorem temporaries_eq (hlifted : Lifted verdict memory next forest forest' rows memory' next') :
    rows.map (fun row => row.temporary.index) = List.range' next rows.length := by
  induction hlifted with
  | nil => rfl
  | reused _ _ _ ih | whole _ ih => exact ih
  | kept _ hfirst _ ih ih' | field _ _ hfirst _ ih ih' | index _ _ hfirst _ ih ih' =>
    rw [List.map_append, ih, ih', hfirst.next_eq, List.length_append, List.range'_append_1]
  | stored _ _ hchildren htemporary _ _ ih ih' =>
    rw [List.map_append, List.map_cons, ih, ih', htemporary, hchildren.next_eq, List.length_append,
      List.length_cons, ← List.range'_append_1, List.range'_succ]

/-- Places stay places. -/
theorem isPlace (hlifted : Lifted verdict memory next forest forest' rows memory' next') :
    List.Forall₂ (fun item tree' => item.1 = .place → item.2.isPlace = true → tree'.isPlace = true)
      forest forest' := by
  induction hlifted with
  | nil => exact .nil
  | kept hkeeps _ _ _ ih =>
    exact .cons (fun hrole => by rcases hkeeps with rfl | ⟨rfl, -⟩ <;> cases hrole) ih
  | reused _ _ _ ih | stored _ _ _ _ _ _ _ ih => exact .cons nofun ih
  | whole _ ih => exact .cons (fun _ hplace => hplace) ih
  | @field memory memory₁ memory₂ next next₁ next₂ tree record record' number rest rest' rows rows'
      hnode htree _ _ ih ih' =>
    refine .cons (fun _ hplace => ?_) ih'
    obtain ⟨id, rfl⟩ := Tree.exists_eq_mk hnode htree
    unfold Tree.withChildren
    rw [Tree.isPlace, Tree.fold_mk, ← Tree.isPlace] at hplace ⊢
    exact (List.forall₂_cons.mp ih).1 rfl hplace
  | @index memory memory₁ memory₂ next next₁ next₂ tree base position base' position' rest rest'
      rows rows' hnode htree _ _ ih ih' =>
    refine .cons (fun _ hplace => ?_) ih'
    obtain ⟨id, rfl⟩ := Tree.exists_eq_mk hnode htree
    unfold Tree.withChildren
    rw [Tree.isPlace, Tree.fold_mk, ← Tree.isPlace] at hplace ⊢
    exact (List.forall₂_cons.mp (List.forall₂_cons.mp ih).2).1 rfl hplace

variable {program program' : Program}

/-- The rows know the types of what they compute, and their temporaries are declared. -/
def Declares (program : Program) (rows : List Row) : Prop :=
  ∀ row ∈ rows, program.vars[row.temporary.index]? = some row.declared ∧
    row.value.ty? program = some row.ty

theorem Declares.mono {rows : List Row} (hdeclares : Declares program rows)
    (hvars : ∀ (index : Nat) declared, program.vars[index]? = some declared →
      program'.vars[index]? = some declared)
    (hsignatures : program'.signatures = program.signatures) :
    Declares program' rows :=
  fun row hrow => ⟨hvars _ _ (hdeclares row hrow).1,
    Tree.ty?_mono hvars hsignatures (hdeclares row hrow).2⟩

theorem lookup_remembered {shared : Option ValueNumber} {temporary temporary' : VarId}
    {number : ValueNumber}
    (hlookup : (shared.toList.map (·, temporary) ++ memory).lookup number = some temporary') :
    number ∈ shared ∧ temporary' = temporary ∨ memory.lookup number = some temporary' := by
  cases shared with
  | none => exact Or.inr hlookup
  | some held =>
    rw [Option.toList_some, List.map_singleton, List.singleton_append, List.lookup_cons] at hlookup
    split at hlookup
    · next hsame =>
      exact Or.inl ⟨by rw [eq_of_beq hsame]; rfl, (Option.some.inj hlookup).symm⟩
    · exact Or.inr hlookup

theorem soundOperand_of_mem_children {tree child : Tree} (htree : program.SoundOperand tree)
    (hchild : child ∈ tree.children) : program.SoundOperand child :=
  fun below hbelow => htree below (Tree.mem_subtrees_of_mem_children hchild hbelow)

theorem soundOperand_withChildren {tree : Tree} {children : List Tree}
    (hvars : program.vars.size ≤ program'.vars.size)
    (halike : tree.node.Alike (tree.withChildren children).node) (htree : program.SoundOperand tree)
    (hchildren : ∀ child ∈ children, program'.SoundOperand child) :
    program'.SoundOperand (tree.withChildren children) := by
  have hroot := htree tree tree.mem_subtrees_self
  refine Tree.forall_subtrees_mk.mpr ⟨⟨?_, ?_, ?_⟩, hchildren⟩
  · exact halike.isStatement_eq.symm.trans hroot.operand
  · intro read hnode
    change (tree.withChildren children).node = _ at hnode
    rw [hnode] at halike
    refine (hroot.variable_lt read ?_).trans_le hvars
    revert halike
    generalize tree.node = node
    rintro (_ | _)
    rfl
  · intro op operands ty hnode
    change (tree.withChildren children).node = _ at hnode
    rw [hnode] at halike
    have harity := hroot.arity op
    revert halike harity
    generalize tree.node = node
    rintro (_ | _) harity
    next old hlength => rw [harity old ty rfl, hlength]

/-- The edited operands can stand where they do. -/
theorem sound (hlifted : Lifted verdict memory next forest forest' rows memory' next')
    (hvars : program.vars.size ≤ program'.vars.size) (hnext : next' ≤ program'.vars.size)
    (hmemory : ∀ number temporary, memory.lookup number = some temporary → temporary.index < next)
    (hlinked : ∀ item ∈ forest, item.2.Linked)
    (hforest : ∀ item ∈ forest, program.SoundOperand item.2) :
    (∀ tree' ∈ forest', program'.SoundOperand tree') ∧
      (∀ row ∈ rows, program'.SoundOperand row.value ∧ row.temporary.index < program'.vars.size) ∧
      ∀ number temporary, memory'.lookup number = some temporary → temporary.index < next' := by
  have hleaf : ∀ (leaf : NodeId) (temporary : VarId), temporary.index < program'.vars.size →
      program'.SoundOperand ⟨leaf, .variable temporary, []⟩ := fun leaf temporary hlt =>
    Tree.forall_subtrees_mk.mpr ⟨⟨rfl, fun _ hsame => by cases hsame; exact hlt, nofun⟩, by simp⟩
  induction hlifted with
  | nil => exact ⟨by simp, by simp, hmemory⟩
  | @kept memory memory₁ memory₂ next next₁ next₂ role tree rest children rest' rows rows' hkeeps
      hchildren hrest ih ih' =>
    obtain ⟨hlinked, hrestLinked⟩ := List.forall_mem_cons.mp hlinked
    obtain ⟨htree, hrestSound⟩ := List.forall_mem_cons.mp hforest
    have hnext' := hrest.next_eq
    obtain ⟨hsound, hrows, hmemory₁⟩ := ih (by omega) hmemory
      (by simpa using fun child hchild => hlinked.child hchild)
      (by simpa using fun child hchild => soundOperand_of_mem_children htree hchild)
    obtain ⟨hsound', hrows', hmemory₂⟩ := ih' hnext hmemory₁ hrestLinked hrestSound
    have halike := Tree.alike_withChildren hlinked children
      (by simpa using hchildren.length_eq)
    exact ⟨List.forall_mem_cons.mpr ⟨soundOperand_withChildren hvars halike htree hsound, hsound'⟩,
      List.forall_mem_append.mpr ⟨hrows, hrows'⟩, hmemory₂⟩
  | @reused memory memory₁ next next₁ tree number temporary leaf rest rest' rows htaken hheld
      hrest ih =>
    have hnext' := hrest.next_eq
    have hlt := hmemory number temporary hheld
    obtain ⟨hsound, hrows, hmemory₁⟩ := ih hnext hmemory (List.forall_mem_cons.mp hlinked).2
      (List.forall_mem_cons.mp hforest).2
    exact ⟨List.forall_mem_cons.mpr ⟨hleaf leaf temporary (by omega), hsound⟩, hrows, hmemory₁⟩
  | @stored memory memory₁ memory₂ next next₁ next₂ tree shared row leaf rest children rest' rows
      rows' htaken hfresh hchildren htemporary hvalue hrest ih ih' =>
    obtain ⟨hlinked, hrestLinked⟩ := List.forall_mem_cons.mp hlinked
    obtain ⟨htree, hrestSound⟩ := List.forall_mem_cons.mp hforest
    have hnext' := hrest.next_eq
    have hindex : row.temporary.index = next₁ := by rw [htemporary]
    obtain ⟨hsound, hrows, hmemory₁⟩ := ih (by omega) hmemory
      (by simpa using fun child hchild => hlinked.child hchild)
      (by simpa using fun child hchild => soundOperand_of_mem_children htree hchild)
    obtain ⟨hsound', hrows', hmemory₂⟩ := ih' hnext (fun number temporary hlookup => by
      rcases lookup_remembered hlookup with ⟨-, rfl⟩ | hlookup
      · omega
      · exact (hmemory₁ number temporary hlookup).trans (Nat.lt_succ_self _)) hrestLinked hrestSound
    have halike := Tree.alike_withChildren hlinked children
      (by simpa using hchildren.length_eq)
    refine ⟨List.forall_mem_cons.mpr ⟨hleaf leaf row.temporary (by omega), hsound'⟩,
      List.forall_mem_append.mpr ⟨hrows, List.forall_mem_cons.mpr ⟨⟨?_, by omega⟩, hrows'⟩⟩,
      hmemory₂⟩
    rw [hvalue]
    exact soundOperand_withChildren hvars halike htree hsound
  | @whole memory memory₁ next next₁ id written rest rest' rows hrest ih =>
    obtain ⟨htree, hrestSound⟩ := List.forall_mem_cons.mp hforest
    obtain ⟨hsound, hrows, hmemory₁⟩ :=
      ih hnext hmemory (List.forall_mem_cons.mp hlinked).2 hrestSound
    have hlt := (htree _ (Tree.mem_subtrees_self _)).variable_lt written rfl
    exact ⟨List.forall_mem_cons.mpr ⟨hleaf id written (hlt.trans_le hvars), hsound⟩, hrows,
      hmemory₁⟩
  | @field memory memory₁ memory₂ next next₁ next₂ tree record record' number rest rest' rows rows'
      hnode htree hrecord hrest ih ih' =>
    obtain ⟨hlinked, hrestLinked⟩ := List.forall_mem_cons.mp hlinked
    obtain ⟨hoperand, hrestSound⟩ := List.forall_mem_cons.mp hforest
    have hnext' := hrest.next_eq
    have hchild : record ∈ tree.children := by simp [htree]
    obtain ⟨hsound, hrows, hmemory₁⟩ := ih (by omega) hmemory (by simpa using hlinked.child hchild)
      (by simpa using soundOperand_of_mem_children hoperand hchild)
    obtain ⟨hsound', hrows', hmemory₂⟩ := ih' hnext hmemory₁ hrestLinked hrestSound
    have halike := Tree.alike_withChildren hlinked [record'] (by simp [htree])
    exact ⟨List.forall_mem_cons.mpr ⟨soundOperand_withChildren hvars halike hoperand hsound,
        hsound'⟩, List.forall_mem_append.mpr ⟨hrows, hrows'⟩, hmemory₂⟩
  | @index memory memory₁ memory₂ next next₁ next₂ tree base position base' position' rest rest'
      rows rows' hnode htree hparts hrest ih ih' =>
    obtain ⟨hlinked, hrestLinked⟩ := List.forall_mem_cons.mp hlinked
    obtain ⟨hoperand, hrestSound⟩ := List.forall_mem_cons.mp hforest
    have hnext' := hrest.next_eq
    have hbase : base ∈ tree.children := by simp [htree]
    have hposition : position ∈ tree.children := by simp [htree]
    obtain ⟨hsound, hrows, hmemory₁⟩ := ih (by omega) hmemory
      (by simpa using ⟨hlinked.child hposition, hlinked.child hbase⟩)
      (by simpa using ⟨soundOperand_of_mem_children hoperand hposition,
        soundOperand_of_mem_children hoperand hbase⟩)
    obtain ⟨hsound', hrows', hmemory₂⟩ := ih' hnext hmemory₁ hrestLinked hrestSound
    have halike := Tree.alike_withChildren hlinked [base', position'] (by simp [htree])
    refine ⟨List.forall_mem_cons.mpr ⟨soundOperand_withChildren hvars halike hoperand ?_, hsound'⟩,
      List.forall_mem_append.mpr ⟨hrows, hrows'⟩, hmemory₂⟩
    simp only [List.forall_mem_cons] at hsound ⊢
    exact ⟨hsound.2.1, hsound.1, by simp⟩

end Lifted

end ShaderIR
