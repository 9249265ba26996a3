import ShaderIR.Proofs.Pass.Settling

/-!
What is left of a statement after sharing. An `Origin` is a temporary with the computation that has
been kept for it, and the memory lists the origins of a block (`SharingPlan.Edited.exists_origins`).
Every node that is left, but for reads and for the new assignments, comes from a node of the
statement (`SharingPlan.Descends`): where a child was repeated, there is a read of the temporary of
its number, and the node itself, if it is repeated, is an origin.
-/

set_option autoImplicit false

namespace ShaderIR

/-- A temporary that holds a repeated number, and the computation that has been kept for it. -/
structure Origin where
  /-- The node that is kept. -/
  id : NodeId
  number : ValueNumber
  temporary : VarId

/-- What is remembered of an origin. -/
def Origin.entry (origin : Origin) : ValueNumber × VarId :=
  (origin.number, origin.temporary)

namespace Origin

/-- The temporaries of the origins are the next ones, in order. -/
structure Successive (next : Nat) (origins : List Origin) (next' : Nat) : Prop where
  next_eq : next' = next + origins.length
  temporaries : origins.map (fun origin => origin.temporary.index) = List.range' next origins.length

variable {next next₁ next' : Nat} {origins origins' : List Origin}

theorem Successive.append (hfirst : Successive next origins next₁)
    (hsecond : Successive next₁ origins' next') :
    Successive next (origins ++ origins') next' where
  next_eq := by rw [hsecond.next_eq, hfirst.next_eq, List.length_append, Nat.add_assoc]
  temporaries := by
    rw [List.map_append, hfirst.temporaries, hsecond.temporaries, hfirst.next_eq,
      List.length_append, List.range'_append_1]

theorem successive_singleton (id : NodeId) (number : ValueNumber) (next : Nat) :
    Successive next [⟨id, number, ⟨next⟩⟩] (next + 1) :=
  ⟨rfl, rfl⟩

end Origin

/-- The row computes what the origin stands for. -/
structure Row.Defines (row : Row) (origin : Origin) : Prop where
  id : row.value.id = origin.id
  temporary : row.temporary = origin.temporary

namespace SharingPlan

/-- If the first tree is repeated, then the second one reads the temporary of its number. -/
def Reads (plan : SharingPlan) (memory : Temporaries) (tree tree' : Tree) : Prop :=
  ∀ number, plan.targets.lookup tree.id = some number →
    ∃ temporary, (number, temporary) ∈ memory ∧ tree'.node = .variable temporary

/-- The second tree is what is left of the first one. -/
structure Descends (plan : SharingPlan) (memory : Temporaries) (origins : List Origin)
    (tree tree' : Tree) : Prop where
  id : tree'.id = tree.id
  children : List.Forall₂ (plan.Reads memory) tree.children tree'.children
  origin : (plan.targets.lookup tree.id).isSome → ∃ origin ∈ origins, origin.id = tree.id

variable {plan : SharingPlan} {memory memory' : Temporaries} {origins origins' : List Origin}
  {tree tree' : Tree}

theorem Reads.mono (hreads : plan.Reads memory tree tree') (hmemory : memory ⊆ memory') :
    plan.Reads memory' tree tree' :=
  fun number hlookup => (hreads number hlookup).imp fun _ hread => ⟨hmemory hread.1, hread.2⟩

theorem Descends.mono (hdescends : plan.Descends memory origins tree tree')
    (hmemory : memory ⊆ memory') (horigins : origins ⊆ origins') :
    plan.Descends memory' origins' tree tree' where
  id := hdescends.id
  children := hdescends.children.imp fun _ _ hreads => hreads.mono hmemory
  origin hsome := (hdescends.origin hsome).imp fun _ horigin => ⟨horigins horigin.1, horigin.2⟩

/-- Every tree of the second list but reads is what is left of one of the first list. -/
def Leaves (plan : SharingPlan) (memory : Temporaries) (origins : List Origin)
    (nodes nodes' : List Tree) : Prop :=
  ∀ node' ∈ nodes', node'.node.kind = .variable ∨ ∃ node ∈ nodes,
    plan.Descends memory origins node node'

variable {nodes nodes' more more' : List Tree}

theorem Leaves.mono (hleaves : plan.Leaves memory origins nodes nodes') (hmemory : memory ⊆ memory')
    (horigins : origins ⊆ origins') (hnodes : nodes ⊆ more) :
    plan.Leaves memory' origins' more nodes' :=
  fun node' hnode' => (hleaves node' hnode').imp_right fun hdescends => hdescends.imp fun _ hnode =>
    ⟨hnodes hnode.1, hnode.2.mono hmemory horigins⟩

/-- What the operands of a statement leave behind, with the origins of the new temporaries. -/
structure Account (plan : SharingPlan) (memory memory' : Temporaries) (forest : List (Role × Tree))
    (forest' : List Tree) (rows : List Row) (origins : List Origin) : Prop where
  held : memory' = (origins.map Origin.entry).reverse ++ memory
  defined : List.Forall₂ Row.Defines rows origins
  targets : ∀ origin ∈ origins, plan.targets.lookup origin.id = some origin.number
  reads : List.Forall₂ (fun item tree' => plan.Reads memory' item.2 tree') forest forest'
  leaves : plan.Leaves memory' origins ((forest.map Prod.snd).flatMap Tree.subtrees)
    ((rows.map Row.value ++ forest').flatMap Tree.subtrees)

namespace Account

variable {memory₁ : Temporaries} {forest more : List (Role × Tree)} {forest' more' : List Tree}
  {rows rows' : List Row}

theorem nil (plan : SharingPlan) (memory : Temporaries) :
    plan.Account memory memory [] [] [] [] where
  held := rfl
  defined := .nil
  targets := by simp
  reads := .nil
  leaves := by simp [Leaves]

theorem subset (haccount : plan.Account memory memory' forest forest' rows origins) :
    memory ⊆ memory' := by
  rw [haccount.held]
  exact List.subset_append_right _ _

theorem append (hfirst : plan.Account memory memory₁ forest forest' rows origins)
    (hsecond : plan.Account memory₁ memory' more more' rows' origins') :
    plan.Account memory memory' (forest ++ more) (forest' ++ more') (rows ++ rows')
      (origins ++ origins') where
  held := by rw [hsecond.held, hfirst.held, List.map_append, List.reverse_append, List.append_assoc]
  defined := List.rel_append hfirst.defined hsecond.defined
  targets := List.forall_mem_append.mpr ⟨hfirst.targets, hsecond.targets⟩
  reads :=
    List.rel_append (hfirst.reads.imp fun _ _ hreads => hreads.mono hsecond.subset) hsecond.reads
  leaves := by
    have hleft := hfirst.leaves.mono hsecond.subset (List.subset_append_left origins origins')
      (List.subset_append_left _ ((more.map Prod.snd).flatMap Tree.subtrees))
    have hright :=
      hsecond.leaves.mono (List.Subset.refl _) (List.subset_append_right origins origins')
      (List.subset_append_right ((forest.map Prod.snd).flatMap Tree.subtrees) _)
    rw [List.map_append, List.flatMap_append]
    intro node' hnode'
    simp only [List.map_append, List.flatMap_append, List.mem_append, or_assoc] at hnode'
    rcases hnode' with h | h | h | h
    · exact hleft node' (by simp only [List.flatMap_append, List.mem_append, h, true_or])
    · exact hright node' (by simp only [List.flatMap_append, List.mem_append, h, true_or])
    · exact hleft node' (by simp only [List.flatMap_append, List.mem_append, h, or_true])
    · exact hright node' (by simp only [List.flatMap_append, List.mem_append, h, or_true])

/-- A tree that is not repeated is left with what is left of its children. -/
theorem rebuild (haccount : plan.Account memory memory' forest forest' rows origins) {role : Role}
    (hnone : plan.targets.lookup tree.id = none) (hid : tree'.id = tree.id)
    (hforest : ∀ item ∈ forest, item.2 ∈ tree.children) (hforest' : tree'.children ⊆ forest')
    (hchildren : List.Forall₂ (plan.Reads memory') tree.children tree'.children) :
    plan.Account memory memory' [(role, tree)] [tree'] rows origins where
  held := haccount.held
  defined := haccount.defined
  targets := haccount.targets
  reads := .cons (fun number hlookup => by rw [hnone] at hlookup; cases hlookup) .nil
  leaves := by
    have hbelow : plan.Leaves memory' origins tree.subtrees _ :=
      haccount.leaves.mono (List.Subset.refl _) (List.Subset.refl _) fun node hnode => by
        obtain ⟨_, hmem, hnode⟩ := List.mem_flatMap.mp hnode
        obtain ⟨item, hitem, rfl⟩ := List.mem_map.mp hmem
        exact Tree.mem_subtrees_of_mem_children (hforest item hitem) hnode
    rw [List.map_singleton, List.flatMap_singleton]
    intro node' hnode'
    rw [List.flatMap_append, List.flatMap_singleton, List.mem_append] at hnode'
    rcases hnode' with hrow | hnode'
    · exact hbelow node' (by simp only [List.flatMap_append, List.mem_append, hrow, true_or])
    · rcases Tree.eq_or_mem_of_mem_subtrees hnode' with rfl | ⟨child, hchild, hnode'⟩
      · exact Or.inr ⟨tree, tree.mem_subtrees_self, hid, hchildren, by simp [hnone]⟩
      · exact hbelow node'
          (List.mem_flatMap.mpr ⟨child, List.mem_append_right _ (hforest' hchild), hnode'⟩)

theorem map_snd_map_value (trees : List Tree) :
    (trees.map (Role.value, ·)).map Prod.snd = trees := by
  simp [Function.comp_def]

/-- A tree whose number is held already is left as a read. -/
theorem read {number : ValueNumber} {temporary : VarId}
    (hlookup : plan.targets.lookup tree.id = some number)
    (hheld : (number, temporary) ∈ memory) (leaf : NodeId) :
    plan.Account memory memory [(.value, tree)] [⟨leaf, .variable temporary, []⟩] [] [] where
  held := rfl
  defined := .nil
  targets := by simp
  reads := .cons (fun number' hlookup' => by
    obtain rfl := Option.some.inj (hlookup.symm.trans hlookup')
    exact ⟨temporary, hheld, rfl⟩) .nil
  leaves := by simp [Leaves, Tree.subtrees_mk, Node.kind]

/-- A tree that is put into a temporary is left as a read, and it is an origin. -/
theorem store {children : List Tree} {row : Row} {number : ValueNumber}
    (haccount : plan.Account memory memory' (tree.children.map (Role.value, ·))
      children rows origins) (hlookup : plan.targets.lookup tree.id = some number)
    (hvalue : row.value = tree.withChildren children) (leaf : NodeId) :
    plan.Account memory ((number, row.temporary) :: memory')
      [(.value, tree)] [⟨leaf, .variable row.temporary, []⟩]
      (rows ++ [row]) (origins ++ [⟨tree.id, number, row.temporary⟩]) where
  held := by simp [haccount.held, Origin.entry]
  defined := List.rel_append haccount.defined (.cons ⟨by rw [hvalue]; rfl, rfl⟩ .nil)
  targets := List.forall_mem_append.mpr ⟨haccount.targets, by simpa using hlookup⟩
  reads := .cons (fun number' hlookup' => by
    obtain rfl := Option.some.inj (hlookup.symm.trans hlookup')
    exact ⟨row.temporary, List.mem_cons_self, rfl⟩) .nil
  leaves := by
    have hbelow : plan.Leaves _ _ tree.subtrees _ :=
      haccount.leaves.mono (List.subset_cons_self (number, row.temporary) _)
        (List.subset_append_left _ [⟨tree.id, number, row.temporary⟩]) fun node hnode => by
          rw [map_snd_map_value] at hnode
          obtain ⟨child, hchild, hnode⟩ := List.mem_flatMap.mp hnode
          exact Tree.mem_subtrees_of_mem_children hchild hnode
    have hchildren :
        List.Forall₂ (plan.Reads ((number, row.temporary) :: memory')) tree.children children :=
      (List.forall₂_map_left_iff.mp haccount.reads).imp fun _ _ hreads =>
        hreads.mono (List.subset_cons_self _ _)
    rw [List.map_singleton, List.flatMap_singleton]
    intro node' hnode'
    rw [List.map_append, List.map_singleton, hvalue] at hnode'
    simp only [List.flatMap_append, List.flatMap_singleton, List.mem_append] at hnode'
    rcases hnode' with (hrow | hself) | hleaf
    · exact hbelow node' (by simp only [List.flatMap_append, List.mem_append, hrow, true_or])
    · rcases Tree.eq_or_mem_of_mem_subtrees hself with rfl | ⟨child, hchild, hnode'⟩
      · exact Or.inr ⟨tree, tree.mem_subtrees_self, rfl, hchildren, fun _ =>
          ⟨⟨tree.id, number, row.temporary⟩, by simp, rfl⟩⟩
      · exact hbelow node' (List.mem_flatMap.mpr ⟨child, List.mem_append_right _ hchild, hnode'⟩)
    · rw [Tree.subtrees_mk] at hleaf
      obtain rfl : node' = _ := by simpa using hleaf
      exact Or.inl rfl

end Account

theorem exists_account {next next' : Nat} {forest : List (Role × Tree)} {forest' : List Tree}
    {rows : List Row} (hlifted : Lifted plan.verdict memory next forest forest' rows memory' next')
    (hroles : ∀ item ∈ forest, item.1 ≠ .root)
    (hfixed : ∀ item ∈ forest, ∀ node ∈ item.1.fixed item.2, plan.targets.lookup node.id = none) :
    ∃ origins, plan.Account memory memory' forest forest' rows origins := by
  induction hlifted with
  | nil memory => exact ⟨[], .nil plan memory⟩
  | @kept memory memory₁ memory₂ next next₁ next₂ role tree rest children rest' rows rows' hkeeps
      hbelow hrest ih ih' =>
    rw [List.forall_mem_cons] at hroles hfixed
    obtain ⟨rfl, hverdict⟩ := hkeeps.resolve_left hroles.1
    obtain ⟨first, hfirst⟩ := ih (by simp) (by simp [Role.fixed])
    obtain ⟨second, hsecond⟩ := ih' hroles.2 hfixed.2
    have hnone : plan.targets.lookup tree.id = none := by simpa [verdict] using hverdict
    have htree :
        plan.Account memory memory₁ [(.value, tree)] [tree.withChildren children] rows first :=
      hfirst.rebuild hnone rfl (by simp)
        (List.Subset.refl _) (by simpa [Tree.withChildren] using hfirst.reads)
    exact ⟨first ++ second, htree.append hsecond⟩
  | @reused memory memory₁ next next₁ tree number temporary leaf rest rest' rows htaken hheld
      hrest ih =>
    rw [List.forall_mem_cons] at hroles hfixed
    obtain ⟨later, hlater⟩ := ih hroles.2 hfixed.2
    have hmem : (number, temporary) ∈ memory := by
      obtain ⟨before, after, rfl, -⟩ := List.lookup_eq_some_iff.mp hheld
      exact List.mem_append_right _ List.mem_cons_self
    have htree := Account.read (verdict_eq_some_iff.mp htaken) hmem leaf
    exact ⟨[] ++ later, htree.append hlater⟩
  | @stored memory memory₁ memory₂ next next₁ next₂ tree shared row leaf rest children rest' rows
      rows' htaken hfresh hbelow htemporary hvalue hrest ih ih' =>
    rw [List.forall_mem_cons] at hroles hfixed
    obtain ⟨number, hlookup, rfl⟩ := Option.map_eq_some_iff.mp htaken
    obtain ⟨first, hfirst⟩ := ih (by simp) (by simp [Role.fixed])
    obtain ⟨second, hsecond⟩ := ih' hroles.2 hfixed.2
    have hboth := (hfirst.store hlookup hvalue leaf).append hsecond
    rw [List.append_assoc] at hboth
    exact ⟨_, hboth⟩
  | @whole memory memory₁ next next₁ id written rest rest' rows hrest ih =>
    rw [List.forall_mem_cons] at hroles hfixed
    obtain ⟨later, hlater⟩ := ih hroles.2 hfixed.2
    have hnone := hfixed.1 ⟨id, .variable written, []⟩ (by simp [Role.fixed, Tree.spine])
    have htree : plan.Account memory memory [(.place, _)] [⟨id, .variable written, []⟩] [] [] :=
      (Account.nil plan memory).rebuild hnone rfl (by simp) (by simp) .nil
    exact ⟨[] ++ later, htree.append hlater⟩
  | @field memory memory₁ memory₂ next next₁ next₂ tree record record' number rest rest' rows rows'
      hnode htree hrecord hrest ih ih' =>
    rw [List.forall_mem_cons] at hroles hfixed
    obtain ⟨second, hsecond⟩ := ih' hroles.2 hfixed.2
    obtain ⟨id, rfl⟩ := Tree.exists_eq_mk hnode htree
    have hspine := hfixed.1
    dsimp only at hspine
    rw [Role.fixed, Tree.spine, List.forall_mem_cons] at hspine
    obtain ⟨first, hfirst⟩ := ih (by simp) (List.forall_mem_singleton.mpr hspine.2)
    have htree : plan.Account memory memory₁ [(.place, _)]
        [Tree.withChildren ⟨id, .field record.id number, [record]⟩ [record']] rows first :=
      hfirst.rebuild hspine.1 rfl (by simp) (List.Subset.refl _) (by simpa using hfirst.reads)
    exact ⟨first ++ second, htree.append hsecond⟩
  | @index memory memory₁ memory₂ next next₁ next₂ tree base position base' position' rest rest'
      rows rows' hnode htree hparts hrest ih ih' =>
    rw [List.forall_mem_cons] at hroles hfixed
    obtain ⟨second, hsecond⟩ := ih' hroles.2 hfixed.2
    obtain ⟨id, rfl⟩ := Tree.exists_eq_mk hnode htree
    have hspine := hfixed.1
    dsimp only at hspine
    rw [Role.fixed, Tree.spine, List.forall_mem_cons] at hspine
    obtain ⟨first, hfirst⟩ :=
      ih (by simp) (List.forall_mem_cons.mpr ⟨fun _ hnode => absurd hnode List.not_mem_nil,
      List.forall_mem_singleton.mpr hspine.2⟩)
    have hreads := hfirst.reads
    simp only [List.forall₂_cons, List.forall₂_nil_left_iff, and_true] at hreads
    have htree : plan.Account memory memory₁ [(.place, _)]
        [Tree.withChildren ⟨id, .index base.id position.id,
        [base, position]⟩ [base', position']] rows first :=
      hfirst.rebuild hspine.1 rfl (by simp) (by simp [Tree.withChildren])
        (.cons hreads.2 (.cons hreads.1 .nil))
    exact ⟨first ++ second, htree.append hsecond⟩

/-- A written place stays where it is. -/
theorem id_eq_of_lifted {verdict : Verdict} {next next' : Nat}
    {forest : List (Role × Tree)} {forest' : List Tree}
    {rows : List Row} (hlifted : Lifted verdict memory next forest forest' rows memory' next') :
    List.Forall₂ (fun item tree' => item.1 = .place → tree'.id = item.2.id) forest forest' := by
  induction hlifted with
  | nil => exact .nil
  | kept _ _ _ _ ih | field _ _ _ _ _ ih | index _ _ _ _ _ ih => exact .cons (fun _ => rfl) ih
  | reused _ _ _ ih | stored _ _ _ _ _ _ _ ih => exact .cons nofun ih
  | whole _ ih => exact .cons (fun _ => rfl) ih

end SharingPlan

/-! ### Statements -/

/-- The computation of an origin stands on the right side of an assignment to its temporary, or it
is a call whose result is the temporary, which is copied to the old place. -/
def Replacement.Keeps (replaced : Replacement) (origin : Origin) : Prop :=
  (∃ row ∈ replaced.rows, row.Defines origin) ∨ ∃ callee arguments place copy leaf target,
    replaced.rest = [SharingPlan.callTree origin.id callee arguments
      (SharingPlan.readTree place origin.temporary),
      SharingPlan.copyTree copy leaf origin.temporary target]

namespace SharingPlan

variable {plan : SharingPlan} {memory memory₁ memory' : Temporaries}
  {origins origins' : List Origin}

/-- What is left of a statement, as the memory and the origins say in the end. -/
structure Leftovers (plan : SharingPlan) (memory : Temporaries) (origins : List Origin)
    (statement : Tree) (replaced : Replacement) : Prop where
  leaves : ∀ node' ∈ replaced.trees.flatMap Tree.subtrees,
    node'.node.kind = .variable ∨ node'.node.kind = .assign ∨
    ∃ node ∈ statement.subtrees, plan.Descends memory origins node node'
  stays : statement.node.kind ≠ .call → ∃ edited, replaced.rest = [edited] ∧
    plan.Descends memory origins statement edited
  copied : ∀ number, plan.targets.lookup statement.id = some number →
    ∃ temporary before copy leaf target, (number, temporary) ∈ memory ∧
    replaced.trees = before ++ [copyTree copy leaf temporary target] ∧
      ∃ callee arguments, statement.node = .call callee arguments (some target.id)

theorem Leftovers.mono {statement : Tree} {replaced : Replacement}
    (hleft : plan.Leftovers memory origins statement replaced) (hmemory : memory ⊆ memory')
    (horigins : origins ⊆ origins') : plan.Leftovers memory' origins' statement replaced where
  leaves node' hnode' :=
    (hleft.leaves node' hnode').imp_right (Or.imp_right (Exists.imp fun node hnode =>
      And.imp_right (fun hdescends => hdescends.mono hmemory horigins) hnode))
  stays hkind := (hleft.stays hkind).imp fun _ hedited =>
    ⟨hedited.1, hedited.2.mono hmemory horigins⟩
  copied number hlookup := by
    obtain ⟨temporary, before, copy, leaf, target, hheld, hcopied⟩ := hleft.copied number hlookup
    exact ⟨temporary, before, copy, leaf, target, hmemory hheld, hcopied⟩

variable {program program' : Program} {next next' : Nat} {statement : Tree} {rows : List Row}
  {trees : List Tree}

theorem Account.leaves_row {forest : List (Role × Tree)} {forest' : List Tree}
    (haccount : plan.Account memory memory' forest forest' rows origins)
    (hforest : ∀ item ∈ forest, item.2 ∈ statement.children) :
    (∀ node' ∈ (rows.map Row.statement).flatMap Tree.subtrees,
      node'.node.kind = .variable ∨ node'.node.kind = .assign ∨
      ∃ node ∈ statement.subtrees, plan.Descends memory' origins node node') ∧
    ∀ tree' ∈ forest', ∀ node' ∈ tree'.subtrees,
      node'.node.kind = .variable ∨ node'.node.kind = .assign ∨
      ∃ node ∈ statement.subtrees, plan.Descends memory' origins node node' := by
  have hbelow : plan.Leaves memory' origins statement.subtrees _ :=
    haccount.leaves.mono (List.Subset.refl _) (List.Subset.refl _) fun node hnode => by
      obtain ⟨_, hmem, hnode⟩ := List.mem_flatMap.mp hnode
      obtain ⟨item, hitem, rfl⟩ := List.mem_map.mp hmem
      exact Tree.mem_subtrees_of_mem_children (hforest item hitem) hnode
  constructor
  · intro node' hnode'
    rw [List.flatMap_map] at hnode'
    obtain ⟨row, hrow, hnode'⟩ := List.mem_flatMap.mp hnode'
    simp only [Row.statement, Row.target, Tree.subtrees_mk, List.flatMap_cons, List.flatMap_nil,
      List.append_nil, List.mem_cons, List.mem_append, List.not_mem_nil, or_false] at hnode'
    rcases hnode' with rfl | hnode' | rfl
    · exact Or.inr (Or.inl rfl)
    · exact (hbelow node' (List.mem_flatMap.mpr
          ⟨row.value, List.mem_append_left _ (List.mem_map_of_mem hrow), hnode'⟩)).imp_right Or.inr
    · exact Or.inl rfl
  · exact fun tree' htree' node' hnode' =>
      (hbelow node'
        (List.mem_flatMap.mpr ⟨tree', List.mem_append_right _ htree', hnode'⟩)).imp_right Or.inr

theorem leaves_copyTree {property : Tree → Prop} {copy leaf : NodeId}
    {temporary : VarId} {target : Tree} (htarget : ∀ node' ∈ target.subtrees,
      node'.node.kind = .variable ∨ node'.node.kind = .assign ∨ property node') :
    ∀ node' ∈ (copyTree copy leaf temporary target).subtrees,
      node'.node.kind = .variable ∨ node'.node.kind = .assign ∨ property node' := by
  refine Tree.forall_subtrees_mk.mpr ⟨Or.inr (Or.inl rfl),
    List.forall_mem_cons.mpr ⟨?_, List.forall_mem_singleton.mpr htarget⟩⟩
  exact Tree.forall_subtrees_mk.mpr ⟨Or.inl rfl, by simp⟩

/-- The operands of a statement account for what has been taken out of them, in the order of the new
temporaries. -/
theorem exists_account_of_parts {forest : List (Role × Tree)} {forest' : List Tree}
    (hlifted : Lifted plan.verdict memory next forest forest' rows memory' next')
    (hsound : program.Sound statement)
    (hfixed : ∀ node ∈ program.fixed statement, plan.targets.lookup node.id = none)
    (hforest : ∀ item ∈ forest, item ∈ program.parts .value statement) :
    ∃ origins, plan.Account memory memory' forest forest' rows origins ∧
      Origin.Successive next origins next' := by
  obtain ⟨origins, haccount⟩ := exists_account hlifted (fun item hitem =>
      Program.ne_root_of_mem_parts hsound (hforest item hitem)) fun item hitem node hnode =>
      hfixed node (List.mem_flatMap.mpr ⟨item, hforest item hitem, hnode⟩)
  have htemporaries : origins.map (fun origin => origin.temporary) = rows.map Row.temporary := by
    refine List.forall₂_eq_eq_eq ▸ ?_
    rw [List.forall₂_map_left_iff, List.forall₂_map_right_iff]
    exact haccount.defined.flip.imp fun _ _ hdefines => hdefines.temporary.symm
  refine ⟨origins, haccount, by rw [hlifted.next_eq, haccount.defined.length_eq], ?_⟩
  have hindices := congrArg (List.map VarId.index) htemporaries
  rw [List.map_map, List.map_map] at hindices
  rw [← haccount.defined.length_eq, ← hlifted.temporaries_eq]
  exact hindices

/-- What is left of a call that stores its result in a temporary and copies it from there. -/
theorem leftovers_first {id place copy leaf : NodeId} {callee : SignatureId}
    {arguments arguments' : List Tree} {target target' : Tree} {number : ValueNumber}
    {temporary : VarId} (hnumber : plan.targets.lookup id = some number)
    (htarget : plan.targets.lookup target.id = none)
    (hcount : arguments'.length = arguments.length) (hplace : target'.id = target.id)
    (haccount : plan.Account memory memory'
      (arguments.map (Role.value, ·) ++ [(Role.place, target)])
      (arguments' ++ [target']) rows origins) :
    plan.Leftovers ((number, temporary) :: memory') (origins ++ [⟨id, number, temporary⟩])
      (callTree id callee arguments target)
      ⟨rows, [callTree id callee arguments' (readTree place temporary),
        copyTree copy leaf temporary target']⟩ := by
  have hmemory : memory' ⊆ (number, temporary) :: memory' := List.subset_cons_self _ _
  have horigins : origins ⊆ origins ++ [⟨id, number, temporary⟩] := List.subset_append_left _ _
  have hmono {node' : Tree} (hnode' : node'.node.kind = .variable ∨ node'.node.kind = .assign ∨
      ∃ node ∈ (callTree id callee arguments target).subtrees,
        plan.Descends memory' origins node node') :=
    hnode'.imp_right (Or.imp_right (Exists.imp fun node hnode => And.imp_right
      (fun hdescends => hdescends.mono hmemory horigins) hnode))
  have hchild : ∀ item ∈ arguments.map (Role.value, ·) ++ [(Role.place, target)],
      item.2 ∈ (callTree id callee arguments target).children := by
    refine List.forall_mem_append.mpr ⟨List.forall_mem_map.mpr fun argument hargument => ?_,
      List.forall_mem_singleton.mpr ?_⟩
    · exact List.mem_append_left _ hargument
    · exact List.mem_append_right _ (List.mem_singleton_self _)
  obtain ⟨hrows, hbelow⟩ := haccount.leaves_row hchild
  have hself : plan.Descends ((number, temporary) :: memory') (origins ++ [⟨id, number, temporary⟩])
      (callTree id callee arguments target)
      (callTree id callee arguments' (readTree place temporary)) := by
    refine ⟨rfl, ?_, fun _ => ⟨⟨id, number, temporary⟩, by simp, rfl⟩⟩
    have hreads := (forall₂_of_append haccount.reads (by simpa using hcount.symm)).1
    refine List.rel_append ((List.forall₂_map_left_iff.mp hreads).imp fun _ _ hreads =>
      hreads.mono hmemory) (.cons (fun _ hlookup => ?_) .nil)
    rw [htarget] at hlookup
    cases hlookup
  refine ⟨?_, fun hkind => absurd rfl hkind, fun number' hnumber' => ?_⟩
  · simp only [Replacement.trees, List.flatMap_append, List.flatMap_cons, List.flatMap_nil,
      List.append_nil, List.forall_mem_append]
    refine ⟨fun node' hnode' => hmono (hrows node' hnode'), Tree.forall_subtrees_mk.mpr ⟨?_, ?_⟩,
      leaves_copyTree fun node' hnode' => hmono (hbelow target' (by simp) node' hnode')⟩
    · exact Or.inr (Or.inr ⟨_, Tree.mem_subtrees_self _, hself⟩)
    · refine List.forall_mem_append.mpr ⟨fun argument hargument node' hnode' =>
        hmono (hbelow argument (List.mem_append_left _ hargument) node' hnode'),
        List.forall_mem_singleton.mpr ?_⟩
      exact Tree.forall_subtrees_mk.mpr ⟨Or.inl rfl, by simp⟩
  · obtain rfl := Option.some.inj (hnumber.symm.trans hnumber')
    exact ⟨temporary, rows.map Row.statement ++
      [callTree id callee arguments' (readTree place temporary)], copy, leaf, target',
      List.mem_cons_self, by simp [Replacement.trees], _, _, by rw [hplace]⟩

/-- What is left of a shared statement, with the origins of the new temporaries. -/
theorem Edited.exists_origins
    (hedited : plan.Edited program program' memory next statement rows trees memory' next')
    (hsound : program.Sound statement) (hpurely : plan.SharesPurely program statement)
    (hfixed : ∀ node ∈ program.fixed statement, plan.targets.lookup node.id = none)
    (hcall : (plan.targets.lookup statement.id).isSome →
      ∃ callee arguments target, statement.node = .call callee arguments (some target)) :
    ∃ origins, memory' = (origins.map Origin.entry).reverse ++ memory ∧
      Origin.Successive next origins next' ∧
      (∀ origin ∈ origins, plan.targets.lookup origin.id = some origin.number ∧
        Replacement.Keeps ⟨rows, trees⟩ origin) ∧
      plan.Leftovers memory' origins statement ⟨rows, trees⟩ := by
  have hchild {item : Role × Tree} (hitem : item ∈ program.parts .value statement) :
      item.2 ∈ statement.children :=
    Program.map_snd_parts hsound .value ▸ List.mem_map_of_mem hitem
  cases hedited with
  | @operands _ _ _ _ parts' _ hnumber hlifted hdeclares =>
    obtain ⟨origins, haccount, hnext⟩ :=
      exists_account_of_parts hlifted hsound hfixed fun _ hitem => hitem
    have hnone : plan.targets.lookup statement.id = none := by
      by_contra hsome
      obtain ⟨_, _, _, hnode⟩ := hcall (Option.isSome_iff_ne_none.mpr hsome)
      exact hsome (hnumber _ _ _ hnode)
    have hself : plan.Descends memory' origins statement (statement.withChildren parts') := by
      refine ⟨rfl, ?_, by simp [hnone]⟩
      rw [← Program.map_snd_parts hsound .value, List.forall₂_map_left_iff]
      exact haccount.reads
    obtain ⟨hrows, hparts⟩ := haccount.leaves_row fun _ => hchild
    refine ⟨origins, haccount.held, hnext, fun origin horigin =>
      ⟨haccount.targets origin horigin, Or.inl ?_⟩, ?_, fun _ => ⟨_, rfl, hself⟩, by simp [hnone]⟩
    · exact exists_of_forall₂ haccount.defined.flip horigin
    · simp only [Replacement.trees, List.flatMap_append, List.flatMap_singleton,
        List.forall_mem_append]
      refine ⟨hrows, fun node' hnode' => ?_⟩
      rcases Tree.eq_or_mem_of_mem_subtrees hnode' with rfl | ⟨child, hchild, hnode'⟩
      · exact Or.inr (Or.inr ⟨statement, statement.mem_subtrees_self, hself⟩)
      · exact hparts child hchild node' hnode'
  | dropped hnumber =>
    obtain ⟨_, _, _, hresult⟩ := hcall (hnumber ▸ rfl)
    cases hresult
  | @first memory₁ _ next₁ id place copy leaf callee arguments arguments' target target' _ number
      signature name hnumber hfresh hsignature hlifted hdeclares hdeclared =>
    obtain ⟨found, hfound, hpure⟩ := hpurely _ _ _ rfl (hnumber ▸ rfl)
    have hparts := parts_callTree hsound hfound hpure
    obtain ⟨origins, haccount, hnext⟩ :=
      exists_account_of_parts hlifted hsound hfixed fun _ hitem => hparts ▸ hitem
    have hcount : arguments'.length = arguments.length := by simpa using hlifted.length_eq
    have hplace : target'.id = target.id :=
      (List.forall₂_cons.mp (forall₂_of_append (id_eq_of_lifted hlifted)
        (by simpa using hcount.symm)).2).1 rfl
    have htarget : plan.targets.lookup target.id = none :=
      hfixed target (List.mem_flatMap.mpr
        ⟨(.place, target), by simp [hparts], target.mem_spine_self⟩)
    refine ⟨origins ++ [⟨id, number, ⟨next₁⟩⟩], by simp [haccount.held, Origin.entry],
      hnext.append (Origin.successive_singleton _ _ _), ?_,
      leftovers_first hnumber htarget hcount hplace haccount⟩
    refine List.forall_mem_append.mpr ⟨fun origin horigin =>
      ⟨haccount.targets origin horigin, Or.inl ?_⟩,
      List.forall_mem_singleton.mpr ⟨hnumber, Or.inr ⟨_, _, _, _, _, _, rfl⟩⟩⟩
    exact exists_of_forall₂ haccount.defined.flip horigin
  | @again _ _ _ id copy leaf callee arguments target target' _ number temporary hnumber hheld
      hlifted hdeclares =>
    obtain ⟨signature, hsignature, hpure⟩ := hpurely _ _ _ rfl (hnumber ▸ rfl)
    have hparts := parts_callTree hsound hsignature hpure
    have hforest : ∀ item ∈ [(Role.place, target)],
        item ∈ program.parts .value (callTree id callee arguments target) := by
      simp [hparts]
    obtain ⟨origins, haccount, hnext⟩ := exists_account_of_parts hlifted hsound hfixed hforest
    have hplace : target'.id = target.id :=
      (List.forall₂_cons.mp (id_eq_of_lifted hlifted)).1 rfl
    have hmem : (number, temporary) ∈ memory := by
      obtain ⟨before, after, rfl, -⟩ := List.lookup_eq_some_iff.mp hheld
      exact List.mem_append_right _ List.mem_cons_self
    obtain ⟨hrows, htarget⟩ := haccount.leaves_row fun item hitem => hchild (hforest item hitem)
    refine ⟨origins, haccount.held, hnext, fun origin horigin =>
      ⟨haccount.targets origin horigin, Or.inl ?_⟩, ?_, fun hkind => absurd rfl hkind,
      fun number' hnumber' => ?_⟩
    · exact exists_of_forall₂ haccount.defined.flip horigin
    · simp only [Replacement.trees, List.flatMap_append, List.flatMap_singleton,
        List.forall_mem_append]
      exact ⟨hrows, leaves_copyTree (htarget target' (List.mem_singleton_self _))⟩
    · obtain rfl := Option.some.inj (hnumber.symm.trans hnumber')
      exact ⟨temporary, rows.map Row.statement, copy, leaf, target', haccount.subset hmem, rfl, _,
        _, by rw [hplace]⟩

/-- What is left of shared statements, with the origins of the new temporaries. -/
theorem EditedAll.exists_origins {statements : List Tree} {replaced : List Replacement}
    (hedited : plan.EditedAll program program' memory next statements replaced memory' next')
    (hsound : ∀ statement ∈ statements, program.Sound statement)
    (hpurely : ∀ statement ∈ statements, plan.SharesPurely program statement)
    (hfixed : ∀ statement ∈ statements, ∀ node ∈ program.fixed statement,
      plan.targets.lookup node.id = none)
    (hcall : ∀ statement ∈ statements, (plan.targets.lookup statement.id).isSome →
      ∃ callee arguments target, statement.node = .call callee arguments (some target)) :
    ∃ origins, memory' = (origins.map Origin.entry).reverse ++ memory ∧
      Origin.Successive next origins next' ∧
      (∀ origin ∈ origins, plan.targets.lookup origin.id = some origin.number ∧
        ∃ made ∈ replaced, made.Keeps origin) ∧
      List.Forall₂ (plan.Leftovers memory' origins) statements replaced := by
  induction hedited with
  | nil => exact ⟨[], rfl, ⟨rfl, rfl⟩, by simp, .nil⟩
  | cons hfirst hrest ih =>
    rw [List.forall_mem_cons] at hsound hpurely hfixed hcall
    obtain ⟨first, hheld, hnext, hkept, hleft⟩ :=
      hfirst.exists_origins hsound.1 hpurely.1 hfixed.1 hcall.1
    obtain ⟨later, hheld', hnext', hkept', hleft'⟩ := ih hsound.2 hpurely.2 hfixed.2 hcall.2
    refine ⟨first ++ later, by simp [hheld', hheld], hnext.append hnext',
      List.forall_mem_append.mpr ⟨fun origin horigin => ?_, fun origin horigin => ?_⟩, .cons ?_ ?_⟩
    · exact ⟨(hkept origin horigin).1, _, List.mem_cons_self, (hkept origin horigin).2⟩
    · obtain ⟨hlookup, made, hmade, hkeeps⟩ := hkept' origin horigin
      exact ⟨hlookup, made, List.mem_cons_of_mem _ hmade, hkeeps⟩
    · exact hleft.mono (hheld' ▸ List.subset_append_right _ _) (List.subset_append_left _ _)
    · exact hleft'.imp fun _ _ hleft =>
        hleft.mono (List.Subset.refl _) (List.subset_append_right _ _)

end SharingPlan

/-! ### Blocks -/

namespace BlockEdit

/-- What sharing has made of a block: each shared number has one origin, and this is what is left of
its statements. -/
structure Shares (edit : BlockEdit) (config : Config) (origins : List Origin) : Prop where
  nodup : (origins.map Origin.number).Nodup
  mem_iff : ∀ number, number ∈ origins.map Origin.number ↔ 1 < edit.numbering.redundancy number
  held : edit.memory = (origins.map Origin.entry).reverse
  kept : ∀ origin ∈ origins, (origin.id, origin.number) ∈ edit.numbering.occurrences ∧
    ∃ made ∈ edit.replaced, made.Keeps origin
  left :
    List.Forall₂ ((edit.plan config).Leftovers edit.memory origins) edit.statements edit.replaced

variable {config : Config} {program program' : Program} {edit : BlockEdit} {next next' : Nat}

theorem leftovers_unchanged {plan : SharingPlan} (hplan : plan.targets = []) (statement : Tree) :
    plan.Leftovers [] [] statement (.unchanged statement) := by
  have hself (node : Tree) : plan.Descends [] [] node node :=
    ⟨rfl, List.forall₂_same.mpr fun child _ number hlookup => by simp [hplan] at hlookup, by
        simp [hplan]⟩
  refine ⟨fun node' hnode' => ?_, fun _ => ⟨statement, rfl, hself statement⟩, by simp [hplan]⟩
  exact Or.inr (Or.inr ⟨node', by simpa [Replacement.trees, Replacement.unchanged] using hnode',
      hself node'⟩)

/-- An edited block has been shared. -/
theorem Edits.exists_origins (hedits : edit.Edits config program program' next next')
    {final : Numberer} (hblock : program.NumbersBlock config edit.statements final)
    (hnumbering : edit.numbering = final.numbering) (hpoisoned : edit.numbering.poisoned = false)
    (hpurely : ∀ statement ∈ edit.statements, (edit.plan config).SharesPurely program statement) :
    ∃ origins, edit.Shares config origins ∧ Origin.Successive next origins next' := by
  have hplan : edit.plan config = SharingPlan.ofNumbering final.numbering config :=
    congrArg (SharingPlan.ofNumbering · config) hnumbering
  have htargets {id : NodeId} {number : ValueNumber} :
      (edit.plan config).targets.lookup id = some number ↔
      (id, number) ∈ edit.numbering.occurrences ∧ 1 < edit.numbering.redundancy number := by
    rw [hplan, hnumbering]
    exact hblock.lookup_targets_iff
  cases hedits with
  | skipped hskipped hreplaced hmemory =>
    have hnone := hskipped.resolve_left (by simp [hpoisoned])
    refine ⟨[], ⟨List.nodup_nil, fun number => ⟨by simp, fun hrepeated => ?_⟩, hmemory, by simp,
        ?_⟩, rfl, rfl⟩
    · obtain ⟨id, hoccurrence⟩ := Program.NumbersBlock.exists_occurrence hrepeated
      have hlookup := htargets.mpr ⟨hoccurrence, hrepeated⟩
      rw [hnone] at hlookup
      cases hlookup
    · rw [hreplaced, hmemory]
      exact List.forall₂_map_right_iff.mpr (List.forall₂_same.mpr fun statement _ =>
        leftovers_unchanged hnone statement)
  | shared _ hedited =>
    have hsound : ∀ statement ∈ edit.statements, program.Sound statement := fun statement hmem =>
      (hblock.sound statement hmem).sound
    have hfixed : ∀ statement ∈ edit.statements, ∀ node ∈ program.fixed statement,
        (edit.plan config).targets.lookup node.id = none := fun statement hmem node hnode => by
      cases hlookup : (edit.plan config).targets.lookup node.id with
      | none => rfl
      | some number =>
        have hoccurrence := (htargets.mp hlookup).1
        rw [hnumbering] at hoccurrence
        exact absurd hoccurrence (hblock.numbers.not_noted_of_fixed hsound hblock.nodup hmem hnode)
    have hcall :
        ∀ statement ∈ edit.statements, ((edit.plan config).targets.lookup statement.id).isSome →
        ∃ callee arguments target, statement.node = .call callee arguments (some target) :=
          fun statement hmem hsome => by
            obtain ⟨number, hlookup⟩ := Option.isSome_iff_exists.mp hsome
            have hoccurrence := (htargets.mp hlookup).1
            rw [hnumbering] at hoccurrence
            exact hblock.exists_call_of_occurrence (hblock.draws statement hmem) hoccurrence
              (hsound statement hmem).isStatement
    obtain ⟨origins, hheld, hsuccessive, hkept, hleft⟩ :=
      hedited.exists_origins hsound hpurely hfixed hcall
    rw [hplan] at hedited hpurely
    obtain ⟨hnodup, hmem⟩ := hedited.mem_memory_iff hblock hpurely
    rw [List.append_nil] at hheld
    have hnumbers : edit.memory.map Prod.fst = (origins.map Origin.number).reverse := by
      rw [hheld, List.map_reverse, List.map_map]
      rfl
    rw [hnumbers] at hnodup
    refine ⟨origins, ⟨List.nodup_reverse.mp hnodup, fun number => ?_, hheld,
        fun origin horigin => ?_, hleft⟩, hsuccessive⟩
    · rw [hnumbering, ← hmem, hnumbers, List.mem_reverse]
    · exact ⟨(htargets.mp (hkept origin horigin).1).1, (hkept origin horigin).2⟩

end BlockEdit

end ShaderIR
