import ShaderIR.Proofs.Pass.MirroredLedgers
import ShaderIR.Proofs.Pass.SharedBlocks

/-!
Ledgers of a block that has been shared. What stands for a shared statement leaves the ledger of its
block as the old statement left the old one (`SharingPlan.Edited.mirrors`): its operands are made of
the same (`SharingPlan.mirrored_of_lifted`), and each row puts into a temporary what its number
names (`SharingPlan.follows_of_lifted`).
-/

set_option autoImplicit false

namespace ShaderIR

open Ledger

/-! ### Operands -/

theorem Role.operands_eq_singleton {role : Role} (hrole : role ≠ .place) (tree : Tree) :
    role.operands tree = [tree] := by
  cases role with
  | place => exact absurd rfl hrole
  | _ => rfl

theorem Role.flatMap_value_operands (trees : List Tree) :
    trees.flatMap Role.value.operands = trees :=
  List.flatMap_singleton' trees

namespace SharingPlan

variable {plan : SharingPlan} {bound : Nat} {naming : Naming} {memory memory' : Temporaries}
  {next next' : Nat} {ledger ledger' : Ledger} {eligible : NodeKinds} {forest : List (Role × Tree)}
  {forest' : List Tree} {rows : List Row} {program program' : Program}

/-- An operand of an old statement, in which all nodes that are shared are made of what their
numbers name. -/
structure Spells (plan : SharingPlan) (bound : Nat) (naming : Naming) (ledger : Ledger)
    (item : Role × Tree) : Prop where
  linked : item.2.Linked
  operand : ∀ below ∈ item.2.subtrees, below.node.isStatement = false
  reads : ∀ read ∈ item.2.reads, read.index < bound
  targets : ∀ below ∈ item.1.loose item.2, ∀ number, plan.targets.lookup below.id = some number →
    ∃ symbol, naming number = some symbol ∧ below.symbols ledger = [symbol]

namespace Spells

variable {item : Role × Tree} {role : Role} {tree child : Tree}

theorem of_mem_children (hitem : plan.Spells bound naming ledger item) (role : Role)
    (hchild : child ∈ item.2.children) (hloose : role.loose child ⊆ item.1.loose item.2) :
    plan.Spells bound naming ledger (role, child) where
  linked := hitem.linked.child hchild
  operand below hbelow := hitem.operand below (Tree.mem_subtrees_of_mem_children hchild hbelow)
  reads read hread := hitem.reads read (Tree.reads_subset_of_mem_children hchild hread)
  targets below hbelow := hitem.targets below (hloose hbelow)

theorem of_symbols (hitem : plan.Spells bound naming ledger item)
    (hsame : Tree.symbols ledger' = Tree.symbols ledger) :
    plan.Spells bound naming ledger' item :=
  ⟨hitem.linked, hitem.operand, hitem.reads, by rw [hsame]; exact hitem.targets⟩

theorem forall_children (hitem : plan.Spells bound naming ledger (role, tree))
    (hrole : role ≠ .place) :
    ∀ item ∈ tree.children.map (Role.value, ·), plan.Spells bound naming ledger item :=
  List.forall_mem_map.mpr fun _ hchild =>
    hitem.of_mem_children .value hchild (Role.loose_subset_of_mem_children hrole hchild)

theorem field {record : Tree} {recordId : NodeId} {number : Nat}
    (hitem : plan.Spells bound naming ledger (.place, tree))
    (hnode : tree.node = .field recordId number) (htree : tree.children = [record]) :
    plan.Spells bound naming ledger (.place, record) :=
  hitem.of_mem_children .place (by simp [htree]) (Role.loose_field hnode htree ▸ List.Subset.refl _)

theorem index {base position : Tree} {baseId positionId : NodeId}
    (hitem : plan.Spells bound naming ledger (.place, tree))
    (hnode : tree.node = .index baseId positionId) (htree : tree.children = [base, position]) :
    plan.Spells bound naming ledger (.value, position) ∧
    plan.Spells bound naming ledger (.place, base) := by
  have hloose := Role.loose_index hnode htree
  exact ⟨hitem.of_mem_children .value (by simp [htree]) (hloose ▸ List.subset_append_left _ _),
    hitem.of_mem_children .place (by simp [htree]) (hloose ▸ List.subset_append_right _ _)⟩

end Spells

theorem memory_subset_of_lifted {verdict : Verdict}
    (hlifted : Lifted verdict memory next forest forest' rows memory' next') :
    memory ⊆ memory' := by
  induction hlifted with
  | nil => exact List.Subset.refl _
  | reused _ _ _ ih | whole _ ih => exact ih
  | kept _ _ _ ih ih' | field _ _ _ _ ih ih' | index _ _ _ _ ih ih' =>
    exact List.Subset.trans ih ih'
  | stored _ _ _ _ _ _ ih ih' =>
    exact List.Subset.trans ih (List.Subset.trans (List.subset_append_right _ _) ih')

theorem mem_of_lookup {number : ValueNumber} {temporary : VarId}
    (hheld : memory.lookup number = some temporary) :
    (number, temporary) ∈ memory := by
  obtain ⟨before, after, rfl, -⟩ := List.lookup_eq_some_iff.mp hheld
  exact List.mem_append_right _ List.mem_cons_self

/-- A value that stays is made of the same if its children are. -/
theorem mirrored_withChildren {role : Role} {tree : Tree} {children : List Tree}
    (hlifted : Lifted plan.verdict memory next (tree.children.map (Role.value, ·))
      children rows memory' next') (hholds : Holds bound naming memory' ledger ledger')
    (htree : plan.Spells bound naming ledger (role, tree))
    (hchildren : List.Forall₂ (fun item tree' =>
        Mirrored eligible bound ledger ledger' (item.1.operands item.2)
        (item.1.operands tree')) (tree.children.map (Role.value, ·)) children) :
    Mirrored eligible bound ledger ledger' [tree] [tree.withChildren children] := by
  refine .withChildren hholds htree.linked (htree.operand tree tree.mem_subtrees_self) htree.reads
    (by simpa using hlifted.length_eq) ?_
  rw [List.forall₂_map_left_iff] at hchildren
  have hall : Mirrored eligible bound ledger ledger' (tree.children.flatMap Role.value.operands)
      (children.flatMap Role.value.operands) := .flatten hchildren
  rwa [Role.flatMap_value_operands, Role.flatMap_value_operands] at hall

/-- What has become of operands is made of the same. -/
theorem mirrored_of_lifted
    (hlifted : Lifted plan.verdict memory next forest forest' rows memory' next')
    (hholds : Holds bound naming memory' ledger ledger')
    (hforest : ∀ item ∈ forest, plan.Spells bound naming ledger item) :
    List.Forall₂ (fun item tree' => Mirrored eligible bound ledger ledger' (item.1.operands item.2)
      (item.1.operands tree')) forest forest' := by
  induction hlifted with
  | nil => exact .nil
  | @kept memory memory₁ memory₂ next next₁ next₂ role tree rest children rest' rows rows' hkeeps
      hbelow hrest ih ih' =>
    obtain ⟨htree, hlater⟩ := List.forall_mem_cons.mp hforest
    have hrole : role ≠ .place := by rcases hkeeps with rfl | ⟨rfl, -⟩ <;> simp
    have hholds₁ := hholds.mono (memory_subset_of_lifted hrest)
    have hkept :=
      mirrored_withChildren hbelow hholds₁ htree (ih hholds₁ (htree.forall_children hrole))
    refine .cons ?_ (ih' hholds hlater)
    rwa [Role.operands_eq_singleton hrole, Role.operands_eq_singleton hrole]
  | @reused memory memory₁ next next₁ tree number temporary leaf rest rest' rows htaken hheld
      hrest ih =>
    obtain ⟨htree, hlater⟩ := List.forall_mem_cons.mp hforest
    obtain ⟨symbol, hnamed, hsymbols⟩ :=
      htree.targets tree tree.mem_subtrees_self number (verdict_eq_some_iff.mp htaken)
    exact .cons (.of_held hholds htree.linked htree.operand htree.reads
      (memory_subset_of_lifted hrest (mem_of_lookup hheld)) hnamed hsymbols) (ih hholds hlater)
  | @stored memory memory₁ memory₂ next next₁ next₂ tree shared row leaf rest children rest' rows
      rows' htaken hfresh hbelow htemporary hvalue hrest ih ih' =>
    obtain ⟨htree, hlater⟩ := List.forall_mem_cons.mp hforest
    obtain ⟨number, hlookup, rfl⟩ := Option.map_eq_some_iff.mp htaken
    obtain ⟨symbol, hnamed, hsymbols⟩ := htree.targets tree tree.mem_subtrees_self number hlookup
    exact .cons (.of_held hholds htree.linked htree.operand htree.reads
      (memory_subset_of_lifted hrest List.mem_cons_self) hnamed hsymbols) (ih' hholds hlater)
  | @whole memory memory₁ next next₁ id written rest rest' rows hrest ih =>
    obtain ⟨-, hlater⟩ := List.forall_mem_cons.mp hforest
    exact .cons (.nil _ _ _ _) (ih hholds hlater)
  | @field memory memory₁ memory₂ next next₁ next₂ tree record record' number rest rest' rows rows'
      hnode htree hrecord hrest ih ih' =>
    obtain ⟨hitem, hlater⟩ := List.forall_mem_cons.mp hforest
    obtain ⟨id, rfl⟩ := Tree.exists_eq_mk hnode htree
    have hplace := ih (hholds.mono (memory_subset_of_lifted hrest))
      (List.forall_mem_singleton.mpr (hitem.field rfl rfl))
    exact .cons (List.forall₂_cons.mp hplace).1 (ih' hholds hlater)
  | @index memory memory₁ memory₂ next next₁ next₂ tree base position base' position' rest rest'
      rows rows' hnode htree hparts hrest ih ih' =>
    obtain ⟨hitem, hlater⟩ := List.forall_mem_cons.mp hforest
    obtain ⟨id, rfl⟩ := Tree.exists_eq_mk hnode htree
    obtain ⟨hposition, hbase⟩ := hitem.index rfl rfl
    have hplaces := ih (hholds.mono (memory_subset_of_lifted hrest)) (List.forall_mem_cons.mpr
      ⟨hposition, List.forall_mem_singleton.mpr hbase⟩)
    obtain ⟨hposition, hbase⟩ := List.forall₂_cons.mp hplaces
    exact .cons (hposition.append (List.forall₂_cons.mp hbase).1) (ih' hholds hlater)

/-! ### Rows -/

theorem performed_row (row : Row) :
    ledger.performed program eligible row.statement = (ledger.numbered eligible [row.value]).write
      false row.temporary (row.value.symbols ledger) := by
  have hindices : row.target.indices = [] :=
    Tree.indices.eq_3 _ (by simp [Row.target]) (by simp [Row.target])
  have hroot : row.target.root? = some row.temporary := by rw [Row.target, Tree.root?, Tree.fold_mk]
  have hpart : program.writesPart row.target 0 = false := rfl
  rw [Row.statement]
  refine (performed_assign row.id row.target row.value 0).trans ?_
  rw [hindices, stored, hroot, hpart]

/-- Rows put what has been taken out of operands into temporaries. -/
theorem follows_of_lifted
    (hlifted : Lifted plan.verdict memory next forest forest' rows memory' next')
    (hfollows : Follows bound naming memory next ledger ledger')
    (hforest : ∀ item ∈ forest, plan.Spells bound naming ledger item)
    (hknows : ledger.Knows eligible (Role.forest forest)) :
    Follows bound naming memory' next' ledger
      (ledger'.performedAll program' eligible (rows.map Row.statement)) := by
  have hcons {item : Role × Tree} {rest : List (Role × Tree)}
      (hknows : ledger.Knows eligible (Role.forest (item :: rest))) :
      ledger.Knows eligible (item.1.operands item.2) ∧ ledger.Knows eligible (Role.forest rest) :=
    ⟨hknows.subset (List.subset_append_left _ _), hknows.subset (List.subset_append_right _ _)⟩
  have hbelow {role : Role} {tree : Tree} (hrole : role ≠ .place)
      (hknows : ledger.Knows eligible (role.operands tree)) :
      ledger.Knows eligible (Role.forest (tree.children.map (Role.value, ·))) := by
    rw [Role.operands_eq_singleton hrole] at hknows
    rw [Role.forest_map_value]
    exact hknows.children
  induction hlifted generalizing ledger' with
  | nil => exact hfollows
  | @kept memory memory₁ memory₂ next next₁ next₂ role tree rest children rest' rows rows' hkeeps
      hchildren hrest ih ih' =>
    rw [List.forall_mem_cons] at hforest
    obtain ⟨hfirst, hlater⟩ := hcons hknows
    have hrole : role ≠ .place := by rcases hkeeps with rfl | ⟨rfl, -⟩ <;> simp
    rw [List.map_append, performedAll_append]
    exact ih' (ih hfollows (hforest.1.forall_children hrole) (hbelow hrole hfirst)) hforest.2 hlater
  | @reused memory memory₁ next next₁ tree number temporary leaf rest rest' rows htaken hheld
      hrest ih =>
    exact ih hfollows (List.forall_mem_cons.mp hforest).2 (hcons hknows).2
  | @stored memory memory₁ memory₂ next next₁ next₂ tree shared row leaf rest children rest' rows
      rows' htaken hfresh hchildren htemporary hvalue hrest ih ih' =>
    rw [List.forall_mem_cons] at hforest
    obtain ⟨hfirst, hlater⟩ := hcons hknows
    obtain ⟨number, hlookup, rfl⟩ := Option.map_eq_some_iff.mp htaken
    obtain ⟨symbol, hnamed, hsymbols⟩ :=
      hforest.1.targets tree tree.mem_subtrees_self number hlookup
    have hbetween := ih hfollows (hforest.1.forall_children (by simp)) (hbelow (by simp) hfirst)
    have hmirrored : Mirrored eligible bound ledger _ [tree] [tree.withChildren children] :=
      mirrored_withChildren hchildren hbetween.toHolds hforest.1
        (mirrored_of_lifted hchildren hbetween.toHolds (hforest.1.forall_children (by simp)))
    rw [← hvalue] at hmirrored
    have hcomputed :=
      List.singleton_injective (hmirrored.symbols.trans (congrArg (fun found => [found]) hsymbols))
    have hnumbered := hbetween.numbered hfirst hmirrored
    have hcovers := hnumbered.grounded.covers_symbols
      ((knows_numbered _ eligible [row.value]).1 _ (List.mem_singleton_self _))
    rw [symbols_numbered, hcomputed, List.forall_mem_singleton] at hcovers
    have hdefined := hnumbered.define hnamed hcovers
    rw [List.map_append, performedAll_append, List.map_cons, performedAll_cons, performed_row,
      hcomputed]
    refine ih' ?_ hforest.2 hlater
    rw [htemporary]
    exact hdefined
  | @whole memory memory₁ next next₁ id written rest rest' rows hrest ih =>
    exact ih hfollows (List.forall_mem_cons.mp hforest).2 (hcons hknows).2
  | @field memory memory₁ memory₂ next next₁ next₂ tree record record' number rest rest' rows rows'
      hnode htree hrecord hrest ih ih' =>
    rw [List.forall_mem_cons] at hforest
    obtain ⟨hfirst, hlater⟩ := hcons hknows
    obtain ⟨id, rfl⟩ := Tree.exists_eq_mk hnode htree
    rw [List.map_append, performedAll_append]
    exact ih' (ih hfollows (List.forall_mem_singleton.mpr (hforest.1.field rfl rfl))
      (by simpa [Role.forest, Role.operands, Tree.indices] using hfirst)) hforest.2 hlater
  | @index memory memory₁ memory₂ next next₁ next₂ tree base position base' position' rest rest'
      rows rows' hnode htree hparts hrest ih ih' =>
    rw [List.forall_mem_cons] at hforest
    obtain ⟨hfirst, hlater⟩ := hcons hknows
    obtain ⟨id, rfl⟩ := Tree.exists_eq_mk hnode htree
    rw [List.map_append, performedAll_append]
    obtain ⟨hposition, hbase⟩ := hforest.1.index rfl rfl
    exact ih' (ih hfollows
      (List.forall_mem_cons.mpr ⟨hposition, List.forall_mem_singleton.mpr hbase⟩)
      (by simpa [Role.forest, Role.operands, Tree.indices] using hfirst)) hforest.2 hlater

/-! ### Statements -/

/-- Stores through a place that has been kept cover as much as before. -/
theorem writesPart_of_lifted {verdict : Verdict}
    (hlifted : Lifted verdict memory next forest forest' rows memory' next')
    (hreads : ∀ item ∈ forest, ∀ read ∈ item.2.reads, read.index < bound)
    (hvars : ∀ index < bound, program'.vars[index]? = program.vars[index]?) :
    List.Forall₂ (fun item tree' => item.1 = .place → ∀ mask, program'.writesPart tree' mask =
      program.writesPart item.2 mask) forest forest' := by
  induction hlifted with
  | nil => exact .nil
  | kept hkeeps _ _ _ ih =>
    refine .cons (fun hplace => ?_) (ih (List.forall_mem_cons.mp hreads).2)
    rcases hkeeps with hrole | ⟨hrole, -⟩ <;> cases hrole.symm.trans hplace
  | reused _ _ _ ih | stored _ _ _ _ _ _ _ ih =>
    exact .cons (by simp) (ih (List.forall_mem_cons.mp hreads).2)
  | @whole _ _ _ _ id written _ _ _ _ ih =>
    obtain ⟨hfirst, hlater⟩ := List.forall_mem_cons.mp hreads
    refine .cons (fun _ mask => ?_) (ih hlater)
    simp only [Program.writesPart, hvars _ (hfirst written (Tree.mem_reads_mk.mpr (Or.inl rfl)))]
  | @field _ _ _ _ _ _ tree record record' number _ _ _ _ hnode htree _ _ _ ih =>
    obtain ⟨id, node, children⟩ := tree
    obtain rfl : node = .field record.id number := hnode
    exact .cons (fun _ _ => rfl) (ih (List.forall_mem_cons.mp hreads).2)
  | @index _ _ _ _ _ _ tree base position base' position' _ _ _ _ hnode htree _ _ _ ih =>
    obtain ⟨id, node, children⟩ := tree
    obtain rfl : node = .index base.id position.id := hnode
    exact .cons (fun _ _ => rfl) (ih (List.forall_mem_cons.mp hreads).2)

/-- A statement of the old block, in which all nodes that are shared are made of what their numbers
name. -/
structure SpellsStatement (plan : SharingPlan) (program : Program) (bound : Nat) (naming : Naming)
    (ledger : Ledger) (statement : Tree) : Prop where
  sound : program.Sound statement
  linked : statement.Linked
  parts : ∀ item ∈ program.parts .value statement, plan.Spells bound naming ledger item
  call : ∀ callee arguments result number, statement.node = .call callee arguments result →
    plan.targets.lookup statement.id = some number → program.StoresCall statement ∧
      ∃ symbol, naming number = some symbol ∧ ledger.returned program statement = [symbol]

/-- An operand of an edited statement. -/
structure Keeps (eligible : NodeKinds) (program program' : Program) (bound : Nat)
    (ledger ledger' : Ledger) (item : Role × Tree) (tree' : Tree) : Prop where
  mirrored : Mirrored eligible bound ledger ledger' (item.1.operands item.2) (item.1.operands tree')
  root : item.1 = .place → tree'.root? = item.2.root?
  part : item.1 = .place → ∀ mask, program'.writesPart tree' mask = program.writesPart item.2 mask

theorem keeps_of_lifted
    (hlifted : Lifted plan.verdict memory next forest forest' rows memory' next')
    (hholds : Holds bound naming memory' ledger ledger')
    (hforest : ∀ item ∈ forest, plan.Spells bound naming ledger item)
    (hvars : ∀ index < bound, program'.vars[index]? = program.vars[index]?) :
    List.Forall₂ (Keeps eligible program program' bound ledger ledger') forest forest' := by
  have hplaces := forall₂_and (root?_eq_of_lifted hlifted)
    (writesPart_of_lifted hlifted (fun item hitem => (hforest item hitem).reads) hvars)
  exact (forall₂_and (mirrored_of_lifted hlifted hholds hforest) hplaces).imp
    fun _ _ ⟨hmirrored, hroot, hpart⟩ => ⟨hmirrored, hroot, hpart⟩

/-- The operands of one role. -/
theorem forall₂_of_role {relation : Role × Tree → Tree → Prop}
    (role : Role) {items items' : List (Role × Tree)} (hitems : List.Forall₂
      (fun item item' => item'.1 = item.1 ∧ relation item item'.2) items items') :
    List.Forall₂ (fun tree tree' => relation (role, tree) tree')
      ((items.filter fun item => item.1 = role).map Prod.snd)
      ((items'.filter fun item => item.1 = role).map Prod.snd) := by
  induction hitems with
  | nil => exact .nil
  | @cons item item' items items' hitem _ ih =>
    obtain ⟨_, tree⟩ := item
    obtain ⟨found, tree'⟩ := item'
    obtain ⟨rfl, hrelated⟩ := hitem
    by_cases hrole : found = role
    · subst hrole
      rw [List.filter_cons_of_pos (by simp), List.filter_cons_of_pos (by simp)]
      exact .cons hrelated ih
    · rw [List.filter_cons_of_neg (by simpa using hrole),
        List.filter_cons_of_neg (by simpa using hrole)]
      exact ih

section Parts

variable {statement statement' : Tree} (hitems : List.Forall₂ (fun item item' => item'.1 = item.1 ∧
  Keeps eligible program program' bound ledger ledger' item item'.2)
  (program.parts .value statement) (program'.parts .value statement'))

include hitems

theorem mirrored_parts :
    Mirrored eligible bound ledger ledger' (Role.forest (program.parts .value statement))
      (Role.forest (program'.parts .value statement')) :=
  .flatten (hitems.imp fun _ _ ⟨hrole, hkeeps⟩ => by rw [hrole]; exact hkeeps.mirrored)

theorem map_symbols_passedBy : (program'.passedBy statement').map (Tree.symbols ledger') =
    (program.passedBy statement).map (Tree.symbols ledger) := by
  rw [← List.forall₂_eq_eq_eq, List.forall₂_map_left_iff, List.forall₂_map_right_iff]
  refine (forall₂_of_role .value hitems).flip.imp fun tree' tree hkeeps => ?_
  exact List.singleton_injective hkeeps.mirrored.symbols

theorem forall₂_writtenBy (mask : UInt8) :
    List.Forall₂ (fun target target' : Tree => target'.root? = target.root? ∧
    program'.writesPart target' mask = program.writesPart target mask) (program.writtenBy statement)
      (program'.writtenBy statement') :=
  (forall₂_of_role .place hitems).imp fun _ _ hkeeps => ⟨hkeeps.root rfl, hkeeps.part rfl mask⟩

end Parts

theorem makesPureCall_of_alike {statement statement' : Tree}
    (hmakes : program'.MakesPureCall statement') (halike : statement.node.Alike statement'.node)
    (hsignatures : program'.signatures = program.signatures) : program.MakesPureCall statement := by
  obtain ⟨callee, arguments, result, signature, hnode, hsignature, hpure⟩ := hmakes
  rw [Program.signature, hsignatures, ← Program.signature] at hsignature
  rw [hnode] at halike
  generalize hold : statement.node = node at halike
  cases halike with
  | call => exact ⟨callee, _, _, signature, hold, hsignature, hpure⟩

theorem storesCall_of_alike {statement statement' : Tree} (hstores : program'.StoresCall statement')
    (halike : statement.node.Alike statement'.node)
    (hsignatures : program'.signatures = program.signatures) :
    program.StoresCall statement := by
  obtain ⟨callee, arguments, target, signature, hnode, hsignature, hpure⟩ := hstores
  rw [Program.signature, hsignatures, ← Program.signature] at hsignature
  rw [hnode] at halike
  generalize hold : statement.node = node at halike
  cases halike with
  | call _ old _ result _ _ hresult =>
    obtain ⟨place, rfl⟩ := Option.isSome_iff_exists.mp hresult
    exact ⟨callee, old, place, signature, hold, hsignature, hpure⟩

section Edited

variable (hvars : ∀ index < bound, program'.vars[index]? = program.vars[index]?)
  (hsignatures : program'.signatures = program.signatures)

include hvars hsignatures

/-- A statement of which only operands have been edited. -/
theorem mirrors_withChildren {statement : Tree} {parts' : List Tree}
    (hlifted : Lifted plan.verdict memory next (program.parts .value statement) parts' rows
      memory' next') (hstatement : plan.SpellsStatement program bound naming ledger statement)
    (hmirrors : Mirrors bound naming memory next ledger ledger') :
    Mirrors bound naming memory' next' (ledger.performed program eligible statement)
      (ledger'.performedAll program' eligible
        (rows.map Row.statement ++ [statement.withChildren parts'])) := by
  have hsound := hstatement.sound
  have hlength : parts'.length = statement.children.length := by
    rw [hlifted.length_eq, ← Program.map_snd_parts hsound .value, List.length_map]
  have halike := Tree.alike_withChildren hstatement.linked parts' hlength
  have hparts : ∀ found, program'.parts .value found = program.parts .value found :=
    Program.parts_congr hsignatures .value
  have hsymbols (notes : Set (NodeId × Symbol)) (symbols : Set Symbol) :
      Tree.symbols ((ledger.numbered eligible (Role.forest (program.parts .value statement))).noting
        notes symbols) = Tree.symbols ledger := by rw [symbols_noting, symbols_numbered]
  -- the ledger after the operands of the old statement have been numbered
  set numbered := (ledger.numbered eligible (Role.forest (program.parts .value statement))).noting
    (ledger.calls program eligible statement) (ledger.results program statement) with hnumbered
  have hforest : ∀ item ∈ program.parts .value statement, plan.Spells bound naming numbered item :=
    fun item hitem =>
    (hstatement.parts item hitem).of_symbols (hsymbols _ _)
  have hknows : numbered.Knows eligible (Role.forest (program.parts .value statement)) :=
    (knows_numbered ledger eligible _).noting _ _
  have hrows :
      Follows bound naming memory' next' numbered (ledger'.performedAll program' eligible _) :=
    follows_of_lifted hlifted (hmirrors.advance _ _ _) hforest hknows
  rw [performedAll_append, performedAll_cons]
  set between := ledger'.performedAll program' eligible (rows.map Row.statement)
  have hitems {ledger₁ : Ledger} (hholds : Holds bound naming memory' numbered ledger₁) :
      List.Forall₂ (fun item item' => item'.1 = item.1 ∧
        Keeps eligible program program' bound numbered ledger₁ item item'.2)
        (program.parts .value statement)
          (program'.parts .value (statement.withChildren parts')) := by
    rw [hparts]
    exact hsound.forall₂_parts (keeps_of_lifted hlifted hholds hforest hvars)
  have hoperands := mirrored_parts (hitems hrows.toHolds)
  -- what has become of the operands is numbered, and the statement is noted if it was so
  have hreturned : between.returned program' (statement.withChildren parts') =
      ledger.returned program statement := by
    refine Mirrors.returned_eq halike ?_
    rw [map_symbols_passedBy (hitems hrows.toHolds), hnumbered, hsymbols]
  have hcalls :
      between.calls program' eligible (statement.withChildren parts') ⊆ numbered.noted := by
    rintro note ⟨hmade, hid, heligible, hstores⟩
    exact Or.inr ⟨hreturned ▸ hmade, hid, halike.kind_eq ▸ heligible,
      storesCall_of_alike hstores halike hsignatures⟩
  have hresults : between.results program' (statement.withChildren parts') ⊆ numbered.computed := by
    rintro symbol ⟨hmade, hmakes⟩
    exact Or.inr ⟨hreturned ▸ hmade, makesPureCall_of_alike hmakes halike hsignatures⟩
  have hfollows := (hrows.numbered hknows hoperands).noting hcalls hresults
  rw [performed, ← hnumbered, performed]
  refine Mirrors.affected ⟨hfollows, ?_⟩ halike hsignatures
    (forall₂_writtenBy (hitems hfollows.toHolds)) ?_
    (map_symbols_passedBy (hitems hfollows.toHolds)) ?_
  · rintro id (hid | ⟨tree, htree, hread⟩)
    · exact Or.inl (touched_subset_performedAll _ _ _ _ (hmirrors.touched_subset hid))
    · exact (mirrored_parts (hitems hfollows.toHolds)).touches
        (fun tree' htree' read hread => Or.inr ⟨tree', htree', hread⟩) tree htree id hread
  · intro target htarget root hroot
    obtain ⟨item, hitem, rfl⟩ := List.mem_map.mp htarget
    exact (hstatement.parts item (List.mem_of_mem_filter hitem)).reads root
      (Tree.root_mem_reads hroot)
  · intro tree' htree'
    obtain ⟨item', hitem', rfl⟩ := List.mem_map.mp htree'
    obtain ⟨hmem, hrole⟩ := List.mem_filter.mp hitem'
    refine hfollows.grounded.covers_symbols fun read hread => Or.inr ⟨item'.2, ?_, hread⟩
    refine List.mem_flatMap.mpr ⟨item', hmem, ?_⟩
    rw [of_decide_eq_true hrole]
    exact List.mem_singleton_self _

omit hvars hsignatures in
theorem indices_readTree (leaf : NodeId) (temporary : VarId) :
    (readTree leaf temporary).indices = [] :=
  Tree.indices.eq_3 _ (by simp) (by simp)

omit hvars hsignatures in
theorem stored_readTree (leaf : NodeId) (temporary : VarId) (value : List Symbol) :
    ledger.stored program (readTree leaf temporary) 0 value =
      ledger.write false temporary value := by
  have hroot : (readTree leaf temporary).root? = some temporary := by rw [Tree.root?, Tree.fold_mk]
  have hpart : program.writesPart (readTree leaf temporary) 0 = false := rfl
  rw [stored, hroot, hpart]

omit hvars hsignatures in
/-- What a repeated call returns, and what is known after it. -/
theorem performed_callTree {id : NodeId} {callee : SignatureId} {arguments : List Tree}
    {target : Tree} {signature : Signature} (hsignature : program.signature callee = .ok signature)
    (hpure : signature.isPure = true) (hlength : signature.params.length = arguments.length) :
    ledger.returned program (callTree id callee arguments target) =
        [.computed (.call callee) (arguments.map (Tree.symbols ledger))] ∧
      ledger.performed program eligible (callTree id callee arguments target) =
        ((ledger.numbered eligible (arguments ++ target.indices)).noting
          { note | eligible.contains .call = true ∧
          note = (id, .computed (.call callee) (arguments.map (Tree.symbols ledger))) }
            {.computed (.call callee) (arguments.map (Tree.symbols ledger))}).stored program target
            0 [.computed (.call callee) (arguments.map (Tree.symbols ledger))] := by
  have hpassed := (Program.passedBy_of_isPure id (some target) hsignature hpure hlength).1
  have hperformed : ledger.performed program eligible _ = _ :=
    performed_of_isPure id (some target) hsignature hpure hlength
  simp only [Option.map_some, Option.toList_some, List.foldl_cons, List.foldl_nil,
    List.flatMap_singleton, Option.isSome_some, true_and] at hpassed hperformed
  exact ⟨by simp [returned, Node.head?, hpassed], hperformed⟩

omit hvars hsignatures in
/-- The copy of a temporary to a place. -/
theorem mirrors_copyTree {number : ValueNumber}
    {temporary : VarId} {symbol : Symbol} {target target' : Tree}
    (hentry : (number, temporary) ∈ memory) (hnamed : naming number = some symbol)
    (hfollows : Follows bound naming memory next ledger ledger')
    (hknows : ledger.Knows eligible target.indices)
    (hkeeps : ∀ {ledger₁ : Ledger}, Holds bound naming memory ledger ledger₁ →
      Keeps eligible program program' bound ledger ledger₁ (.place, target) target')
    (hreads : ∀ read ∈ target.reads, read.index < bound) (htouched : ∀ ledger₁ : Ledger,
      Holds bound naming memory ledger ledger₁ → ledger'.touched ⊆ ledger₁.touched →
      (∀ tree' ∈ target'.indices, ∀ read ∈ tree'.reads, read ∈ ledger₁.touched) →
      ledger.touched ⊆ ledger₁.touched) (copy leaf : NodeId) :
    Mirrors bound naming memory next (ledger.stored program target 0 [symbol])
      (ledger'.performed program' eligible (copyTree copy leaf temporary target')) := by
  have hnumbered := hfollows.numbered hknows (hkeeps hfollows.toHolds).mirrored
  have hkept := hkeeps hnumbered.toHolds
  have hmirrors :
      Mirrors bound naming memory next ledger (ledger'.numbered eligible target'.indices) :=
    ⟨hnumbered, htouched _ hnumbered.toHolds Set.subset_union_left fun tree' htree' read hread =>
      Or.inr ⟨tree', htree', hread⟩⟩
  have hperformed : ledger'.performed program' eligible (copyTree copy leaf temporary target') =
      (ledger'.numbered eligible target'.indices).stored program' target' 0 [symbol] := by
    refine (performed_assign copy target' (readTree leaf temporary) 0).trans ?_
    rw [← List.singleton_append, numbered_append, hfollows.numbered_read hentry,
      Tree.symbols_variable, hfollows.read_held hentry hnamed]
  rw [hperformed]
  exact hmirrors.stored (hkept.root rfl) (hkept.part rfl 0)
    (fun root hroot => hreads root (Tree.root_mem_reads hroot))
    (List.forall_mem_singleton.mpr (hnumbered.covers_held hentry hnamed))

/-- The first call of its number stores its result in a temporary, which is copied. -/
theorem mirrors_first {id place copy leaf : NodeId} {callee : SignatureId}
    {arguments arguments' : List Tree} {target target' : Tree} {number : ValueNumber}
    (hnumber : plan.targets.lookup id = some number) (hlifted : Lifted plan.verdict memory
      next (arguments.map (Role.value, ·) ++ [(Role.place, target)])
      (arguments' ++ [target']) rows memory' next')
    (hstatement : plan.SpellsStatement program bound naming ledger
      (callTree id callee arguments target))
    (hmirrors : Mirrors bound naming memory next ledger ledger') :
    Mirrors bound naming ((number, ⟨next'⟩) :: memory') (next' + 1)
      (ledger.performed program eligible (callTree id callee arguments target))
      (ledger'.performedAll program' eligible (rows.map Row.statement ++ [callTree id callee
          arguments' (readTree place ⟨next'⟩), copyTree copy leaf ⟨next'⟩ target'])) := by
  obtain ⟨⟨_, _, _, signature, hnode, hsignature, hpure⟩, symbol, hnamed, hreturned⟩ :=
    hstatement.call _ _ _ _ rfl hnumber
  obtain ⟨rfl, -, -⟩ := Node.call.inj hnode
  have hlength := (of_callTree hstatement.sound hsignature).1
  obtain ⟨hcall, hperformed⟩ : ledger.returned program (callTree id callee arguments target) = _ ∧
    ledger.performed program eligible (callTree id callee arguments target) = _ :=
    performed_callTree hsignature hpure hlength
  obtain rfl := List.singleton_injective (hreturned.symm.trans hcall)
  have hitems := parts_callTree hstatement.sound hsignature hpure ▸ hstatement.parts
  have hforest : Role.forest (arguments.map (Role.value, ·) ++ [(Role.place, target)]) =
      arguments ++ target.indices := by
    rw [Role.forest, List.flatMap_append, ← Role.forest, Role.forest_map_value]
    simp [Role.operands]
  rw [hperformed]
  -- the ledger after the operands of the old call have been numbered
  set notes : Set (NodeId × Symbol) := { note | eligible.contains .call = true ∧
    note = (id, .computed (.call callee) (arguments.map (Tree.symbols ledger))) }
  set results : Set Symbol := {.computed (.call callee) (arguments.map (Tree.symbols ledger))}
  set numbered := (ledger.numbered eligible (arguments ++ target.indices)).noting notes results
    with hnumbered
  have hsymbols : Tree.symbols numbered = Tree.symbols ledger := by
      rw [hnumbered, symbols_noting, symbols_numbered]
  have hspells : ∀ item ∈ arguments.map (Role.value, ·) ++ [(Role.place, target)],
      plan.Spells bound naming numbered item :=
        fun item hitem => (hitems item hitem).of_symbols hsymbols
  have hknows : numbered.Knows eligible (arguments ++ target.indices) :=
    (knows_numbered ledger eligible _).noting _ _
  have hrows :
      Follows bound naming memory' next' numbered (ledger'.performedAll program' eligible _) :=
    follows_of_lifted hlifted (hmirrors.advance _ _ _) hspells (hforest ▸ hknows)
  rw [performedAll_append, performedAll_cons, performedAll_cons]
  set between := ledger'.performedAll program' eligible (rows.map Row.statement)
  have hcount : arguments'.length = arguments.length := by simpa using hlifted.length_eq
  have hkeeps {ledger₁ : Ledger} (hholds : Holds bound naming memory' numbered ledger₁) :
      Mirrored eligible bound numbered ledger₁ arguments arguments' ∧
        Keeps eligible program program' bound numbered ledger₁ (.place, target) target' := by
    obtain ⟨harguments, htarget⟩ :=
      forall₂_of_append (keeps_of_lifted hlifted hholds hspells hvars) (by simpa using hcount.symm)
    refine ⟨?_, (List.forall₂_cons.mp htarget).1⟩
    rw [List.forall₂_map_left_iff] at harguments
    have hall : Mirrored eligible bound numbered ledger₁ (arguments.flatMap Role.value.operands)
        (arguments'.flatMap Role.value.operands) :=
          .flatten (harguments.imp fun _ _ hkept => hkept.mirrored)
    rwa [Role.flatMap_value_operands, Role.flatMap_value_operands] at hall
  -- the new call is numbered, and its result goes into the next temporary
  have harguments := (hkeeps hrows.toHolds).1
  have hcomputed : arguments'.map (Tree.symbols between) = arguments.map (Tree.symbols ledger) := by
    rw [harguments.symbols, hsymbols]
  have hsignature' : program'.signature callee = .ok signature := by
    rw [Program.signature, hsignatures, ← Program.signature, hsignature]
  obtain ⟨-, hperformed'⟩ : _ ∧ between.performed program' eligible
      (callTree id callee arguments' (readTree place ⟨next'⟩)) = _ :=
    performed_callTree hsignature' hpure (hlength.trans hcount.symm)
  have hnotes : notes ⊆ numbered.noted := Set.subset_union_right
  have hresults : results ⊆ numbered.computed := Set.subset_union_right
  have hcalled :=
    (hrows.numbered (hknows.subset (List.subset_append_left _ _)) harguments).noting hnotes hresults
  have hcovers : ((between.numbered eligible arguments').noting notes results).Covers
      (.computed (.call callee) (arguments.map (Tree.symbols ledger))) := by
    rw [← hcomputed]
    refine covers_computed (List.forall_mem_map.mpr fun argument' hargument' => ?_) _
    have hsame : Tree.symbols between =
        Tree.symbols ((between.numbered eligible arguments').noting notes results) := by
      rw [symbols_noting, symbols_numbered]
    rw [hsame]
    exact hcalled.grounded.covers_symbols fun read hread => Or.inr ⟨argument', hargument', hread⟩
  have hdefined := hcalled.define hnamed hcovers
  rw [hperformed', hcomputed, indices_readTree, List.append_nil, stored_readTree]
  refine mirrors_copyTree List.mem_cons_self hnamed hdefined
    (hknows.subset (List.subset_append_right _ _))
    (fun hholds => (hkeeps (hholds.mono (List.subset_cons_self _ _))).2)
      (hspells (.place, target) (by simp)).reads (fun ledger₁ hholds hsubset hreads => ?_) copy leaf
  rintro read (hread | ⟨operand, hoperand, hread⟩)
  · refine hsubset ?_
    rw [touched_write]
    exact Or.inr (Or.inl (touched_subset_performedAll _ _ _ _ (hmirrors.touched_subset hread)))
  · have hkept := hkeeps (hholds.mono (List.subset_cons_self _ _))
    rcases List.mem_append.mp hoperand with hargument | hindex
    · refine hkept.1.touches (fun tree' htree' found hfound => hsubset ?_) operand hargument
        read hread
      rw [touched_write]
      exact Or.inr (Or.inr ⟨tree', htree', hfound⟩)
    · exact hkept.2.mirrored.touches hreads operand hindex read hread

omit hsignatures in
/-- A later call is replaced by a copy. -/
theorem mirrors_again {id copy leaf : NodeId} {callee : SignatureId} {arguments : List Tree}
    {target target' : Tree} {number : ValueNumber} {temporary : VarId}
    (hnumber : plan.targets.lookup id = some number) (hheld : memory.lookup number = some temporary)
    (hlifted : Lifted plan.verdict memory next [(Role.place, target)] [target'] rows memory' next')
    (hstatement : plan.SpellsStatement program bound naming ledger
      (callTree id callee arguments target))
    (hmirrors : Mirrors bound naming memory next ledger ledger') :
    Mirrors bound naming memory' next'
      (ledger.performed program eligible (callTree id callee arguments target))
      (ledger'.performedAll program' eligible
        (rows.map Row.statement ++ [copyTree copy leaf temporary target'])) := by
  obtain ⟨⟨_, _, _, signature, hnode, hsignature, hpure⟩, symbol, hnamed, hreturned⟩ :=
    hstatement.call _ _ _ _ rfl hnumber
  obtain ⟨rfl, -, -⟩ := Node.call.inj hnode
  obtain ⟨hcall, hperformed⟩ : ledger.returned program (callTree id callee arguments target) = _ ∧
    ledger.performed program eligible (callTree id callee arguments target) = _ :=
    performed_callTree hsignature hpure (of_callTree hstatement.sound hsignature).1
  obtain rfl := List.singleton_injective (hreturned.symm.trans hcall)
  have hitems := parts_callTree hstatement.sound hsignature hpure ▸ hstatement.parts
  rw [hperformed]
  set numbered := (ledger.numbered eligible (arguments ++ target.indices)).noting { note |
    eligible.contains .call = true ∧
    note = (id, .computed (.call callee) (arguments.map (Tree.symbols ledger))) }
    {.computed (.call callee) (arguments.map (Tree.symbols ledger))} with hnumbered
  have hsymbols : Tree.symbols numbered = Tree.symbols ledger := by
      rw [hnumbered, symbols_noting, symbols_numbered]
  have hspells : ∀ item ∈ arguments.map (Role.value, ·) ++ [(Role.place, target)],
      plan.Spells bound naming numbered item :=
        fun item hitem => (hitems item hitem).of_symbols hsymbols
  rw [List.forall_mem_append, List.forall_mem_map] at hspells
  obtain ⟨harguments, htarget⟩ := hspells
  have hknows : numbered.Knows eligible (arguments ++ target.indices) :=
    (knows_numbered ledger eligible _).noting _ _
  have hindices := hknows.subset (List.subset_append_right _ _)
  have hrows :
      Follows bound naming memory' next' numbered (ledger'.performedAll program' eligible _) :=
    follows_of_lifted hlifted (hmirrors.advance _ _ _)
      htarget (by simpa [Role.forest, Role.operands] using hindices)
  have hentry := memory_subset_of_lifted hlifted (mem_of_lookup hheld)
  have hkeeps {ledger₁ : Ledger} (hholds : Holds bound naming memory' numbered ledger₁) :
      Keeps eligible program program' bound numbered ledger₁ (.place, target) target' :=
    (List.forall₂_cons.mp (keeps_of_lifted hlifted hholds htarget hvars)).1
  rw [performedAll_append]
  refine mirrors_copyTree hentry hnamed hrows hindices hkeeps
    (htarget _ (List.mem_singleton_self _)).reads
    (fun ledger₁ hholds hsubset hreads => ?_) copy leaf
  rintro read (hread | ⟨operand, hoperand, hread⟩)
  · exact hsubset (touched_subset_performedAll _ _ _ _ (hmirrors.touched_subset hread))
  · rcases List.mem_append.mp hoperand with hargument | hindex
    · -- what the temporary holds is made of the argument
      have hitem := harguments operand hargument
      refine hholds.mem_touched hitem.linked hitem.operand hread (hitem.reads read hread)
        fun found hfound hmentions => ?_
      rw [hsymbols] at hfound
      exact hholds.covers_held hentry hnamed read
        (.computed (List.mem_map_of_mem hargument) hfound hmentions)
    · exact (hkeeps hholds).mirrored.touches hreads operand hindex read hread

/-- What stands for a shared statement leaves its ledger as the old statement left the old one. -/
theorem Edited.mirrors {statement : Tree} {trees : List Tree}
    (hedited : plan.Edited program program' memory next statement rows trees memory' next')
    (hstatement : plan.SpellsStatement program bound naming ledger statement)
    (hmirrors : Mirrors bound naming memory next ledger ledger') :
    Mirrors bound naming memory' next' (ledger.performed program eligible statement)
      (ledger'.performedAll program' eligible (rows.map Row.statement ++ trees)) := by
  cases hedited with
  | operands _ hlifted => exact mirrors_withChildren hvars hsignatures hlifted hstatement hmirrors
  | dropped hnumber =>
    -- only calls whose results are used have been noted
    obtain ⟨⟨_, _, _, _, hnode, -⟩, -⟩ := hstatement.call _ _ _ _ rfl hnumber
    exact absurd (Node.call.inj hnode).2.2 (by simp)
  | first hnumber _ _ hlifted =>
    exact mirrors_first hvars hsignatures hnumber hlifted hstatement hmirrors
  | again hnumber hheld hlifted =>
    exact mirrors_again hvars hnumber hheld hlifted hstatement hmirrors

/-- What stands for shared statements leaves their ledger as the old statements left the old one. -/
theorem EditedAll.mirrors {statements : List Tree} {replaced : List Replacement}
    (hedited : plan.EditedAll program program' memory next statements replaced memory' next')
    (hstatements : ∀ before statement after, statements = before ++ statement :: after →
      plan.SpellsStatement program bound naming (ledger.performedAll program eligible before)
      statement) (hmirrors : Mirrors bound naming memory next ledger ledger') :
    Mirrors bound naming memory' next' (ledger.performedAll program eligible statements)
      (ledger'.performedAll program' eligible (replaced.flatMap Replacement.trees)) := by
  induction hedited generalizing ledger ledger' with
  | nil => exact hmirrors
  | @cons _ _ _ _ _ _ statement statements _ _ hfirst _ ih =>
    rw [performedAll_cons, List.flatMap_cons, performedAll_append]
    refine ih (fun before other after hsplit => ?_)
      (hfirst.mirrors hvars hsignatures (hstatements [] statement statements rfl) hmirrors)
    exact hstatements (statement :: before) other after (by rw [hsplit]; rfl)

end Edited

end SharingPlan

end ShaderIR
