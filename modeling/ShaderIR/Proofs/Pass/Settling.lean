import ShaderIR.Proofs.Numbering.Noted
import ShaderIR.Proofs.Pass.SharedCode

/-!
Which numbers have been remembered. A number is settled (`Numberer.Settled`) if all repeated numbers
that it is computed from are in memory, it itself included. Sharing in the operands of a statement
settles the numbers of these operands, although what has been remembered already is not visited
again, and no number is remembered twice: the memory stays `Temporaries.Settles`. So all repeated
numbers of a block are in memory in the end.
-/

set_option autoImplicit false

namespace ShaderIR

theorem Node.kind_eq_of_head? {node node' : Node} (hhead : node.head? = node'.head?) {head : Head}
    (hsome : node.head? = some head) : node.kind = node'.kind := by
  cases node <;> cases node' <;> simp_all [head?, kind]

/-! ### Settled numbers -/

namespace Numberer

/-- All repeated numbers that a number is computed from are in memory, and so is the number itself
if it is repeated. -/
inductive Settled (final : Numberer) (memory : Temporaries) : ValueNumber → Prop
  | unkeyed {number : ValueNumber} (hunkeyed : final.Unkeyed number) : Settled final memory number
  | keyed {number : ValueNumber} (key : Key) (hentry : (key, number) ∈ final.table)
    (hheld : 1 < final.numbering.redundancy number → (memory.lookup number).isSome)
    (hoperands : ∀ value ∈ key.operands, ∀ operand ∈ value, Settled final memory operand) :
    Settled final memory number

/-- The second number is computed from the first one. -/
def Feeds (final : Numberer) (operand number : ValueNumber) : Prop :=
  ∃ key, (key, number) ∈ final.table ∧ ∃ value ∈ key.operands, operand ∈ value

variable {final : Numberer} {memory memory' : Temporaries} {number : ValueNumber}

theorem Settled.mono (hsettled : final.Settled memory number)
    (hmemory : ∀ number, (memory.lookup number).isSome → (memory'.lookup number).isSome) :
    final.Settled memory' number := by
  induction hsettled with
  | unkeyed hunkeyed => exact .unkeyed hunkeyed
  | keyed key hentry hheld _ ih =>
    exact .keyed key hentry (fun hrepeated => hmemory _ (hheld hrepeated)) ih

theorem Settled.operands (hsettled : final.Settled memory number) (hkeyed : final.Keyed) {key : Key}
    (hentry : (key, number) ∈ final.table) :
    ∀ value ∈ key.operands, ∀ operand ∈ value, final.Settled memory operand := by
  cases hsettled with
  | unkeyed hunkeyed => exact absurd hentry (hunkeyed key)
  | keyed key' hentry' _ hoperands =>
    obtain rfl := hkeyed.injective key key' number hentry hentry'
    exact hoperands

theorem closed_settled (hkeyed : final.Keyed) (memory : Temporaries) :
    final.Closed (final.Settled memory) :=
  fun _ _ hentry hsettled => hsettled.operands hkeyed hentry

theorem Settled.acc (hsettled : final.Settled memory number) (hkeyed : final.Keyed) :
    Acc final.Feeds number := by
  induction hsettled with
  | unkeyed hunkeyed =>
    refine .intro _ fun operand hfeeds => ?_
    obtain ⟨key, hentry, -⟩ := hfeeds
    exact absurd hentry (hunkeyed key)
  | keyed key hentry _ _ ih =>
    refine .intro _ fun operand hfeeds => ?_
    obtain ⟨key', hentry', value, hvalue, hoperand⟩ := hfeeds
    obtain rfl := hkeyed.injective key key' _ hentry hentry'
    exact ih value hvalue operand hoperand

/-- No settled number is computed from itself. -/
theorem Settled.irrefl (hsettled : final.Settled memory number) (hkeyed : final.Keyed) :
    ¬ Relation.TransGen final.Feeds number number := by
  have hacc := (hsettled.acc hkeyed).transGen
  induction hacc with
  | intro number _ ih => exact fun hcycle => ih number hcycle hsettled hcycle

end Numberer

/-- Only repeated numbers are remembered, none of them twice, and all of them are settled. -/
structure Temporaries.Settles (memory : Temporaries) (final : Numberer) : Prop where
  nodup : (memory.map Prod.fst).Nodup
  repeated : ∀ number ∈ memory.map Prod.fst, 1 < final.numbering.redundancy number
  settled : ∀ number ∈ memory.map Prod.fst, final.Settled memory number

theorem Temporaries.isSome_lookup {memory : Temporaries} {number : ValueNumber} :
    (memory.lookup number).isSome ↔ number ∈ memory.map Prod.fst := by
  induction memory with
  | nil => simp
  | cons entry memory ih =>
    rw [List.lookup_cons, List.map_cons, List.mem_cons, ← ih]
    split
    · next hsame => simp [eq_of_beq hsame]
    · next hother => simp [ne_of_beq_false hother]

theorem Temporaries.isSome_lookup_append {new memory : Temporaries} {number : ValueNumber}
    (hheld : (memory.lookup number).isSome) : (List.lookup number (new ++ memory)).isSome := by
  rw [isSome_lookup] at hheld ⊢
  rw [List.map_append]
  exact List.mem_append_right _ hheld

theorem Temporaries.isSome_lookup_cons {memory : Temporaries} {number other : ValueNumber}
    {temporary : VarId} (hheld : (memory.lookup number).isSome) :
    (List.lookup number ((other, temporary) :: memory)).isSome := by
  rw [← List.singleton_append]
  exact isSome_lookup_append hheld

/-! ### Numbered blocks -/

/-- A row of sound statements has been numbered, and this is what is known in the end. -/
structure Program.NumbersBlock (program : Program)
    (config : Config) (statements : List Tree) (final : Numberer) :
    Prop where
  numbers : NumbersStatements program config.eligible {} statements final
  draws : ∀ statement ∈ statements, program.Draws statement
  sound : ∀ statement ∈ statements, program.SoundStatement statement
  nodup : (statements.flatMap Tree.ids).Nodup

namespace Program.NumbersBlock

variable {program : Program} {config : Config} {statements : List Tree} {final : Numberer}
  (hblock : program.NumbersBlock config statements final)

include hblock

theorem keyed : final.Keyed :=
  hblock.numbers.keyed

theorem eq_of_occurrences {id : NodeId} {number number' : ValueNumber}
    (hoccurrence : (id, number) ∈ final.numbering.occurrences)
    (hoccurrence' : (id, number') ∈ final.numbering.occurrences) : number = number' :=
  hblock.numbers.eq_of_occurrences (fun statement hmem => (hblock.sound statement hmem).sound)
    hblock.nodup hoccurrence hoccurrence'

/-- A node is shared under its number if that is repeated. -/
theorem lookup_targets_iff {id : NodeId} {number : ValueNumber} :
    (SharingPlan.ofNumbering final.numbering config).targets.lookup id = some number ↔
      (id, number) ∈ final.numbering.occurrences ∧ 1 < final.numbering.redundancy number := by
  have hmem {number : ValueNumber} :
      (id, number) ∈ (SharingPlan.ofNumbering final.numbering config).targets ↔
      (id, number) ∈ final.numbering.occurrences ∧ 1 < final.numbering.redundancy number := by
    simp [SharingPlan.ofNumbering, Numbering.repeated]
  constructor
  · intro hlookup
    obtain ⟨before, after, htargets, -⟩ := List.lookup_eq_some_iff.mp hlookup
    exact hmem.mp (htargets ▸ List.mem_append_right _ List.mem_cons_self)
  · intro hrepeated
    cases hlookup : (SharingPlan.ofNumbering final.numbering config).targets.lookup id with
    | none => exact absurd (List.lookup_eq_none_iff.mp hlookup _ (hmem.mpr hrepeated)) (by simp)
    | some found =>
      obtain ⟨before, after, htargets, -⟩ := List.lookup_eq_some_iff.mp hlookup
      have hfound := hmem.mp (htargets ▸ List.mem_append_right _ List.mem_cons_self)
      rw [hblock.eq_of_occurrences hfound.1 hrepeated.1]

/-- What is noted of a block is a noteworthy node of one of its statements. -/
theorem exists_of_occurrence {id : NodeId} {number : ValueNumber}
    (hoccurrence : (id, number) ∈ final.numbering.occurrences) :
    ∃ statement ∈ statements, ∃ node ∈ program.noteworthy statement, node.id = id ∧
      final.Notes config.eligible node.node number :=
  hblock.numbers.exists_of_occurrence (fun statement hmem => (hblock.sound statement hmem).sound)
    (fun statement hmem => (hblock.draws statement hmem).linked) hoccurrence

/-- A tree that has been noted is an expression, or it is a call whose result is used. -/
theorem exists_call_of_occurrence {tree : Tree} {number : ValueNumber} (hdraws : program.Draws tree)
    (hoccurrence : (tree.id, number) ∈ final.numbering.occurrences)
    (hstatement : tree.node.isStatement = true) :
    ∃ callee arguments target, tree.node = .call callee arguments (some target) := by
  obtain ⟨statement, hmem, node, hnode, hid, -⟩ := hblock.exists_of_occurrence hoccurrence
  have hsound := hblock.sound statement hmem
  have hdrawn :=
    (hblock.draws statement hmem).subtree node (Program.noteworthy_subset hsound.sound hnode)
  obtain rfl := hdrawn.unique hdraws hid
  rcases List.mem_append.mp hnode with hloose | hself
  · obtain ⟨item, hitem, hnode⟩ := List.mem_flatMap.mp hloose
    have hchild : item.2 ∈ statement.children :=
      map_snd_parts hsound.sound .value ▸ List.mem_map_of_mem hitem
    have hoperand := (hsound.operands item.2 hchild node (Role.loose_subset_subtrees hnode)).operand
    exact absurd (hoperand.symm.trans hstatement) Bool.false_ne_true
  · split at hself
    · next callee arguments target hcall =>
      obtain rfl := List.mem_singleton.mp hself
      exact ⟨callee, arguments, target, hcall⟩
    · cases hself

/-- A tree that has been noted computes something of a kind that may be shared, and has the number
of its key. -/
theorem notes {tree : Tree} {number : ValueNumber} (hdraws : program.Draws tree)
    (hoccurrence : (tree.id, number) ∈ final.numbering.occurrences) :
    final.Notes config.eligible tree.node number := by
  obtain ⟨statement, hstatement, node, hnode, hid, hnotes⟩ :=
    hblock.exists_of_occurrence hoccurrence
  have hdrawn := (hblock.draws statement hstatement).subtree node
    (Program.noteworthy_subset (hblock.sound statement hstatement).sound hnode)
  obtain rfl := hdrawn.unique hdraws hid
  exact hnotes

omit hblock in
theorem exists_occurrence {numbering : Numbering} {number : ValueNumber}
    (hrepeated : 1 < numbering.redundancy number) :
    ∃ id, (id, number) ∈ numbering.occurrences := by
  have hcount : 0 < numbering.occurrences.countP fun occurrence => occurrence.2 == number := by
    unfold Numbering.redundancy at hrepeated
    split at hrepeated <;> omega
  obtain ⟨⟨id, _⟩, hoccurrence, hsame⟩ := List.countP_pos_iff.mp hcount
  obtain rfl := eq_of_beq hsame
  exact ⟨id, hoccurrence⟩

/-- What has the number of a repeated computation is of a kind that may be shared. -/
theorem eligible_of_redundancy {key : Key} {number : ValueNumber}
    (hentry : (key, number) ∈ final.table) (hrepeated : 1 < final.numbering.redundancy number)
    (node : Node) (hhead : node.head? = some key.head) :
    config.eligible.contains node.kind = true := by
  obtain ⟨id, hoccurrence⟩ := exists_occurrence hrepeated
  obtain ⟨statement, -, noted, -, -, heligible, key', hhead', hentry'⟩ :=
    hblock.exists_of_occurrence hoccurrence
  obtain rfl := hblock.keyed.injective key key' _ hentry hentry'
  rwa [Node.kind_eq_of_head? (hhead.trans hhead'.symm) hhead]

end Program.NumbersBlock

/-! ### Operands -/

/-- What is numbered of operands of a statement. -/
def Role.forest (items : List (Role × Tree)) : List Tree :=
  items.flatMap fun item => item.1.operands item.2

theorem Role.forest_map_value (trees : List Tree) :
    Role.forest (trees.map (Role.value, ·)) = trees := by
  simp [forest, operands, List.flatMap_map]

theorem Temporaries.settles_nil (final : Numberer) : Temporaries.Settles [] final where
  nodup := List.nodup_nil
  repeated := by simp
  settled := by simp

/-- One more number is remembered. -/
theorem Temporaries.Settles.cons {memory : Temporaries} {final : Numberer}
    (hmemory : memory.Settles final) {number : ValueNumber}
    (hfresh : number ∉ memory.map Prod.fst) (hrepeated : 1 < final.numbering.redundancy number)
    {key : Key} (hentry : (key, number) ∈ final.table)
    (hoperands : ∀ value ∈ key.operands, ∀ operand ∈ value, final.Settled memory operand)
    (temporary : VarId) : Temporaries.Settles ((number, temporary) :: memory) final := by
  have hmono {other : ValueNumber} (hsettled : final.Settled memory other) :
      final.Settled ((number, temporary) :: memory) other :=
        hsettled.mono fun _ => Temporaries.isSome_lookup_cons
  have hnumber : final.Settled ((number, temporary) :: memory) number :=
    .keyed key hentry (fun _ => by simp) fun value hvalue operand hoperand =>
      hmono (hoperands value hvalue operand hoperand)
  refine ⟨List.nodup_cons.mpr ⟨hfresh, hmemory.nodup⟩, ?_, ?_⟩
  · rw [List.map_cons, List.forall_mem_cons]
    exact ⟨hrepeated, hmemory.repeated⟩
  · rw [List.map_cons, List.forall_mem_cons]
    exact ⟨hnumber, fun other hother => hmono (hmemory.settled other hother)⟩

/-- No call has the number. -/
def Numberer.Expression (final : Numberer) (number : ValueNumber) : Prop :=
  ∀ callee arguments, (.call callee arguments, number) ∉ final.table

/-- The memory has grown so that values are settled, and by nothing but expressions that these
values are computed from. -/
structure Numberer.Absorbs (final : Numberer) (memory memory' : Temporaries) (values : List Value) :
    Prop where
  settles : memory'.Settles final
  settled : ∀ value ∈ values, ∀ number ∈ value, final.Settled memory' number
  exists_new : ∃ new, memory' = new ++ memory ∧ ∀ entry ∈ new, final.Expression entry.1 ∧
    ∃ value ∈ values, ∃ number ∈ value, Relation.ReflTransGen final.Feeds entry.1 number

namespace Numberer.Absorbs

variable {final : Numberer} {memory memory₁ memory' : Temporaries} {values values' : List Value}
  {number : ValueNumber}

theorem refl (hmemory : memory.Settles final)
    (hsettled : ∀ value ∈ values, ∀ number ∈ value, final.Settled memory number) :
    final.Absorbs memory memory values :=
  ⟨hmemory, hsettled, [], rfl, by simp⟩

theorem isSome (habsorbs : final.Absorbs memory memory' values) {number : ValueNumber}
    (hheld : (memory.lookup number).isSome) : (memory'.lookup number).isSome := by
  obtain ⟨new, rfl, -⟩ := habsorbs.exists_new
  exact Temporaries.isSome_lookup_append hheld

theorem append (hfirst : final.Absorbs memory memory₁ values)
    (hsecond : final.Absorbs memory₁ memory' values') :
    final.Absorbs memory memory' (values ++ values') := by
  obtain ⟨new, rfl, hnew⟩ := hfirst.exists_new
  obtain ⟨new', rfl, hnew'⟩ := hsecond.exists_new
  refine ⟨hsecond.settles, List.forall_mem_append.mpr ⟨fun value hvalue number hnumber =>
    (hfirst.settled value hvalue number hnumber).mono fun _ => hsecond.isSome, hsecond.settled⟩,
      new' ++ new,
    (List.append_assoc ..).symm, fun entry hentry => ?_⟩
  rcases List.mem_append.mp hentry with hentry | hentry
  · obtain ⟨hexpression, value, hvalue, hfeeds⟩ := hnew' entry hentry
    exact ⟨hexpression, value, List.mem_append_right _ hvalue, hfeeds⟩
  · obtain ⟨hexpression, value, hvalue, hfeeds⟩ := hnew entry hentry
    exact ⟨hexpression, value, List.mem_append_left _ hvalue, hfeeds⟩

/-- What has been absorbed for the operands of a computation has been so for its number. -/
theorem compute {key : Key} (habsorbs : final.Absorbs memory memory' key.operands)
    (hentry : (key, number) ∈ final.table)
    (hheld : 1 < final.numbering.redundancy number → (memory'.lookup number).isSome) :
    final.Absorbs memory memory' [[number]] := by
  refine ⟨habsorbs.settles, by simpa using .keyed key hentry hheld habsorbs.settled, ?_⟩
  obtain ⟨new, rfl, hnew⟩ := habsorbs.exists_new
  refine ⟨new, rfl, fun entry hnewEntry => ?_⟩
  obtain ⟨hexpression, value, hvalue, operand, hoperand, hfeeds⟩ := hnew entry hnewEntry
  exact ⟨hexpression, [number], List.mem_singleton_self _, number, List.mem_singleton_self _,
    hfeeds.tail ⟨key, hentry, value, hvalue, hoperand⟩⟩

/-- A computation is remembered behind its operands. -/
theorem store {key : Key} (habsorbs : final.Absorbs memory memory₁ key.operands)
    (hkeyed : final.Keyed) (hentry : (key, number) ∈ final.table)
    (hfresh : memory.lookup number = none) (hrepeated : 1 < final.numbering.redundancy number)
    (hexpression : final.Expression number) (temporary : VarId) :
    final.Absorbs memory ((number, temporary) :: memory₁) [[number]] := by
  obtain ⟨hsettles, hsettled, new, rfl, hnew⟩ := habsorbs
  have hfeeds {entry : ValueNumber × VarId} (hmem : entry ∈ new) :
      Relation.TransGen final.Feeds entry.1 number := by
    obtain ⟨-, value, hvalue, operand, hoperand, hfeeds⟩ := hnew entry hmem
    exact .tail' hfeeds ⟨key, hentry, value, hvalue, hoperand⟩
  -- a number is not computed from itself
  have hnumber : number ∉ (new ++ memory).map Prod.fst := fun hheld => by
    rcases List.mem_append.mp (List.map_append ▸ hheld) with hheld | hheld
    · obtain ⟨entry, hmem, rfl⟩ := List.mem_map.mp hheld
      exact (hsettles.settled entry.1 (List.mem_map_of_mem (List.mem_append_left _ hmem))).irrefl
        hkeyed (hfeeds hmem)
    · exact absurd (Temporaries.isSome_lookup.mpr hheld) (by simp [hfresh])
  have hstored := hsettles.cons hnumber hrepeated hentry hsettled temporary
  refine ⟨hstored, by simpa using hstored.settled number List.mem_cons_self,
    (number, temporary) :: new, rfl, ?_⟩
  refine List.forall_mem_cons.mpr ⟨⟨hexpression, [number], by simp, number, by simp, .refl⟩,
    fun entry hmem => ?_⟩
  exact ⟨(hnew entry hmem).1, [number], by simp, number, by simp, (hfeeds hmem).to_reflTransGen⟩

end Numberer.Absorbs

section Lifted

variable {program : Program} {config : Config} {statements : List Tree} {final : Numberer}
  {memory memory' : Temporaries} {next next' : Nat} {forest : List (Role × Tree)}
  {forest' : List Tree} {rows : List Row} (hblock : program.NumbersBlock config statements final)

include hblock

/-- A tree that is shared has the number that it is shared under. -/
theorem Program.NumbersBlock.eq_of_taken {known : ValueNumber → Prop} {tree : Tree}
    {number : ValueNumber} {rest : List Tree} {values : List Value} (hdraws : program.Draws tree)
    (htaken : (SharingPlan.ofNumbering final.numbering config).verdict tree = some (some number))
    (hlabelled : Labelled config.eligible final known (tree :: rest) values) :
    ∃ later, values = [number] :: later ∧ Labelled config.eligible final known rest later ∧
      ∃ key, tree.node.head? = some key.head ∧ (key, number) ∈ final.table ∧
        Labelled config.eligible final known tree.children key.operands := by
  have hoccurrence := (hblock.lookup_targets_iff.mp (SharingPlan.verdict_eq_some_iff.mp htaken)).1
  obtain ⟨heligible, key, hhead, -⟩ := hblock.notes hdraws hoccurrence
  cases hlabelled with
  | read => cases hhead
  | @compute _ number' _ _ key' hhead' hentry hnoted hchildren hrest =>
    obtain rfl := hblock.eq_of_occurrences hoccurrence (hnoted heligible)
    exact ⟨_, rfl, hrest, key', hhead', hentry, hchildren⟩

/-- Sharing in operands settles their numbers. -/
theorem Lifted.absorbs (hlifted : Lifted (SharingPlan.ofNumbering final.numbering config).verdict
      memory next forest forest' rows memory' next')
    (hdraws : ∀ item ∈ forest, program.Draws item.2 ∧ program.SoundOperand item.2)
    (hroles : ∀ item ∈ forest, item.1 ≠ .root) {values : List Value}
    (hlabelled : Labelled config.eligible final (final.Settled memory) (Role.forest forest) values)
    (hmemory : memory.Settles final) : final.Absorbs memory memory' values := by
  have hchild {tree child : Tree} (hdraws : program.Draws tree ∧ program.SoundOperand tree)
      (hchild : child ∈ tree.children) : program.Draws child ∧ program.SoundOperand child :=
    ⟨hdraws.1.child hchild, soundOperand_of_mem_children hdraws.2 hchild⟩
  have hchildren {tree : Tree} (hdraws : program.Draws tree ∧ program.SoundOperand tree) :
      (∀ item ∈ tree.children.map (Role.value, ·),
        program.Draws item.2 ∧ program.SoundOperand item.2) ∧
        ∀ item ∈ tree.children.map (Role.value, ·), item.1 ≠ .root := by
    simpa using fun child => hchild hdraws
  induction hlifted generalizing values with
  | nil =>
    cases hlabelled
    exact .refl hmemory (by simp)
  | @kept memory memory₁ memory₂ next next₁ next₂ role tree rest children rest' rows rows' hkeeps
      hbelow hrest ih ih' =>
    rw [List.forall_mem_cons] at hdraws hroles
    obtain ⟨rfl, hverdict⟩ := hkeeps.resolve_left hroles.1
    change Labelled _ _ _ (tree :: Role.forest rest) values at hlabelled
    cases hlabelled with
    | @read _ _ value _ _ hvalue hlater =>
      obtain ⟨-, -, rfl, rfl⟩ := hbelow.of_nil
      have hread : final.Absorbs memory₁ memory₁ [value] := .refl hmemory (by simpa using hvalue)
      exact hread.append (ih' hdraws.2 hroles.2 hlater hmemory)
    | @compute _ number _ values key hhead hentry hnoted hoperands hlater =>
      have habsorbs :=
        ih (hchildren hdraws.1).1 (hchildren hdraws.1).2 (by rwa [Role.forest_map_value]) hmemory
      have hnumber := habsorbs.compute hentry fun hrepeated => by
        have hshared := hblock.lookup_targets_iff.mpr
          ⟨hnoted (hblock.eligible_of_redundancy hentry hrepeated tree.node hhead), hrepeated⟩
        rw [SharingPlan.verdict_eq_some_iff.mpr hshared] at hverdict
        cases hverdict
      exact hnumber.append (ih' hdraws.2 hroles.2
        (hlater.mono fun _ hsettled => hsettled.mono fun _ => hnumber.isSome) hnumber.settles)
  | @reused memory memory₁ next next₁ tree number temporary leaf rest rest' rows htaken hheld
      hrest ih =>
    rw [List.forall_mem_cons] at hdraws hroles
    change Labelled _ _ _ (tree :: Role.forest rest) values at hlabelled
    obtain ⟨later, rfl, hlater, -⟩ := hblock.eq_of_taken hdraws.1.1 htaken hlabelled
    have hnumber : final.Absorbs memory memory [[number]] := .refl hmemory (by
      simpa using hmemory.settled number (Temporaries.isSome_lookup.mp (by simp [hheld])))
    exact hnumber.append (ih hdraws.2 hroles.2 hlater hmemory)
  | @stored memory memory₁ memory₂ next next₁ next₂ tree shared row leaf rest children rest' rows
      rows' htaken hfresh hbelow htemporary hvalue hrest ih ih' =>
    rw [List.forall_mem_cons] at hdraws hroles
    change Labelled _ _ _ (tree :: Role.forest rest) values at hlabelled
    obtain ⟨number, hlookup, rfl⟩ := Option.map_eq_some_iff.mp htaken
    obtain ⟨later, rfl, hlater, key, hhead, hentry, hoperands⟩ :=
      hblock.eq_of_taken hdraws.1.1 htaken hlabelled
    have habsorbs :=
      ih (hchildren hdraws.1).1 (hchildren hdraws.1).2 (by rwa [Role.forest_map_value]) hmemory
    have hexpression : final.Expression number := fun callee arguments hcall => by
      obtain rfl := hblock.keyed.injective key _ number hentry hcall
      have hoperand := (hdraws.1.2 tree tree.mem_subtrees_self).operand
      have hsame : tree.node.head? = (Node.call callee [] none).head? := hhead
      rw [Node.isStatement_eq_of_head? hsame hhead] at hoperand
      cases hoperand
    have hnumber := habsorbs.store hblock.keyed hentry (hfresh number rfl)
      (hblock.lookup_targets_iff.mp hlookup).2 hexpression row.temporary
    exact hnumber.append (ih' hdraws.2 hroles.2
      (hlater.mono fun _ hsettled => hsettled.mono fun _ => hnumber.isSome) hnumber.settles)
  | @whole memory memory₁ next next₁ id written rest rest' rows hrest ih =>
    rw [List.forall_mem_cons] at hdraws hroles
    have hforest :
        Role.forest ((.place, ⟨id, .variable written, []⟩) :: rest) = Role.forest rest := by
      simp [Role.forest, Role.operands, Tree.indices]
    exact ih hdraws.2 hroles.2 (hforest ▸ hlabelled) hmemory
  | @field memory memory₁ memory₂ next next₁ next₂ tree record record' number rest rest' rows rows'
      hnode htree hrecord hrest ih ih' =>
    rw [List.forall_mem_cons] at hdraws hroles
    have hforest : Role.forest ((.place, tree) :: rest) =
        Role.forest [(.place, record)] ++ Role.forest rest := by
      obtain ⟨id, rfl⟩ := Tree.exists_eq_mk hnode htree
      simp [Role.forest, Role.operands, Tree.indices]
    obtain ⟨first, later, rfl, hfirst, hlater⟩ := (hforest ▸ hlabelled).exists_of_append
    have habsorbs := ih (by simpa using hchild hdraws.1 (by simp [htree])) (by simp) hfirst hmemory
    exact habsorbs.append (ih' hdraws.2 hroles.2
      (hlater.mono fun _ hsettled => hsettled.mono fun _ => habsorbs.isSome) habsorbs.settles)
  | @index memory memory₁ memory₂ next next₁ next₂ tree base position base' position' rest rest'
      rows rows' hnode htree hparts hrest ih ih' =>
    rw [List.forall_mem_cons] at hdraws hroles
    have hforest : Role.forest ((.place, tree) :: rest) =
        Role.forest [(.value, position), (.place, base)] ++ Role.forest rest := by
      obtain ⟨id, rfl⟩ := Tree.exists_eq_mk hnode htree
      simp [Role.forest, Role.operands, Tree.indices]
    obtain ⟨first, later, rfl, hfirst, hlater⟩ := (hforest ▸ hlabelled).exists_of_append
    have habsorbs := ih (by simpa using ⟨hchild hdraws.1 (by simp [htree]),
        hchild hdraws.1 (by simp [htree])⟩) (by simp) hfirst hmemory
    exact habsorbs.append (ih' hdraws.2 hroles.2
      (hlater.mono fun _ hsettled => hsettled.mono fun _ => habsorbs.isSome) habsorbs.settles)

end Lifted

/-! ### Statements -/

/-- A statement has been shared, and the numbers of its operands and that of a call are settled now.
Nothing has been forgotten. -/
structure Program.SettlesStatement (program : Program) (eligible : NodeKinds) (final : Numberer)
    (memory memory' : Temporaries) (statement : Tree) : Prop where
  settles : memory'.Settles final
  kept : ∀ number, (memory.lookup number).isSome → (memory'.lookup number).isSome
  parts : program.SettlesParts eligible final (final.Settled memory) (final.Settled memory')
    statement
  call : program.SettlesCall eligible final (final.Settled memory) (final.Settled memory') statement

theorem Labelled.exists_forest {eligible : NodeKinds} {final : Numberer}
    {known : ValueNumber → Prop} {items : List (Role × Tree)} (hlabels : ∀ item ∈ items,
      ∃ values, Labelled eligible final known (item.1.operands item.2) values) :
    ∃ values, Labelled eligible final known (Role.forest items) values := by
  induction items with
  | nil => exact ⟨[], .nil⟩
  | cons item items ih =>
    obtain ⟨⟨values, hfirst⟩, hrest⟩ := List.forall_mem_cons.mp hlabels
    obtain ⟨later, hlater⟩ := ih hrest
    exact ⟨values ++ later, hfirst.append hlater⟩

/-- Labels of one operand are among labels of all operands. -/
theorem Labelled.exists_forest_of_mem {eligible : NodeKinds} {final : Numberer}
    {known : ValueNumber → Prop} {items : List (Role × Tree)} {item : Role × Tree}
    (hlabels : ∀ item ∈ items, ∃ values, Labelled eligible final known
      (item.1.operands item.2) values) (hitem : item ∈ items) {values : List Value}
    (hvalues : Labelled eligible final known (item.1.operands item.2) values) :
    ∃ all, Labelled eligible final known (Role.forest items) all ∧ values ⊆ all := by
  obtain ⟨before, after, rfl⟩ := List.append_of_mem hitem
  rw [List.forall_mem_append, List.forall_mem_cons] at hlabels
  obtain ⟨first, hfirst⟩ := exists_forest hlabels.1
  obtain ⟨last, hlast⟩ := exists_forest hlabels.2.2
  refine ⟨first ++ (values ++ last), ?_,
    List.Subset.trans (List.subset_append_left _ _) (List.subset_append_right _ _)⟩
  rw [Role.forest, List.flatMap_append, List.flatMap_cons]
  exact hfirst.append (hvalues.append hlast)

theorem Program.ne_root_of_mem_parts {program : Program}
    {statement : Tree} (hsound : program.Sound statement)
    {item : Role × Tree} (hitem : item ∈ program.parts .value statement) : item.1 ≠ .root := by
  cases hsound with
  | assign =>
    simp only [parts, List.mem_cons, List.not_mem_nil, or_false] at hitem
    rcases hitem with rfl | rfl <;> simp
  | call id callee arguments result signature hsignature hlength =>
    rcases List.mem_append.mp ((perm_parts_call id result hsignature hlength).mem_iff.mp hitem)
      with hitem | hitem
    all_goals
      obtain ⟨tree, -, rfl⟩ := List.mem_map.mp hitem
      simp
  | _ =>
    simp only [parts, List.mem_map] at hitem
    obtain ⟨child, -, rfl⟩ := hitem
    simp

namespace SharingPlan

/-- What a repeated call passes are values. -/
theorem parts_callTree {program : Program} {id : NodeId}
    {callee : SignatureId} {arguments : List Tree} {target : Tree}
    {signature : Signature} (hsound : program.Sound (callTree id callee arguments target))
    (hsignature : program.signature callee = .ok signature) (hpure : signature.isPure = true) :
    program.parts .value (callTree id callee arguments target) =
      arguments.map (Role.value, ·) ++ [(Role.place, target)] :=
  Program.parts_of_isPure id (some target) hsignature hpure (of_callTree hsound hsignature).1

theorem labelled_callTree {eligible : NodeKinds} {final : Numberer}
    {known : ValueNumber → Prop} {statement target : Tree}
    {program : Program} {arguments : List Tree} {values indices : List Value}
    (hparts : program.parts .value statement = arguments.map (Role.value, ·) ++
      [(Role.place, target)]) (hvalues : Labelled eligible final known arguments values)
    (hindices : Labelled eligible final known target.indices indices) :
    Labelled eligible final known (Role.forest (program.parts .value statement))
      (values ++ indices) := by
  rw [hparts, Role.forest, List.flatMap_append, ← Role.forest, Role.forest_map_value]
  exact hvalues.append (by simpa [Role.operands] using hindices)

variable {program program' : Program} {config : Config} {statements : List Tree} {final : Numberer}
  {memory memory' : Temporaries} {next next' : Nat} {statement : Tree} {rows : List Row}
  {trees : List Tree} (hblock : program.NumbersBlock config statements final)

include hblock

section Statement

variable (hstatement : statement ∈ statements)
  (hlabels : program.LabelsParts config.eligible final (final.Settled memory) statement)
  (hmemory : memory.Settles final)

include hstatement hmemory

/-- Operands of a statement settle their numbers. -/
theorem absorbs_of_parts {forest : List (Role × Tree)} {forest' : List Tree} {values : List Value}
    (hlifted : Lifted (SharingPlan.ofNumbering final.numbering config).verdict memory next forest
      forest' rows memory' next')
    (hforest : ∀ item ∈ forest, item ∈ program.parts .value statement)
    (hlabelled : Labelled config.eligible final (final.Settled memory) (Role.forest forest)
      values) : final.Absorbs memory memory' values := by
  have hsound := hblock.sound statement hstatement
  refine hlifted.absorbs hblock (fun item hitem => ?_) (fun item hitem =>
    Program.ne_root_of_mem_parts hsound.sound (hforest item hitem)) hlabelled hmemory
  have hchild : item.2 ∈ statement.children :=
    Program.map_snd_parts hsound.sound .value ▸ List.mem_map_of_mem (hforest item hitem)
  exact ⟨(hblock.draws statement hstatement).child hchild, hsound.operands item.2 hchild⟩

include hlabels

/-- A statement that is not shared itself. -/
theorem settles_operands {parts' : List Tree}
    (hnumber : ∀ callee arguments result, statement.node = .call callee arguments result →
      (SharingPlan.ofNumbering final.numbering config).targets.lookup statement.id = none)
    (hlifted : Lifted (SharingPlan.ofNumbering final.numbering config).verdict memory next
      (program.parts .value statement) parts' rows memory' next') :
    program.SettlesStatement config.eligible final memory memory' statement := by
  have hsound := hblock.sound statement hstatement
  have habsorbs {values : List Value} (hlabelled : Labelled config.eligible final
      (final.Settled memory) (Role.forest (program.parts .value statement)) values) :=
    absorbs_of_parts hblock hstatement hmemory hlifted (fun _ => id) hlabelled
  obtain ⟨all, hall⟩ := Labelled.exists_forest hlabels
  refine ⟨(habsorbs hall).settles, fun _ => (habsorbs hall).isSome,
    fun item hitem _ values hvalues value hvalue => ?parts, ?call⟩
  case parts =>
    obtain ⟨all, hall, hsubset⟩ := Labelled.exists_forest_of_mem hlabels hitem hvalues
    exact (habsorbs hall).settled value (hsubset hvalue)
  case call =>
    rintro id callee arguments target values number signature rfl hsignature hpure hvalues hentry
      hnoted
    have hparts := parts_callTree hsound.sound hsignature hpure
    obtain ⟨indices, hindices⟩ := hlabels (.place, target) (by simp [hparts])
    have hlabelled := labelled_callTree hparts hvalues hindices
    have hpassed := fun value hvalue =>
      (habsorbs hlabelled).settled value (List.mem_append_left _ hvalue)
    refine ⟨.keyed _ hentry (fun hrepeated => ?_) hpassed, hpassed⟩
    -- the call itself is not repeated
    have hshared := hblock.lookup_targets_iff.mpr ⟨hnoted
      (hblock.eligible_of_redundancy hentry hrepeated (.call callee [] none) rfl), hrepeated⟩
    rw [hnumber _ _ _ rfl] at hshared
    cases hshared

variable {id : NodeId} {callee : SignatureId} {arguments : List Tree} {target : Tree}
  {number : ValueNumber} {signature : Signature} (hcalled : statement =
    callTree id callee arguments target)
  (hnumber : (SharingPlan.ofNumbering final.numbering config).targets.lookup id = some number)
  (hsignature : program.signature callee = .ok signature) (hpure : signature.isPure = true)

include hcalled hnumber hsignature hpure

/-- The first call of its number settles it, because a temporary holds what it returns. -/
theorem settles_first {arguments' : List Tree} {target' : Tree}
    (hcall : program.LabelsCall config.eligible final (final.Settled memory) statement)
    (hfresh : memory.lookup number = none)
    (hlifted : Lifted (SharingPlan.ofNumbering final.numbering config).verdict memory next
      (arguments.map (Role.value, ·) ++ [(Role.place, target)]) (arguments' ++ [target']) rows
      memory' next') (temporary : VarId) :
    program.SettlesStatement config.eligible final memory ((number, temporary) :: memory')
      statement := by
  subst hcalled
  have hparts := parts_callTree (hblock.sound _ hstatement).sound hsignature hpure
  obtain ⟨hoccurrence, hrepeated⟩ := hblock.lookup_targets_iff.mp hnumber
  obtain ⟨heligible, -⟩ := hblock.notes (hblock.draws _ hstatement) hoccurrence
  obtain ⟨values, number', hvalues, hentry, hnoted⟩ := hcall _ _ _ _ _ rfl hsignature hpure
  obtain rfl := hblock.eq_of_occurrences hoccurrence (hnoted heligible)
  rw [← hparts] at hlifted
  have habsorbs {values : List Value} (hlabelled : Labelled config.eligible final
      (final.Settled memory) (Role.forest (program.parts .value _)) values) :=
    absorbs_of_parts hblock hstatement hmemory hlifted (fun _ hitem => hitem) hlabelled
  obtain ⟨indices, hindices⟩ := hlabels (.place, target) (by simp [hparts])
  obtain ⟨hsettles, hsettled, new, rfl, hnew⟩ :=
    habsorbs (labelled_callTree hparts hvalues hindices)
  -- the number of a call is not that of an expression
  have hunheld : number ∉ (new ++ memory).map Prod.fst := fun hheld => by
    rcases List.mem_append.mp (List.map_append ▸ hheld) with hheld | hheld
    · obtain ⟨entry, hmem, rfl⟩ := List.mem_map.mp hheld
      exact (hnew entry hmem).1 _ _ hentry
    · exact absurd (Temporaries.isSome_lookup.mpr hheld) (by simp [hfresh])
  have hstored := hsettles.cons hunheld hrepeated hentry
    (fun value hvalue => hsettled value (List.mem_append_left _ hvalue)) temporary
  have hnumber := hstored.settled number List.mem_cons_self
  refine ⟨hstored,
    fun _ hheld => Temporaries.isSome_lookup_cons (Temporaries.isSome_lookup_append hheld),
    fun item hitem _ values hvalues value hvalue other hother => ?parts, ?call⟩
  case parts =>
    obtain ⟨all, hall, hsubset⟩ := Labelled.exists_forest_of_mem hlabels hitem hvalues
    exact ((habsorbs hall).settled value (hsubset hvalue) other hother).mono fun _ =>
      Temporaries.isSome_lookup_cons
  case call =>
    rintro id' callee' arguments' target' values' number' signature' hsame - - - hentry' hnoted'
    obtain rfl : id = id' := congrArg Tree.id hsame
    obtain rfl := hblock.eq_of_occurrences hoccurrence (hnoted' heligible)
    exact ⟨hnumber, hnumber.operands hblock.keyed hentry'⟩

/-- The number of a later call has been settled by the first one. -/
theorem settles_again {target' : Tree} {temporary : VarId}
    (hheld : memory.lookup number = some temporary)
    (hlifted : Lifted (SharingPlan.ofNumbering final.numbering config).verdict memory next
      [(Role.place, target)] [target'] rows memory' next') :
    program.SettlesStatement config.eligible final memory memory' statement := by
  subst hcalled
  have hparts := parts_callTree (hblock.sound _ hstatement).sound hsignature hpure
  have hforest : ∀ item ∈ [(Role.place, target)],
      item ∈ program.parts .value (callTree id callee arguments target) := by
    simp [hparts]
  have hplace {values : List Value} (hvalues : Labelled config.eligible final
      (final.Settled memory) target.indices values) :=
    absorbs_of_parts hblock hstatement hmemory hlifted hforest
      (by simpa [Role.forest, Role.operands] using hvalues)
  obtain ⟨indices, hindices⟩ := hlabels _ (hforest _ (List.mem_singleton_self _))
  obtain ⟨hoccurrence, -⟩ := hblock.lookup_targets_iff.mp hnumber
  obtain ⟨heligible, -⟩ := hblock.notes (hblock.draws _ hstatement) hoccurrence
  refine ⟨(hplace hindices).settles, fun _ => (hplace hindices).isSome,
    fun item hitem hvalue values hvalues => ?parts, ?call⟩
  case parts =>
    rw [hparts, List.mem_append, List.mem_singleton] at hitem
    rcases hitem with hitem | rfl
    · obtain ⟨argument, -, rfl⟩ := List.mem_map.mp hitem
      exact absurd ⟨_, _, _, _, rfl, hsignature, hpure⟩ (hvalue rfl)
    · exact (hplace hvalues).settled
  case call =>
    rintro id' callee' arguments' target' values number' signature' hsame - - - hentry hnoted
    obtain rfl : id = id' := congrArg Tree.id hsame
    obtain rfl := hblock.eq_of_occurrences hoccurrence (hnoted heligible)
    have hnumber := (hmemory.settled number (Temporaries.isSome_lookup.mp (by simp [hheld]))).mono
      fun _ => (hplace hindices).isSome
    exact ⟨hnumber, hnumber.operands hblock.keyed hentry⟩

end Statement

/-- Sharing in a statement settles the numbers of its operands, and that of a call. -/
theorem Edited.settles (hedited : (SharingPlan.ofNumbering final.numbering config).Edited program
      program' memory next statement rows trees memory' next') (hstatement : statement ∈ statements)
    (hpurely : (SharingPlan.ofNumbering final.numbering config).SharesPurely program statement)
    (hlabels : program.LabelsParts config.eligible final (final.Settled memory) statement)
    (hcall : program.LabelsCall config.eligible final (final.Settled memory) statement)
    (hmemory : memory.Settles final) :
    program.SettlesStatement config.eligible final memory memory' statement := by
  cases hedited with
  | operands hnumber hlifted =>
    exact settles_operands hblock hstatement hlabels hmemory hnumber hlifted
  | dropped hnumber =>
    obtain ⟨hoccurrence, -⟩ := hblock.lookup_targets_iff.mp hnumber
    obtain ⟨_, _, _, hresult⟩ :=
      hblock.exists_call_of_occurrence (hblock.draws _ hstatement) hoccurrence rfl
    cases hresult
  | first hnumber hfresh hsignature hlifted =>
    obtain ⟨found, hfound, hpure⟩ := hpurely _ _ _ rfl (hnumber ▸ rfl)
    obtain rfl := Except.ok.inj (hsignature.symm.trans hfound)
    exact settles_first hblock hstatement hlabels hmemory rfl hnumber hsignature hpure hcall hfresh
      hlifted _
  | again hnumber hheld hlifted =>
    obtain ⟨signature, hsignature, hpure⟩ := hpurely _ _ _ rfl (hnumber ▸ rfl)
    exact settles_again hblock hstatement hlabels hmemory rfl hnumber hsignature hpure hheld hlifted

/-- Sharing in statements settles all numbers that are noted for them. -/
theorem EditedAll.settles {rest : List Tree} {replaced : List Replacement} {state : Numberer}
    (hedited : (SharingPlan.ofNumbering final.numbering config).EditedAll
      program program' memory next rest replaced memory' next')
    (hnumbers : NumbersStatements program config.eligible state rest final)
    (hrest : rest ⊆ statements) (hpurely : ∀ statement ∈ rest,
      (SharingPlan.ofNumbering final.numbering config).SharesPurely program statement)
    (hkeyed : state.Keyed) (hknows : state.Knows (final.Settled memory))
    (hmemory : memory.Settles final) :
    memory'.Settles final ∧
    (∀ number, (memory.lookup number).isSome → (memory'.lookup number).isSome) ∧
      ∀ occurrence ∈ final.numbering.occurrences, occurrence ∈ state.numbering.occurrences ∨
        final.Settled memory' occurrence.2 := by
  induction hedited generalizing state with
  | nil =>
    cases hnumbers
    exact ⟨hmemory, fun _ => id, fun _ => Or.inl⟩
  | @cons memory memory₁ memory' next next₁ next' statement rest replaced others hfirst hlater ih =>
    rw [List.cons_subset] at hrest
    rw [List.forall_mem_cons] at hpurely
    cases hnumbers with
    | @cons _ between _ _ _ hnumbered hnumbers =>
      have hsound := hblock.sound statement hrest.1
      obtain ⟨hlabels, hcall, hnotes⟩ := hnumbered.labelled hsound.sound
        (hblock.draws statement hrest.1).linked hkeyed hnumbers.advances (fun _ => .unkeyed) hknows
      obtain ⟨hmemory₁, hmono, hparts, hcall⟩ :=
        hfirst.settles hblock hrest.1 hpurely.1 hlabels hcall hmemory
      obtain ⟨hknows₁, hnoted⟩ := hnotes hparts hcall (Numberer.closed_settled hblock.keyed memory₁)
        fun number hsettled => hsettled.mono hmono
      obtain ⟨hmemory', hmono', hall⟩ :=
        ih hnumbers hrest.2 hpurely.2 (hnumbered.advances.keyed hkeyed) hknows₁ hmemory₁
      refine ⟨hmemory', fun number hheld => hmono' number (hmono number hheld),
        fun occurrence hmem => ?_⟩
      rcases hall occurrence hmem with hbetween | hsettled
      · exact (hnoted occurrence hbetween).imp_right fun hnew => hnew.1.mono hmono'
      · exact Or.inr hsettled

/-- What is remembered of a block in the end are its repeated numbers, each of them once. -/
theorem EditedAll.mem_memory_iff {replaced : List Replacement}
    (hedited : (SharingPlan.ofNumbering final.numbering config).EditedAll program program'
      [] next statements replaced memory' next') (hpurely : ∀ statement ∈ statements,
      (SharingPlan.ofNumbering final.numbering config).SharesPurely program statement) :
    (memory'.map Prod.fst).Nodup ∧
      ∀ number, number ∈ memory'.map Prod.fst ↔ 1 < final.numbering.redundancy number := by
  obtain ⟨hmemory', -, hsettled⟩ := hedited.settles hblock hblock.numbers (List.Subset.refl _)
    hpurely Numberer.keyed_nil (Numberer.knows_nil _) (Temporaries.settles_nil final)
  refine ⟨hmemory'.nodup, fun number => ⟨hmemory'.repeated number, fun hrepeated => ?_⟩⟩
  obtain ⟨id, hoccurrence⟩ := Program.NumbersBlock.exists_occurrence hrepeated
  obtain ⟨-, -, -, -, -, -, key, -, hentry⟩ := hblock.exists_of_occurrence hoccurrence
  cases (hsettled _ hoccurrence).resolve_left List.not_mem_nil with
  | unkeyed hunkeyed => exact absurd hentry (hunkeyed key)
  | keyed _ _ hheld _ => exact Temporaries.isSome_lookup.mp (hheld hrepeated)

end SharingPlan

end ShaderIR
