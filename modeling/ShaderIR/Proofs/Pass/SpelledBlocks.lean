import ShaderIR.Proofs.Pass.SharedLedgers

/-!
Numbered blocks as sharing reads them. The records of a numbered block say what the number of each
noted node names, so that a node which is shared is made of what its number names
(`Program.NumbersBlock.exists_symbols`). This is what `SharingPlan.SpellsStatement` asks of every
statement of the block (`Program.NumbersBlock.spells`).
-/

set_option autoImplicit false

namespace ShaderIR

open Ledger

/-- What a statement of a block notes has been noted in the end. -/
theorem Ledger.noted_of_split {ledger : Ledger} {program : Program}
    {eligible : NodeKinds} {statement : Tree} {statements before after : List Tree}
    (hsplit : statements = before ++ statement :: after) {note : NodeId × Symbol} (hnote : note ∈
      ((ledger.performedAll program eligible before).performed program eligible statement).noted) :
    note ∈ (ledger.performedAll program eligible statements).noted := by
  rw [hsplit, performedAll_append, performedAll_cons]
  exact noted_subset_performedAll _ _ _ _ hnote

namespace Program.NumbersBlock

variable {program : Program} {config : Config}
  {statements before after : List Tree} {statement : Tree}
  {final : Numberer} {naming : Naming} (hblock : program.NumbersBlock config statements final)
  (hrecords : final.Records naming (({} : Ledger).performedAll program config.eligible statements))
  (hsplit : statements = before ++ statement :: after)

include hblock hrecords

/-- What has been noted of a node is what its number names. -/
theorem naming_eq {id : NodeId} {number : ValueNumber} {symbol : Symbol}
    (hoccurrence : (id, number) ∈ final.numbering.occurrences) (hnoted : (id, symbol) ∈
      (({} : Ledger).performedAll program config.eligible statements).noted) :
    naming number = some symbol := by
  obtain ⟨found, hfound, hnamed⟩ := (hrecords.noted _).mp hnoted
  rwa [hblock.eq_of_occurrences hoccurrence hfound]

include hsplit

/-- A node of an operand that has been noted is made of what its number names. -/
theorem exists_symbols {item : Role × Tree} (hitem : item ∈ program.parts .value statement)
    {below : Tree} (hbelow : below ∈ item.1.loose item.2) {number : ValueNumber}
    (hoccurrence : (below.id, number) ∈ final.numbering.occurrences) :
    ∃ symbol, naming number = some symbol ∧
      below.symbols (({} : Ledger).performedAll program config.eligible before) = [symbol] := by
  have hmem : statement ∈ statements := hsplit ▸ List.mem_append_right _ List.mem_cons_self
  have hchild : item.2 ∈ statement.children :=
    map_snd_parts (hblock.sound statement hmem).sound .value ▸ List.mem_map_of_mem hitem
  have hdraws :=
    ((hblock.draws statement hmem).child hchild).subtree below (Role.loose_subset_subtrees hbelow)
  obtain ⟨heligible, key, hhead, -⟩ := hblock.notes hdraws hoccurrence
  have hsymbols : below.symbols (({} : Ledger).performedAll program config.eligible before) = _ :=
    Tree.symbols_of_head? hhead
  refine ⟨_, hblock.naming_eq hrecords hoccurrence (noted_of_split hsplit ?_), hsymbols⟩
  rw [noted_performed]
  rw [← Role.flatMap_operands] at hbelow
  obtain ⟨operand, hoperand, hbelow⟩ := List.mem_flatMap.mp hbelow
  exact Or.inl (Or.inr ⟨operand, List.mem_flatMap.mpr ⟨item, hitem, hoperand⟩, below, hbelow,
      heligible, by rw [hhead]; rfl, rfl, hsymbols⟩)

/-- Each node of a statement that is shared is made of what its number names. -/
theorem spells
    (hpurely : (SharingPlan.ofNumbering final.numbering config).SharesPurely program statement) :
    (SharingPlan.ofNumbering final.numbering config).SpellsStatement program program.vars.size
      naming (({} : Ledger).performedAll program config.eligible before) statement := by
  have hmem : statement ∈ statements := hsplit ▸ List.mem_append_right _ List.mem_cons_self
  have hsound := hblock.sound statement hmem
  have hdraws := hblock.draws statement hmem
  refine ⟨hsound.sound, hdraws.linked, fun item hitem => ?_,
    fun callee arguments result number hnode hnumber => ?_⟩
  · have hchild : item.2 ∈ statement.children :=
      map_snd_parts hsound.sound .value ▸ List.mem_map_of_mem hitem
    have hoperand := hsound.operands item.2 hchild
    refine ⟨(hdraws.child hchild).linked, fun below hbelow => (hoperand below hbelow).operand,
      fun read hread => ?_, fun below hbelow number hnumber =>
        hblock.exists_symbols hrecords hsplit hitem hbelow (hblock.lookup_targets_iff.mp hnumber).1⟩
    obtain ⟨below, hbelow, hnode⟩ := Tree.mem_reads_iff.mp hread
    exact (hoperand below hbelow).variable_lt read hnode
  · have hoccurrence := (hblock.lookup_targets_iff.mp hnumber).1
    obtain ⟨signature, hsignature, hpure⟩ :=
      hpurely callee arguments result hnode (by simp [hnumber])
    obtain ⟨_, _, target, hcall⟩ :=
      hblock.exists_call_of_occurrence hdraws hoccurrence hsound.sound.isStatement
    obtain ⟨rfl, rfl, rfl⟩ := Node.call.inj (hnode.symm.trans hcall)
    have hstores : program.StoresCall statement := ⟨_, _, _, signature, hnode, hsignature, hpure⟩
    have hreturned :
        (({} : Ledger).performedAll program config.eligible before).returned program statement =
        [.computed (.call callee) ((program.passedBy statement).map
          (Tree.symbols (({} : Ledger).performedAll program config.eligible before)))] := by
      rw [returned, hnode]
      rfl
    refine ⟨hstores, _, hblock.naming_eq hrecords hoccurrence (noted_of_split hsplit ?_), hreturned⟩
    rw [noted_performed]
    exact Or.inr ⟨hreturned, rfl, (hblock.notes hdraws hoccurrence).1, hstores⟩

end Program.NumbersBlock

end ShaderIR
