import ShaderIR.Proofs.Graph.Acceptance
import ShaderIR.Proofs.Outline.Levels

/-!
What the partition of a program looks like. Every piece of a code is a run of statements that cannot
be made longer (`Cut.Maximal`): only its last statement may end a range, and what stands next to it
in its list begins or ends one. The partition has one range for each piece, in the order of the
text, and fails exactly when some list stands deeper than the limit
(`Program.maximal_of_partition`).
-/

set_option autoImplicit false

namespace ShaderIR

variable {program : Program} {code : Code} {ref : ListRef}

/-- The statement is a conditional, a loop, a call or a return, so that it ends its range. -/
def Program.EndsRange (program : Program) (statement : NodeId) : Prop :=
  ∃ node, program.node statement = .ok node ∧ node.endsRange = true

/-- The statements are a run of a reachable list which only its last statement may end, and it
cannot be made longer: a range ends right before it, if anything stands there, and with its last
statement, if anything follows. -/
structure Cut.Maximal (program : Program) (cut : Cut) : Prop where
  ne_nil : cut.statements ≠ []
  listed : ∃ level, program.ListAt cut.list level
  straight : ∀ statement ∈ cut.statements.dropLast, ¬ program.EndsRange statement
  placed : ∃ before after, program.list cut.list = .ok (before ++ cut.statements ++ after) ∧
    (∀ previous ∈ before.getLast?, program.EndsRange previous) ∧
    (after = [] ∨ ∃ last ∈ cut.statements.getLast?, program.EndsRange last)

theorem Cut.maximal_concat {level : Nat} {before opened after : List NodeId} {statement : NodeId}
    (hlevel : program.ListAt ref level)
    (hlist : program.list ref = .ok (before ++ opened ++ statement :: after))
    (hbefore : ∀ previous ∈ before.getLast?, program.EndsRange previous)
    (hopened : ∀ statement ∈ opened, ¬ program.EndsRange statement)
    (hends : program.EndsRange statement) :
    (Cut.mk ref (opened ++ [statement])).Maximal program where
  ne_nil := List.concat_ne_nil _ _
  listed := ⟨level, hlevel⟩
  straight := by simpa using hopened
  placed := ⟨before, after, by simpa using hlist, hbefore, Or.inr ⟨statement, by simp, hends⟩⟩

namespace Program

/-- The pieces of a list and of the bodies inside it cannot be made longer, if what has been opened
already begins where a range ends and has no statement that ends one. -/
theorem FramesCode.maximal_of_mem_cuts (hframed : program.FramesCode code)
    {level : Nat} (before opened : List NodeId) (hlevel : program.ListAt ref level)
    (hlist : program.list ref = .ok (before ++ opened ++ code.heads))
    (hbefore : ∀ previous ∈ before.getLast?, program.EndsRange previous)
    (hopened : ∀ statement ∈ opened, ¬ program.EndsRange statement)
    {cut : Cut} (hcut : cut ∈ code.cuts ref opened) :
    cut.Maximal program := by
  induction hframed generalizing ref level before opened with
  | nil =>
    cases opened with
    | nil => cases hcut
    | cons first opened =>
      obtain rfl := List.mem_singleton.mp hcut
      exact ⟨List.cons_ne_nil _ _, ⟨level, hlevel⟩, fun statement hmem =>
          hopened statement (List.dropLast_subset _ hmem), before, [], hlist, hbefore, Or.inl rfl⟩
  | @step statement rest hstatement hlists _ ih =>
    rw [Code.cuts] at hcut
    cases hends : statement.node.endsRange with
    | true =>
      rw [hends, if_pos rfl, List.mem_cons] at hcut
      rcases hcut with rfl | hcut
      · exact Cut.maximal_concat hlevel hlist hbefore hopened ⟨_, hstatement, hends⟩
      · refine ih (before ++ opened ++ [statement.id])
          [] hlevel (by simpa [Code.heads] using hlist) ?_ (by simp) hcut
        simpa using ⟨_, hstatement, hends⟩
    | false =>
      rw [hends, if_neg Bool.false_ne_true] at hcut
      refine ih before (opened ++ [statement.id]) hlevel (by simpa [Code.heads] using hlist) hbefore
        (fun other hother => ?_) hcut
      rcases List.mem_append.mp hother with hother | hother
      · exact hopened other hother
      · obtain rfl := List.mem_singleton.mp hother
        rintro ⟨node, hnode, hends'⟩
        obtain rfl := Except.ok.inj (hstatement.symm.trans hnode)
        exact Bool.false_ne_true (hends.symm.trans hends')
  | @branch statement condition thenBody elseBody rest hstatement hbranch _ _ _ ihthen ihelse ih =>
    have hnode := hbranch ▸ hstatement
    have hends : program.EndsRange statement.id := ⟨_, hnode, rfl⟩
    have howner : statement.id ∈ before ++ opened ++
        (Code.branch statement thenBody elseBody rest).heads := by
      simp [Code.heads]
    simp only [Code.cuts, List.mem_cons, List.mem_append] at hcut
    rcases hcut with rfl | (hcut | hcut) | hcut
    · exact Cut.maximal_concat hlevel hlist hbefore hopened hends
    · exact ihthen [] [] (.nested hlevel hlist howner hnode (by simp [Node.lists]))
        (list_thenBody hnode) (by simp) (by simp) hcut
    · exact ihelse [] [] (.nested hlevel hlist howner hnode (by simp [Node.lists]))
        (list_elseBody hnode) (by simp) (by simp) hcut
    · exact ih (before ++ opened ++ [statement.id]) [] hlevel (by simpa [Code.heads] using hlist)
        (by simpa using hends) (by simp) hcut
  | @loop statement body rest hstatement hloop _ _ ihbody ih =>
    have hnode := hloop ▸ hstatement
    have hends : program.EndsRange statement.id := ⟨_, hnode, rfl⟩
    have howner : statement.id ∈ before ++ opened ++ (Code.loop statement body rest).heads := by
        simp [Code.heads]
    simp only [Code.cuts, List.mem_cons, List.mem_append] at hcut
    rcases hcut with rfl | hcut | hcut
    · exact Cut.maximal_concat hlevel hlist hbefore hopened hends
    · exact ihbody [] [] (.nested hlevel hlist howner hnode (List.mem_singleton_self _))
        (list_loopBody hnode) (by simp) (by simp) hcut
    · exact ih (before ++ opened ++ [statement.id]) [] hlevel (by simpa [Code.heads] using hlist)
        (by simpa using hends) (by simp) hcut

namespace Frames

variable (hframes : program.Frames code)

include hframes

theorem maximal_of_mem_cuts {cut : Cut} (hcut : cut ∈ code.cuts .root []) : cut.Maximal program :=
  hframes.framed.maximal_of_mem_cuts [] [] .root
    (congrArg Except.ok hframes.body) (by simp) (by simp) hcut

/-- A range that names a piece has its statements. -/
theorem statements_of_spanned {cut : Cut} (hcut : cut ∈ code.cuts .root []) {range : BlockRange}
    (hspanned : cut.Spanned range) : range.statements program = .ok cut.statements := by
  obtain ⟨before, after, hlist⟩ := @Code.exists_list_of_mem_cuts _ _ _ _ [] hcut
  have hcovers : range.Covers code cut.statements :=
    ⟨hspanned.first, hspanned.last, before, after, hspanned.list ▸ hlist⟩
  exact hcovers.statements hframes

/-- Bodies nest deeper than a limit exactly if some list stands deeper. -/
theorem lt_depth_iff (limit : Nat) :
    limit < code.depth ↔ ∃ ref level, program.ListAt ref level ∧ limit < level := by
  constructor
  · intro hlt
    obtain ⟨inner, hinner⟩ :=
      hframes.framed.exists_listAt [] .root (congrArg Except.ok hframes.body)
    exact ⟨inner, _, hinner, by simpa using hlt⟩
  · rintro ⟨ref, level, hlevel, hlt⟩
    exact hlt.trans_le (hframes.le_depth_of_listAt hlevel)

end Frames

/-- The partition of a program fails exactly if some list stands deeper than the limit. Otherwise
its ranges are, in the order of the text, all runs of straight-line statements that cannot be made
longer, and no two of them overlap. -/
theorem maximal_of_partition (hcheck : program.check = .ok ()) (limit : Nat) :
    (∃ ref level, program.ListAt ref level ∧ limit < level) ∧
      Query.Fails (program.partition limit) (.tooDeep limit) ∨
      (∀ ref level, program.ListAt ref level → level ≤ limit) ∧
        ∃ (ranges : List BlockRange) (cuts : List Cut) (order : List NodeId),
          Query.Answers (program.partition limit) ranges ∧
          List.Forall₂ (fun cut range => cut.Maximal program ∧ cut.Spanned range ∧
            range.statements program = .ok cut.statements) cuts ranges ∧
          program.preOrder = .ok order ∧ cuts.flatMap Cut.statements = order ∧
          cuts.Pairwise (fun first second => first.statements.Disjoint second.statements) := by
  obtain ⟨code, houtlines⟩ := program.exists_outlines_of_check hcheck
  have hframes := houtlines.frames
  obtain ⟨hdepth, ranges, hranges⟩ | ⟨hdepth, hfails⟩ := hframes.outcome_of_partition limit
  · have hspanned := hframes.spanned_of_partition hranges
    have horder : (code.cuts .root []).flatMap Cut.statements = code.order :=
      code.flatMap_cuts .root []
    have hdisjoint := (List.nodup_flatMap.mp (horder ▸ hframes.nodup_order)).2
    refine Or.inr ⟨fun ref level hlevel => (hframes.le_depth_of_listAt hlevel).trans hdepth,
      ranges, code.cuts .root [], code.order, hranges, ?_, hframes.preOrder_eq, horder, hdisjoint⟩
    obtain ⟨hlength, hzip⟩ := List.forall₂_iff_zip.mp hspanned
    refine List.forall₂_iff_zip.mpr ⟨hlength, fun hpair => ?_⟩
    have hcut := (List.of_mem_zip hpair).1
    exact ⟨hframes.maximal_of_mem_cuts hcut, hzip hpair,
      hframes.statements_of_spanned hcut (hzip hpair)⟩
  · exact Or.inl ⟨(hframes.lt_depth_iff limit).mp hdepth, hfails⟩

/-- A conditional in a conditional, a call and a conditional behind it: every one of them ends a
range. -/
theorem maximal_of_partition_nestedBodies :
    Graph.nestedBodies.check = .ok () ∧
    ∃ (ranges : List BlockRange) (cuts : List Cut),
      Query.Answers (Graph.nestedBodies.partition 2) ranges ∧
      ranges = [⟨.root, ⟨2⟩, ⟨15⟩⟩, ⟨.thenBody ⟨15⟩, ⟨5⟩, ⟨10⟩⟩,
        ⟨.thenBody ⟨10⟩, ⟨8⟩, ⟨8⟩⟩, ⟨.elseBody ⟨15⟩, ⟨13⟩, ⟨13⟩⟩,
        ⟨.root, ⟨16⟩, ⟨16⟩⟩, ⟨.root, ⟨21⟩, ⟨21⟩⟩, ⟨.thenBody ⟨21⟩, ⟨19⟩, ⟨19⟩⟩] ∧
      List.Forall₂ (fun cut range => cut.Maximal Graph.nestedBodies ∧ cut.Spanned range ∧
        range.statements Graph.nestedBodies = .ok cut.statements) cuts ranges ∧
      Graph.nestedBodies.preOrder = .ok (cuts.flatMap Cut.statements) := by
  have hcheck : Graph.nestedBodies.check = .ok () := rfl
  have hanswers :
      Query.Answers (Graph.nestedBodies.partition 2) [⟨.root, ⟨2⟩, ⟨15⟩⟩,
          ⟨.thenBody ⟨15⟩, ⟨5⟩, ⟨10⟩⟩, ⟨.thenBody ⟨10⟩, ⟨8⟩, ⟨8⟩⟩, ⟨.elseBody ⟨15⟩, ⟨13⟩, ⟨13⟩⟩,
      ⟨.root, ⟨16⟩, ⟨16⟩⟩, ⟨.root, ⟨21⟩, ⟨21⟩⟩, ⟨.thenBody ⟨21⟩, ⟨19⟩, ⟨19⟩⟩] := rfl
  obtain ⟨-, hfails⟩ | ⟨-, ranges, cuts, order, hranges, hcuts, horder, rfl, -⟩ :=
    maximal_of_partition hcheck 2
  · exact absurd hfails hanswers.not_fails
  · exact ⟨hcheck, ranges, cuts, hranges, hranges.unique hanswers, hcuts, horder⟩

end Program

end ShaderIR
