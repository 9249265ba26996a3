import ShaderIR.Proofs.Graph.Control
import Mathlib.Data.List.Chain

/-!
Cuts of codes. A list is cut behind each control statement, call and return; `Code.cuts` gives the
pieces of a list and of the bodies inside it, in the order of the text. Together they are the whole
text (`Code.flatMap_cuts`), control passes each one from top to bottom (`Code.isChain_of_mem_cuts`),
and the partition of a program has one range for each of them
(`Program.Frames.spanned_of_partition`).
-/

set_option autoImplicit false

namespace ShaderIR

/-- A run of statements of one list. -/
structure Cut where
  list : ListRef
  statements : List NodeId

/-- A range names a run by its first and last statement. -/
structure Cut.Spanned (cut : Cut) (range : BlockRange) : Prop where
  list : range.list = cut.list
  first : cut.statements.head? = some range.first
  last : cut.statements.getLast? = some range.last

/-- The first and the last of some statements. -/
def ends? : List NodeId → Option (NodeId × NodeId)
  | [] => none
  | first :: rest => some (first, rest.getLastD first)

theorem ends?_concat (opened : List NodeId) (statement : NodeId) :
    ends? (opened ++ [statement]) =
      some (((ends? opened).map Prod.fst).getD statement, statement) := by
  cases opened <;> simp [ends?]

theorem Cut.spanned {statements : List NodeId} {first last : NodeId}
    (hends : ends? statements = some (first, last)) (list : ListRef) :
    (Cut.mk list statements).Spanned ⟨list, first, last⟩ := by
  cases statements with
  | nil => cases hends
  | cons head rest =>
    obtain ⟨rfl, rfl⟩ : head = first ∧ rest.getLastD head = last := by simpa [ends?] using hends
    exact ⟨rfl, rfl, by simp [List.getLast?_cons]⟩

/-- No statement stands behind this one in its range. -/
def Node.endsRange : Node → Bool
  | .branch .. | .loop .. | .call .. | .ret .. => true
  | _ => false

namespace Code

/-- The pieces of a list and of the bodies inside it; the first piece goes on from `opened`. -/
def cuts (ref : ListRef) : (opened : List NodeId) → Code → List Cut
  | [], nil => []
  | first :: opened, nil => [⟨ref, first :: opened⟩]
  | opened, step statement rest =>
    if statement.node.endsRange then ⟨ref, opened ++ [statement.id]⟩ :: cuts ref [] rest
    else cuts ref (opened ++ [statement.id]) rest
  | opened, branch statement thenBody elseBody rest =>
    ⟨ref, opened ++ [statement.id]⟩ :: (cuts (.thenBody statement.id) [] thenBody ++
      cuts (.elseBody statement.id) [] elseBody ++ cuts ref [] rest)
  | opened, loop statement body rest =>
    ⟨ref, opened ++ [statement.id]⟩ :: (cuts (.loopBody statement.id) [] body ++ cuts ref [] rest)

variable {code : Code} {ref : ListRef} {opened : List NodeId} {cut : Cut}

/-- The pieces are the whole text. -/
theorem flatMap_cuts (ref : ListRef) (opened : List NodeId) (code : Code) :
    (code.cuts ref opened).flatMap Cut.statements = opened ++ code.order := by
  induction code generalizing ref opened with
  | nil => cases opened <;> simp [cuts]
  | step statement rest ih =>
    rw [cuts]
    split <;> simp [ih]
  | branch statement thenBody elseBody rest ihthen ihelse ih => simp [cuts, ihthen, ihelse, ih]
  | loop statement body rest ihbody ih => simp [cuts, ihbody, ih]

theorem ne_nil_of_mem_cuts (hcut : cut ∈ code.cuts ref opened) : cut.statements ≠ [] := by
  induction code generalizing ref opened with
  | nil =>
    cases opened with
    | nil => cases hcut
    | cons first opened =>
      obtain rfl := List.mem_singleton.mp hcut
      exact List.cons_ne_nil _ _
  | step statement rest ih =>
    rw [cuts] at hcut
    split at hcut
    · rcases List.mem_cons.mp hcut with rfl | hcut
      · exact List.concat_ne_nil _ _
      · exact ih hcut
    · exact ih hcut
  | branch statement thenBody elseBody rest ihthen ihelse ih =>
    simp only [cuts, List.mem_cons, List.mem_append] at hcut
    rcases hcut with rfl | (hcut | hcut) | hcut
    exacts [List.concat_ne_nil _ _, ihthen hcut, ihelse hcut, ih hcut]
  | loop statement body rest ihbody ih =>
    simp only [cuts, List.mem_cons, List.mem_append] at hcut
    rcases hcut with rfl | hcut | hcut
    exacts [List.concat_ne_nil _ _, ihbody hcut, ih hcut]

/-- A piece belongs to the list or to a body inside it. -/
theorem list_of_mem_cuts (hcut : cut ∈ code.cuts ref opened) :
    cut.list = ref ∨ ∃ owner ∈ code.order, cut.list.owner? = some owner := by
  induction code generalizing ref opened with
  | nil =>
    cases opened with
    | nil => cases hcut
    | cons first opened =>
      obtain rfl := List.mem_singleton.mp hcut
      exact Or.inl rfl
  | step statement rest ih =>
    rw [cuts] at hcut
    simp only [order_step, List.mem_cons]
    split at hcut
    · rcases List.mem_cons.mp hcut with rfl | hcut
      · exact Or.inl rfl
      · exact (ih hcut).imp_right fun ⟨owner, howner, hlist⟩ => ⟨owner, Or.inr howner, hlist⟩
    · exact (ih hcut).imp_right fun ⟨owner, howner, hlist⟩ => ⟨owner, Or.inr howner, hlist⟩
  | branch statement thenBody elseBody rest ihthen ihelse ih =>
    simp only [cuts, List.mem_cons, List.mem_append] at hcut
    simp only [order_branch, List.mem_cons, List.mem_append]
    rcases hcut with rfl | (hcut | hcut) | hcut
    · exact Or.inl rfl
    · rcases ihthen hcut with hlist | ⟨owner, howner, hlist⟩
      · exact Or.inr ⟨statement.id, Or.inl rfl, by rw [hlist]; rfl⟩
      · exact Or.inr ⟨owner, Or.inr (Or.inl (Or.inl howner)), hlist⟩
    · rcases ihelse hcut with hlist | ⟨owner, howner, hlist⟩
      · exact Or.inr ⟨statement.id, Or.inl rfl, by rw [hlist]; rfl⟩
      · exact Or.inr ⟨owner, Or.inr (Or.inl (Or.inr howner)), hlist⟩
    · exact (ih hcut).imp_right fun ⟨owner, howner, hlist⟩ => ⟨owner, Or.inr (Or.inr howner), hlist⟩
  | loop statement body rest ihbody ih =>
    simp only [cuts, List.mem_cons, List.mem_append] at hcut
    simp only [order_loop, List.mem_cons, List.mem_append]
    rcases hcut with rfl | hcut | hcut
    · exact Or.inl rfl
    · rcases ihbody hcut with hlist | ⟨owner, howner, hlist⟩
      · exact Or.inr ⟨statement.id, Or.inl rfl, by rw [hlist]; rfl⟩
      · exact Or.inr ⟨owner, Or.inr (Or.inl howner), hlist⟩
    · exact (ih hcut).imp_right fun ⟨owner, howner, hlist⟩ => ⟨owner, Or.inr (Or.inr howner), hlist⟩

/-- A piece stands in its list. -/
theorem exists_list_of_mem_cuts {before : List NodeId} (hcut : cut ∈ code.cuts ref opened) :
    ∃ earlier later, (cut.list, earlier ++ cut.statements ++ later) ∈
      (ref, before ++ opened ++ code.heads) :: code.bodies := by
  induction code generalizing ref opened before with
  | nil =>
    cases opened with
    | nil => cases hcut
    | cons first opened =>
      obtain rfl := List.mem_singleton.mp hcut
      exact ⟨before, [], List.mem_cons_self⟩
  | step statement rest ih =>
    have hheads : before ++ opened ++ (step statement rest).heads =
        before ++ (opened ++ [statement.id]) ++ rest.heads := by simp [heads]
    rw [hheads]
    rw [cuts] at hcut
    split at hcut
    · rcases List.mem_cons.mp hcut with rfl | hcut
      · exact ⟨before, rest.heads, List.mem_cons_self⟩
      · have hrest := @ih _ [] (before ++ (opened ++ [statement.id])) hcut
        rwa [List.append_nil] at hrest
    · exact ih hcut
  | branch statement thenBody elseBody rest ihthen ihelse ih =>
    have hheads : before ++ opened ++ (branch statement thenBody elseBody rest).heads =
        before ++ (opened ++ [statement.id]) ++ rest.heads := by simp [heads]
    rw [hheads]
    simp only [bodies, List.mem_cons, List.mem_append]
    simp only [cuts, List.mem_cons, List.mem_append] at hcut
    rcases hcut with rfl | (hcut | hcut) | hcut
    · exact ⟨before, rest.heads, Or.inl rfl⟩
    · obtain ⟨earlier, later, hlist⟩ := @ihthen _ [] [] hcut
      exact ⟨earlier, later, Or.inr (Or.inl (Or.inl (List.mem_cons.mp hlist)))⟩
    · obtain ⟨earlier, later, hlist⟩ := @ihelse _ [] [] hcut
      exact ⟨earlier, later, Or.inr (Or.inl (Or.inr (List.mem_cons.mp hlist)))⟩
    · obtain ⟨earlier, later, hlist⟩ := @ih _ [] (before ++ (opened ++ [statement.id])) hcut
      rw [List.append_nil, List.mem_cons] at hlist
      exact ⟨earlier, later, hlist.imp_right Or.inr⟩
  | loop statement body rest ihbody ih =>
    have hheads : before ++ opened ++ (loop statement body rest).heads =
        before ++ (opened ++ [statement.id]) ++ rest.heads := by simp [heads]
    rw [hheads]
    simp only [bodies, List.mem_cons, List.mem_append]
    simp only [cuts, List.mem_cons, List.mem_append] at hcut
    rcases hcut with rfl | hcut | hcut
    · exact ⟨before, rest.heads, Or.inl rfl⟩
    · obtain ⟨earlier, later, hlist⟩ := @ihbody _ [] [] hcut
      exact ⟨earlier, later, Or.inr (Or.inl (List.mem_cons.mp hlist))⟩
    · obtain ⟨earlier, later, hlist⟩ := @ih _ [] (before ++ (opened ++ [statement.id])) hcut
      rw [List.append_nil, List.mem_cons] at hlist
      exact ⟨earlier, later, hlist.imp_right Or.inr⟩

/-! ### Control inside a piece -/

variable {after after' : Option NodeId} {part : Code} {source target : NodeId}

/-- Statements that are chained in a part are chained in the whole. -/
theorem Part.chained_whole (hpart : Part after code after' part)
    (hnodup : (code.order ++ after.toList).Nodup) (hchained : part.Chained after' source target)
    (htarget : target ∈ part.order.tail) : code.Chained after source target where
  leads := hpart.leads hchained.leads
  only other hother := hchained.only other ((hpart.leads_iff_of_source
      (List.nodup_append'.mp hnodup).1 hchained.leads.source_mem).mp hother)
  sole other hother := hchained.sole other ((hpart.leads_iff_of_target hnodup htarget).mp hother)

/-- A statement without bodies is chained to the next one. -/
theorem chained_step {statement : Tree} {rest : Code}
    (hnodup : ((step statement rest).order ++ after.toList).Nodup)
    (htarget : rest.heads.head? = some target) :
    (step statement rest).Chained after statement.id target := by
  have hentry : rest.entry after = some target := by simp [entry, htarget]
  rw [order_step, List.cons_append, List.nodup_cons] at hnodup
  obtain ⟨hfirst, hrest⟩ := hnodup
  refine ⟨Or.inl ⟨rfl, hentry⟩, fun other hother => ?_, fun other hother => ?_⟩
  · rcases hother with ⟨-, hother⟩ | hother
    · exact Option.some.inj (hother.symm.trans hentry)
    · exact absurd (List.mem_append_left _ hother.source_mem) hfirst
  · rcases hother with ⟨rfl, -⟩ | hother
    · rfl
    · obtain ⟨later, horder⟩ := List.head?_eq_some_iff.mp (rest.head?_order.trans htarget)
      have hmem := hother.target_mem_tail
      rw [horder, List.cons_append] at hrest
      rw [horder, List.tail_cons] at hmem
      exact absurd hmem (List.nodup_cons.mp hrest).1

/-- Control passes a piece from top to bottom, as far as it passes what has been opened already. -/
theorem isChain_of_mem_cuts {relation : NodeId → NodeId → Prop} (hloopless : code.Loopless)
    (hnodup : (code.order ++ after.toList).Nodup) (hopened : opened.IsChain relation)
    (hnext : ∀ source ∈ opened.getLast?, ∀ target ∈ code.heads.head?, relation source target)
    (hchained : ∀ source target, code.Chained after source target → target ∈ code.order.tail →
      relation source target) (hcut : cut ∈ code.cuts ref opened) :
      cut.statements.IsChain relation := by
  induction code generalizing ref opened after with
  | nil =>
    cases opened with
    | nil => cases hcut
    | cons first opened =>
      obtain rfl := List.mem_singleton.mp hcut
      exact hopened
  | step statement rest ih =>
    have hextended : (opened ++ [statement.id]).IsChain relation :=
      hopened.append (List.isChain_singleton _) (by simpa [heads] using hnext)
    have hpart := Part.afterStep after statement rest
    have hchained' (source target : NodeId) (hrest : rest.Chained after source target)
        (htarget : target ∈ rest.order.tail) : relation source target :=
      hchained source target (hpart.chained_whole hnodup hrest htarget)
        (List.mem_of_mem_tail htarget)
    rw [cuts] at hcut
    split at hcut
    · rcases List.mem_cons.mp hcut with rfl | hcut
      · exact hextended
      · exact ih (hpart.loopless hloopless) (hpart.nodup hnodup) .nil (by simp) hchained' hcut
    · refine ih (hpart.loopless hloopless) (hpart.nodup hnodup) hextended
        (fun source hsource target htarget => ?_) hchained' hcut
      obtain rfl : statement.id = source := by simpa using hsource
      exact hchained _ _ (chained_step hnodup htarget)
        (rest.heads_subset_order (List.mem_of_head? htarget))
  | branch statement thenBody elseBody rest ihthen ihelse ih =>
    have hextended : (opened ++ [statement.id]).IsChain relation :=
      hopened.append (List.isChain_singleton _) (by simpa [heads] using hnext)
    have hinside {after' : Option NodeId} {part : Code}
        (hpart : Part after (branch statement thenBody elseBody rest) after' part)
        (source target : NodeId) (hinner : part.Chained after' source target)
        (htarget : target ∈ part.order.tail) : relation source target :=
      hchained source target (hpart.chained_whole hnodup hinner htarget)
        (hpart.subset_tail (List.mem_of_mem_tail htarget))
    simp only [cuts, List.mem_cons, List.mem_append] at hcut
    rcases hcut with rfl | (hcut | hcut) | hcut
    · exact hextended
    · have hpart := Part.thenBody after statement thenBody elseBody rest
      exact ihthen (hpart.loopless hloopless) (hpart.nodup hnodup) .nil (by simp)
        (hinside hpart) hcut
    · have hpart := Part.elseBody after statement thenBody elseBody rest
      exact ihelse (hpart.loopless hloopless) (hpart.nodup hnodup) .nil (by simp)
        (hinside hpart) hcut
    · have hpart := Part.afterBranch after statement thenBody elseBody rest
      exact ih (hpart.loopless hloopless) (hpart.nodup hnodup) .nil (by simp) (hinside hpart) hcut
  | loop => exact hloopless.elim

end Code

/-! ### Pieces and ranges of a program -/

namespace Program

variable {program : Program} {code : Code} {ref : ListRef} {opened : List NodeId}

private theorem exists_answers_rangesAfter {limit budget : Nat} {statements : List NodeId}
    {ranges : List BlockRange} (hlist : program.list ref = .ok statements)
    (hranges : Query.Answers (program.rangesWithin limit budget ref) ranges) :
    ∃ budget', Query.Answers (program.rangesAfter ref (program.rangesWithin limit budget')
        (ends? []) statements) ranges := by
  cases budget with
  | zero => exact (Query.answers_throw hranges).elim
  | succ budget =>
    rw [rangesWithin, Query.answers_bind] at hranges
    obtain ⟨statements', hread, hranges⟩ := hranges
    obtain rfl := Except.ok.inj (hlist.symm.trans (Query.answers_liftCrash.mp hread))
    exact ⟨budget, hranges⟩

/-- The ranges of the rest of a list, and of the bodies inside it. -/
theorem FramesCode.spanned_of_rangesAfter (hframed : program.FramesCode code) {limit budget : Nat}
    {ranges : List BlockRange} (hranges : Query.Answers
      (program.rangesAfter ref (program.rangesWithin limit budget) (ends? opened) code.heads)
      ranges) : List.Forall₂ Cut.Spanned (code.cuts ref opened) ranges := by
  induction hframed generalizing ref opened budget ranges with
  | nil =>
    cases opened with
    | nil =>
      obtain rfl := Query.answers_pure.mp hranges
      exact .nil
    | cons first opened =>
      obtain rfl := Query.answers_pure.mp hranges
      exact .cons (Cut.spanned rfl ref) .nil
  | @step statement rest hstatement hlists _ ih =>
    have hspanned := Cut.spanned (ends?_concat opened statement.id) ref
    rw [Code.heads, rangesAfter, Query.answers_bind] at hranges
    obtain ⟨node, hnode, hranges⟩ := hranges
    obtain rfl := Except.ok.inj (hstatement.symm.trans (Query.answers_liftCrash.mp hnode))
    rw [Code.cuts]
    cases hkind : statement.node with
    | branch | loop => simp [hkind, Node.lists] at hlists
    | call | ret =>
      simp only [Node.endsRange, if_true]
      simp only [hkind, Query.answers_bind, Query.answers_pure] at hranges
      obtain ⟨following, hfollowing, rfl⟩ := hranges
      exact .cons hspanned (ih hfollowing)
    | _ =>
      simp only [Node.endsRange, Bool.false_eq_true, if_false]
      simp only [hkind] at hranges
      exact ih (by rwa [ends?_concat])
  | @branch statement condition thenBody elseBody rest hstatement hbranch _ _ _ ihthen ihelse ih =>
    have hnode := hbranch ▸ hstatement
    have hspanned := Cut.spanned (ends?_concat opened statement.id) ref
    rw [Code.heads, rangesAfter, Query.answers_bind] at hranges
    obtain ⟨node, hread, hranges⟩ := hranges
    obtain rfl := Except.ok.inj (hnode.symm.trans (Query.answers_liftCrash.mp hread))
    simp only [Query.answers_bind, Query.answers_pure, Query.answers_liftCrash,
      nestedLists_of_node hnode, Except.ok.injEq, exists_eq_left', Node.lists,
      Query.answers_mapM_cons, Query.answers_mapM_nil] at hranges
    obtain ⟨_, ⟨thenRanges, _, hthen, ⟨elseRanges, _, helse, rfl, rfl⟩, rfl⟩, following, hrest,
      rfl⟩ := hranges
    obtain ⟨_, hthen⟩ := exists_answers_rangesAfter (list_thenBody hnode) hthen
    obtain ⟨_, helse⟩ := exists_answers_rangesAfter (list_elseBody hnode) helse
    simp only [Code.cuts, List.flatten_cons, List.flatten_nil, List.append_nil]
    exact .cons hspanned (List.rel_append (List.rel_append (ihthen hthen) (ihelse helse))
      (ih hrest))
  | @loop statement body rest hstatement hloop _ _ ihbody ih =>
    have hnode := hloop ▸ hstatement
    have hspanned := Cut.spanned (ends?_concat opened statement.id) ref
    rw [Code.heads, rangesAfter, Query.answers_bind] at hranges
    obtain ⟨node, hread, hranges⟩ := hranges
    obtain rfl := Except.ok.inj (hnode.symm.trans (Query.answers_liftCrash.mp hread))
    simp only [Query.answers_bind, Query.answers_pure, Query.answers_liftCrash,
      nestedLists_of_node hnode, Except.ok.injEq, exists_eq_left', Node.lists,
      Query.answers_mapM_cons, Query.answers_mapM_nil] at hranges
    obtain ⟨_, ⟨bodyRanges, _, hbody, rfl, rfl⟩, following, hrest, rfl⟩ := hranges
    obtain ⟨_, hbody⟩ := exists_answers_rangesAfter (list_loopBody hnode) hbody
    simp only [Code.cuts, List.flatten_cons, List.flatten_nil, List.append_nil]
    exact .cons hspanned (List.rel_append (ihbody hbody) (ih hrest))

/-- The partition has one range for each piece. -/
theorem Frames.spanned_of_partition (hframes : program.Frames code) {limit : Nat}
    {ranges : List BlockRange} (hranges : Query.Answers (program.partition limit) ranges) :
    List.Forall₂ Cut.Spanned (code.cuts .root []) ranges := by
  have hlist : program.list .root = .ok code.heads := congrArg Except.ok hframes.body
  obtain ⟨_, hranges⟩ := exists_answers_rangesAfter hlist hranges
  exact hframes.framed.spanned_of_rangesAfter hranges

end Program

end ShaderIR
