import ShaderIR.Proofs.Graph.Coverage

/-!
Which programs have a graph. The partition fails only for bodies that nest too deep
(`Program.FramesCode.exists_ranges`, `Program.FramesCode.fails_rangesAfter`); the edges are refused
at the first loop or return in the order of the text (`Graph.Pieced.obeys_flowThrough`); connecting
and merging always come to an end (`Graph.Located.exists_connectAll`,
`Graph.Depicts.exists_mergeWithin`); and a graph of several blocks is refused at the first discard
(`Graph.Depicts.obeys_rejectDiscard`). Together they say which of these failures the construction of
a graph ends with, if with any (`Graph.outcome_of_build`).
-/

set_option autoImplicit false

namespace ShaderIR

variable {program : Program} {code whole : Code} {ref : ListRef}

/-! ### Statements that are refused -/

/-- Why there is no graph for a statement, wherever it stands. -/
def Node.refusal? (node : Node) (id : NodeId) : Option Unsupported :=
  match node with
  | .loop _ => some (.loop id)
  | .ret _ => some (.ret id)
  | _ => none

theorem Node.refusal?_of_not_ends {node : Node} {id : NodeId} (hends : node.endsRange = false) :
    node.refusal? id = none := by
  cases node <;> first | rfl | cases hends

namespace Program

/-- Why there is no graph for a statement, wherever it stands. -/
def refusal? (program : Program) (statement : NodeId) : Option Unsupported :=
  match program.node statement with
  | .ok node => node.refusal? statement
  | .error _ => none

theorem refusal?_of_node {statement : NodeId} {node : Node}
    (hnode : program.node statement = .ok node) :
    program.refusal? statement = node.refusal? statement := by
  rw [refusal?, hnode]

/-- Whether a statement is a discard. -/
def discards (program : Program) (statement : NodeId) : Bool :=
  match program.node statement with
  | .ok (.discard _) => true
  | _ => false

end Program

/-- The question is refused for this reason, or has an answer if there is none. -/
def Query.Obeys {α : Type} (query : Query PassError α) : Option Unsupported → Prop
  | some reason => query.Fails (.unsupported reason)
  | none => ∃ answer, query.Answers answer

/-! ### The partition -/

namespace Program

variable {limit budget : Nat} {statements : List NodeId}

theorem answers_rangesWithin_iff (hlist : program.list ref = .ok statements)
    {ranges : List BlockRange} :
    Query.Answers (program.rangesWithin limit (budget + 1) ref) ranges ↔ Query.Answers
        (program.rangesAfter ref (program.rangesWithin limit budget) none statements) ranges := by
  rw [rangesWithin]
  simp only [Query.answers_bind, Query.answers_liftCrash, hlist, Except.ok.injEq, exists_eq_left']

theorem fails_rangesWithin_iff (hlist : program.list ref = .ok statements) {failure : PassError} :
    Query.Fails (program.rangesWithin limit (budget + 1) ref) failure ↔ Query.Fails
        (program.rangesAfter ref (program.rangesWithin limit budget) none statements) failure := by
  rw [rangesWithin]
  simp only [Query.fails_bind, Query.fails_liftCrash, Query.answers_liftCrash, hlist,
    Except.ok.injEq, exists_eq_left', false_or]

/-- A list whose bodies do not nest too deep has ranges. -/
theorem FramesCode.exists_ranges (hframed : program.FramesCode code) (hdepth : code.depth ≤ budget)
    (opened : Option (NodeId × NodeId)) : ∃ ranges, Query.Answers
      (program.rangesAfter ref (program.rangesWithin limit budget) opened code.heads) ranges := by
  induction hframed generalizing ref budget opened with
  | nil => cases opened <;> exact ⟨_, Query.answers_pure.mpr rfl⟩
  | @step statement rest hstatement hlists _ ih =>
    obtain ⟨following, hfollowing⟩ := @ih ref budget hdepth none
    obtain ⟨later, hlater⟩ :=
      @ih ref budget hdepth (some ((opened.map Prod.fst).getD statement.id, statement.id))
    rw [Code.heads, rangesAfter]
    simp only [Query.answers_bind, Query.answers_liftCrash, hstatement, Except.ok.injEq,
      exists_eq_left']
    cases hkind : statement.node with
    | branch | loop => simp [hkind, Node.lists] at hlists
    | call | ret =>
      simp only [Query.answers_bind, Query.answers_pure]
      exact ⟨_, following, hfollowing, rfl⟩
    | _ => exact ⟨later, hlater⟩
  | @branch statement condition thenBody elseBody rest hstatement hbranch _ _ _ ihthen ihelse ih =>
    have hnode := hbranch ▸ hstatement
    simp only [Code.depth, Nat.max_le, Nat.succ_le_iff] at hdepth
    obtain ⟨budget, rfl⟩ : ∃ budget', budget = budget' + 1 := ⟨budget - 1, by omega⟩
    obtain ⟨thenRanges, hthen⟩ := @ihthen (.thenBody statement.id) budget (by omega) none
    obtain ⟨elseRanges, helse⟩ := @ihelse (.elseBody statement.id) budget (by omega) none
    obtain ⟨following, hfollowing⟩ := @ih ref (budget + 1) hdepth.2 none
    rw [Code.heads, rangesAfter]
    simp only [Query.answers_bind, Query.answers_liftCrash, hnode, nestedLists_of_node hnode,
      Except.ok.injEq, exists_eq_left', Node.lists, Query.answers_mapM_cons, Query.answers_mapM_nil,
      Query.answers_pure]
    exact ⟨_, _, ⟨_, _, (answers_rangesWithin_iff (list_thenBody hnode)).mpr hthen,
      ⟨_, _, (answers_rangesWithin_iff (list_elseBody hnode)).mpr helse, rfl, rfl⟩, rfl⟩,
      _, hfollowing, rfl⟩
  | @loop statement body rest hstatement hloop _ _ ihbody ih =>
    have hnode := hloop ▸ hstatement
    simp only [Code.depth, Nat.max_le, Nat.succ_le_iff] at hdepth
    obtain ⟨budget, rfl⟩ : ∃ budget', budget = budget' + 1 := ⟨budget - 1, by omega⟩
    obtain ⟨bodyRanges, hbody⟩ := @ihbody (.loopBody statement.id) budget (by omega) none
    obtain ⟨following, hfollowing⟩ := @ih ref (budget + 1) hdepth.2 none
    rw [Code.heads, rangesAfter]
    simp only [Query.answers_bind, Query.answers_liftCrash, hnode, nestedLists_of_node hnode,
      Except.ok.injEq, exists_eq_left', Node.lists, Query.answers_mapM_cons, Query.answers_mapM_nil,
      Query.answers_pure]
    exact ⟨_, _, ⟨_, _, (answers_rangesWithin_iff (list_loopBody hnode)).mpr hbody, rfl, rfl⟩,
      _, hfollowing, rfl⟩

theorem fails_rangesWithin_zero : Query.Fails (program.rangesWithin limit 0 ref) (.tooDeep limit) :=
  Query.fails_throw.mpr rfl

/-- The partition of a list whose bodies nest too deep fails. -/
theorem FramesCode.fails_rangesAfter (hframed : program.FramesCode code)
    (hdepth : budget < code.depth) (opened : Option (NodeId × NodeId)) :
    Query.Fails (program.rangesAfter ref (program.rangesWithin limit budget) opened code.heads)
        (.tooDeep limit) := by
  -- a body fails when it nests too deep, and has ranges when it does not
  have hbody {body : Code} {inner : ListRef} {budget : Nat} (hbody : program.FramesCode body)
      (hlist : program.list inner = .ok body.heads)
      (ih : ∀ {budget}, budget < body.depth → ∀ opened, Query.Fails (program.rangesAfter inner
          (program.rangesWithin limit budget) opened body.heads) (.tooDeep limit)) :
      Query.Fails (program.rangesWithin limit budget inner) (.tooDeep limit) ∨ body.depth < budget ∧
        ∃ ranges, Query.Answers (program.rangesWithin limit budget inner) ranges := by
    cases budget with
    | zero => exact Or.inl fails_rangesWithin_zero
    | succ budget =>
      rcases Nat.lt_or_ge budget body.depth with hlt | hge
      · exact Or.inl ((fails_rangesWithin_iff hlist).mpr (ih hlt none))
      · obtain ⟨ranges, hranges⟩ := hbody.exists_ranges hge none
        exact Or.inr ⟨Nat.lt_succ_of_le hge, ranges, (answers_rangesWithin_iff hlist).mpr hranges⟩
  induction hframed generalizing ref budget opened with
  | nil => cases hdepth
  | @step statement rest hstatement hlists _ ih =>
    have hfails := @ih ref budget hdepth
    rw [Code.heads, rangesAfter]
    simp only [Query.fails_bind, Query.fails_liftCrash, Query.answers_liftCrash, hstatement,
      Except.ok.injEq, exists_eq_left', false_or]
    cases hkind : statement.node with
    | branch | loop => simp [hkind, Node.lists] at hlists
    | call | ret =>
      simp only [Query.fails_bind]
      exact Or.inl (hfails none)
    | _ => exact hfails _
  | @branch statement condition thenBody elseBody rest hstatement hbranch hthen helse hrest ihthen
      ihelse ih =>
    have hnode := hbranch ▸ hstatement
    simp only [Code.depth, lt_max_iff] at hdepth
    rw [Code.heads, rangesAfter]
    simp only [Query.fails_bind, Query.fails_liftCrash, Query.answers_liftCrash, hnode,
      nestedLists_of_node hnode, Except.ok.injEq, exists_eq_left', Node.lists,
      Query.answers_mapM_cons, Query.answers_mapM_nil, Query.fails_mapM_cons, Query.fails_mapM_nil,
      Query.fails_pure, false_or, and_false, or_false, exists_false]
    rcases @hbody _ _ budget hthen (list_thenBody hnode) (@ihthen _)
      with hfails | ⟨hthenDepth, thenRanges, hthenRanges⟩
    · exact Or.inl (Or.inl hfails)
    rcases @hbody _ _ budget helse (list_elseBody hnode) (@ihelse _)
      with hfails | ⟨helseDepth, elseRanges, helseRanges⟩
    · exact Or.inl (Or.inr ⟨⟨_, hthenRanges⟩, hfails⟩)
    · exact Or.inr ⟨_, ⟨_, _, hthenRanges, ⟨_, _, helseRanges, rfl, rfl⟩, rfl⟩, ih (by omega) none⟩
  | @loop statement body rest hstatement hloop hinner hrest ihbody ih =>
    have hnode := hloop ▸ hstatement
    simp only [Code.depth, lt_max_iff] at hdepth
    rw [Code.heads, rangesAfter]
    simp only [Query.fails_bind, Query.fails_liftCrash, Query.answers_liftCrash, hnode,
      nestedLists_of_node hnode, Except.ok.injEq, exists_eq_left', Node.lists,
      Query.answers_mapM_cons, Query.answers_mapM_nil, Query.fails_mapM_cons, Query.fails_mapM_nil,
      Query.fails_pure, false_or, and_false, or_false, exists_false]
    rcases @hbody _ _ budget hinner (list_loopBody hnode) (@ihbody _)
      with hfails | ⟨hbodyDepth, ranges, hranges⟩
    · exact Or.inl hfails
    · exact Or.inr ⟨_, ⟨_, _, hranges, rfl, rfl⟩, ih (by omega) none⟩

/-- The partition cuts a program whose bodies nest as deep as allowed, and fails for all others. -/
theorem Frames.outcome_of_partition (hframes : program.Frames code) (limit : Nat) :
    code.depth ≤ limit ∧ (∃ ranges, Query.Answers (program.partition limit) ranges) ∨
      limit < code.depth ∧ Query.Fails (program.partition limit) (.tooDeep limit) := by
  have hlist : program.list .root = .ok code.heads := congrArg Except.ok hframes.body
  rcases Nat.lt_or_ge limit code.depth with hlt | hge
  · exact Or.inr ⟨hlt,
      (fails_rangesWithin_iff hlist).mpr (hframes.framed.fails_rangesAfter hlt none)⟩
  · obtain ⟨ranges, hranges⟩ := hframes.framed.exists_ranges hge none
    exact Or.inl ⟨hge, ranges, (answers_rangesWithin_iff hlist).mpr hranges⟩

end Program

/-! ### Edges -/

namespace Graph

variable {graph : Graph} {opened : List NodeId}

section Flow

variable {after next : Option BlockId}
  {nested : ListRef → Option BlockId → Query PassError (List Edge)}
  {block : BasicBlock} {rest : List BasicBlock} {last : NodeId} {node : Node}

/-- How the edges of a block, or those of the bodies of its last statement, are refused. -/
def OwnRefusal (nested : ListRef → Option BlockId → Query PassError (List Edge))
    (next : Option BlockId) (last : NodeId) (failure : PassError) : Node → Prop
  | .branch .. => Query.Fails (nested (.thenBody last) next) failure ∨
    (∃ edges, Query.Answers (nested (.thenBody last) next) edges) ∧
      Query.Fails (nested (.elseBody last) next) failure
  | .loop .. => failure = .unsupported (.loop last)
  | .ret .. => failure = .unsupported (.ret last)
  | _ => False

theorem answers_flowThrough_cons (hlast : block.last? = some last)
    (hnode : program.node last = .ok node)
    {own later : List Edge} (hown : graph.OwnEdges nested (if rest.isEmpty then after else none)
      ((rest.head?.map BasicBlock.id).or after) block last own node)
    (hlater : Query.Answers (graph.flowThrough program after nested rest) later) :
    Query.Answers (graph.flowThrough program after nested (block :: rest)) (own ++ later) := by
  obtain ⟨exit, hexit, rfl⟩ := Option.map_eq_some_iff.mp hlast
  rw [flowThrough, hexit]
  simp only [Query.answers_bind, Query.answers_liftCrash, hnode, Except.ok.injEq, exists_eq_left']
  cases node <;> simp only [Query.answers_bind, Query.answers_pure, exists_eq_left']
  case branch =>
    obtain ⟨thenEdges, elseEdges, hthen, helse, rfl⟩ := hown
    exact ⟨thenEdges, hthen, elseEdges, helse, later, hlater, rfl⟩
  case loop | ret => exact hown.elim
  case call =>
    obtain rfl : own = _ := hown
    exact ⟨later, hlater, rfl⟩
  all_goals
    obtain rfl : own = _ := hown
    refine ⟨later, hlater, ?_⟩
    cases rest <;> rfl

theorem fails_flowThrough_cons (hlast : block.last? = some last)
    (hnode : program.node last = .ok node) {failure : PassError} :
    Query.Fails (graph.flowThrough program after nested (block :: rest)) failure ↔
      OwnRefusal nested ((rest.head?.map BasicBlock.id).or after) last failure node ∨
      (∃ own, graph.OwnEdges nested (if rest.isEmpty then after else none)
        ((rest.head?.map BasicBlock.id).or after) block last own node) ∧
      Query.Fails (graph.flowThrough program after nested rest) failure := by
  obtain ⟨exit, hexit, rfl⟩ := Option.map_eq_some_iff.mp hlast
  rw [flowThrough, hexit]
  simp only [Query.fails_bind, Query.fails_liftCrash, Query.answers_liftCrash, hnode,
    Except.ok.injEq, exists_eq_left', false_or]
  cases node <;> simp only [OwnRefusal, OwnEdges,
    Query.fails_bind, Query.fails_pure, Query.fails_throw,
    Query.answers_pure, Query.answers_throw, and_false, exists_false, or_false, false_or, false_and,
    exists_eq, exists_eq', true_and, exists_and_right, exists_and_left, @eq_comm _ failure]
  case branch =>
    constructor
    · rintro (hfails | ⟨hthen, hfails | ⟨⟨_, helse⟩, hfails⟩⟩)
      · exact Or.inl (Or.inl hfails)
      · exact Or.inl (Or.inr ⟨hthen, hfails⟩)
      · obtain ⟨_, hthen⟩ := hthen
        exact Or.inr ⟨⟨_, _, hthen, _, helse, rfl⟩, hfails⟩
    · rintro ((hfails | ⟨hthen, hfails⟩) | ⟨⟨_, _, hthen, _, helse, -⟩, hfails⟩)
      · exact Or.inl hfails
      · exact Or.inr ⟨hthen, Or.inl hfails⟩
      · exact Or.inr ⟨⟨_, hthen⟩, Or.inr ⟨⟨_, helse⟩, hfails⟩⟩

theorem obeys_flowThrough_cons (hlast : block.last? = some last)
    (hnode : program.node last = .ok node) {first second : Option Unsupported}
    (hfirst : ∀ reason, first = some reason →
      OwnRefusal nested ((rest.head?.map BasicBlock.id).or after) last (.unsupported reason) node)
    (hown : first = none → ∃ own, graph.OwnEdges nested (if rest.isEmpty then after else none)
      ((rest.head?.map BasicBlock.id).or after) block last own node)
    (hrest : Query.Obeys (graph.flowThrough program after nested rest) second) :
    Query.Obeys (graph.flowThrough program after nested (block :: rest)) (first.or second) := by
  cases first with
  | some reason => exact (fails_flowThrough_cons hlast hnode).mpr (Or.inl (hfirst reason rfl))
  | none =>
    obtain ⟨own, hown⟩ := hown rfl
    cases second with
    | some reason => exact (fails_flowThrough_cons hlast hnode).mpr (Or.inr ⟨⟨own, hown⟩, hrest⟩)
    | none =>
      obtain ⟨later, hlater⟩ := hrest
      exact ⟨own ++ later, answers_flowThrough_cons hlast hnode hown hlater⟩

/-- No edge is refused of a block that ends with the list. -/
theorem obeys_flowThrough_singleton (hlast : block.last? = some last)
    (hnode : program.node last = .ok node) (hplain : node.endsRange = false) :
    Query.Obeys (graph.flowThrough program after nested [block]) none := by
  have hown : graph.OwnEdges nested after after block last (after.toList.map (Edge.mk block.id))
      node := by
    cases node <;> first | rfl | cases hplain
  exact ⟨_, answers_flowThrough_cons hlast hnode hown (Query.answers_pure.mpr rfl)⟩

/-- The bodies of a conditional come before what is behind it. -/
theorem obeys_flowThrough_branch {condition : NodeId} {thenBody elseBody : List NodeId}
    {first second third : Option Unsupported} (hlast : block.last? = some last)
    (hnode : program.node last = .ok (.branch condition thenBody elseBody))
    (hthen : Query.Obeys (nested (.thenBody last) ((rest.head?.map BasicBlock.id).or after)) first)
    (helse : Query.Obeys (nested (.elseBody last) ((rest.head?.map BasicBlock.id).or after)) second)
    (hrest : Query.Obeys (graph.flowThrough program after nested rest) third) :
    Query.Obeys (graph.flowThrough program after nested (block :: rest))
      ((first.or second).or third) := by
  refine obeys_flowThrough_cons hlast hnode (fun reason hreason => ?_) (fun hnone => ?_) hrest
  · rcases Option.or_eq_some_iff.mp hreason with rfl | ⟨rfl, rfl⟩
    · exact Or.inl hthen
    · exact Or.inr ⟨hthen, helse⟩
  · obtain ⟨rfl, rfl⟩ := Option.or_eq_none_iff.mp hnone
    obtain ⟨thenEdges, hthenEdges⟩ := hthen
    obtain ⟨elseEdges, helseEdges⟩ := helse
    exact ⟨_, thenEdges, elseEdges, hthenEdges, helseEdges, rfl⟩

end Flow

private theorem findSome?_cons_eq_or {α β : Type}
    (search : α → Option β) (first : α) (rest : List α) :
    (first :: rest).findSome? search = (search first).or (rest.findSome? search) := by
  rw [List.findSome?_cons]
  cases search first <;> rfl

/-- The edges out of the blocks of a list and of the bodies inside it are refused at the first loop
or return in the order of the text. -/
theorem Pieced.obeys_flowThrough (hpieced : graph.Pieced whole) (hframes : program.Frames whole)
    (hframed : program.FramesCode code) {limit budget : Nat} (hdepth : code.depth ≤ budget)
    {blocks : List BasicBlock} {after : Option BlockId} (hcode : code.order.Nodup)
    (hplaced : Placed whole ref opened code) (hopened : ∀ last ∈ opened.getLast?,
      ∃ node, program.node last = .ok node ∧ node.endsRange = false)
    (hspans : List.Forall₂ (fun cut block => BasicBlock.Spans cut block)
      (code.pieces ref opened) blocks) :
    Query.Obeys (graph.flowThrough program after (graph.flowWithin program limit budget) blocks)
      (code.order.findSome? program.refusal?) := by
  induction hframed generalizing ref opened budget blocks after with
  | nil =>
    cases opened with
    | nil =>
      obtain rfl := List.forall₂_nil_left_iff.mp hspans
      exact ⟨[], Query.answers_pure.mpr rfl⟩
    | cons first opened =>
      have hpieces : Code.nil.pieces ref (first :: opened) = [⟨ref, first :: opened⟩] := by
        simp [Code.pieces, Code.cuts]
      rw [hpieces] at hspans
      obtain ⟨block, _, hblock, hnil, rfl⟩ := List.forall₂_cons_left_iff.mp hspans
      obtain rfl := List.forall₂_nil_left_iff.mp hnil
      obtain ⟨last, hlast⟩ : ∃ last, (first :: opened).getLast? = some last := by
        simp [List.getLast?_cons]
      obtain ⟨node, hnode, hplain⟩ := hopened last hlast
      exact obeys_flowThrough_singleton (hblock.last?_eq.trans hlast) hnode hplain
  | @step statement rest hstatement hlists _ ih =>
    rw [Code.order_step, List.nodup_cons] at hcode
    rw [Code.order_step, findSome?_cons_eq_or, Program.refusal?_of_node hstatement]
    cases hends : statement.node.endsRange with
    | false =>
      rw [Code.pieces_step_of_not_ends hends] at hspans
      rw [Node.refusal?_of_not_ends hends, Option.none_or]
      refine ih hdepth hcode.2 (hplaced.step_of_not_ends hends) (fun last hlast => ?_) hspans
      obtain rfl : statement.id = last := by simpa using hlast
      exact ⟨statement.node, hstatement, hends⟩
    | true =>
      rw [Code.pieces_step_of_ends hends] at hspans
      obtain ⟨block, blocks, hblock, hrow, rfl⟩ := List.forall₂_cons_left_iff.mp hspans
      have hlast : block.last? = some statement.id :=
        hblock.last?_eq.trans (List.getLast?_concat ..)
      have hrest :=
        @ih ref [] budget hdepth blocks after hcode.2 (hplaced.step_of_ends hends) (by simp) hrow
      cases hkind : statement.node with
      | branch | loop => simp [hkind, Node.lists] at hlists
      | call =>
        rw [hkind] at hstatement
        exact obeys_flowThrough_cons hlast hstatement (by simp [Node.refusal?])
          (fun _ => ⟨_, rfl⟩) hrest
      | ret =>
        rw [hkind] at hstatement
        exact (fails_flowThrough_cons hlast hstatement).mpr (Or.inl rfl)
      | _ => simp [hkind, Node.endsRange] at hends
  | @branch statement condition thenBody elseBody rest hstatement hbranch hthen helse _ ihthen
      ihelse ih =>
    have hnode := hbranch ▸ hstatement
    have hthenPlaced := hplaced.inThen hcode
    have helsePlaced := hplaced.inElse hcode
    have hbodies := hplaced.bodies
    rw [Code.order_branch, List.nodup_cons, List.nodup_append', List.nodup_append'] at hcode
    obtain ⟨-, ⟨hthenNodup, helseNodup, -⟩, hrestNodup, -⟩ := hcode
    rw [Code.pieces_branch hplaced.apart] at hspans
    obtain ⟨block, blocks, hblock, hrow, rfl⟩ := List.forall₂_cons_left_iff.mp hspans
    have hlast : block.last? = some statement.id := hblock.last?_eq.trans (List.getLast?_concat ..)
    simp only [Code.depth, Nat.max_le, Nat.succ_le_iff] at hdepth
    obtain ⟨budget, rfl⟩ : ∃ budget', budget = budget' + 1 := ⟨budget - 1, by omega⟩
    have hthenSpans := hpieced.spans_body hframes hthenPlaced (hbodies (by simp [Code.bodies]))
    have helseSpans := hpieced.spans_body hframes helsePlaced (hbodies (by simp [Code.bodies]))
    have hthenObeys := @ihthen _ _ budget (by omega) _ ((blocks.head?.map BasicBlock.id).or after)
      hthenNodup hthenPlaced (by simp) hthenSpans
    have helseObeys := @ihelse _ _ budget (by omega) _ ((blocks.head?.map BasicBlock.id).or after)
      helseNodup helsePlaced (by simp) helseSpans
    have hrestObeys :=
      @ih _ _ (budget + 1) hdepth.2 _ after hrestNodup hplaced.behind (by simp) hrow
    have hplain : program.refusal? statement.id = none := Program.refusal?_of_node hnode
    rw [Code.order_branch, findSome?_cons_eq_or, List.findSome?_append, List.findSome?_append,
      hplain, Option.none_or]
    exact obeys_flowThrough_branch hlast hnode hthenObeys helseObeys hrestObeys
  | @loop statement body rest hstatement hloop _ _ ihbody ih =>
    have hnode := hloop ▸ hstatement
    rw [Code.pieces_loop hplaced.apart] at hspans
    obtain ⟨block, blocks, hblock, -, rfl⟩ := List.forall₂_cons_left_iff.mp hspans
    have hlast : block.last? = some statement.id := hblock.last?_eq.trans (List.getLast?_concat ..)
    have hrefused : program.refusal? statement.id = some (.loop statement.id) :=
      Program.refusal?_of_node hnode
    rw [Code.order_loop, findSome?_cons_eq_or, hrefused, Option.some_or]
    exact (fails_flowThrough_cons hlast hnode).mpr (Or.inl rfl)

/-! ### Connecting and merging -/

/-- The connection of the pieces of a program that is not too deep is refused at the first loop or
return. -/
theorem obeys_linked (hframes : program.Frames code) {limit : Nat} (hdepth : code.depth ≤ limit) :
    Query.Obeys (linked program limit) (code.order.findSome? program.refusal?) := by
  obtain ⟨-, ranges, hranges⟩ | ⟨hlt, -⟩ := hframes.outcome_of_partition limit
  · have hnodup := hframes.nodup_order
    have hpieced := pieced_ofRanges hframes hranges
    have hwhole : Placed code .root [] code :=
      ⟨List.infix_refl _, List.Subset.refl _, by simp [Code.Apart, ListRef.owner?]⟩
    have hobeys : Query.Obeys ((ofRanges ranges).flow program limit)
        (code.order.findSome? program.refusal?) :=
      hpieced.obeys_flowThrough hframes hframes.framed hdepth hnodup hwhole (by simp)
        (hpieced.spans_blocksIn .root)
    cases hrefusal : code.order.findSome? program.refusal? with
    | some reason =>
      rw [hrefusal] at hobeys
      exact Query.fails_bind.mpr (Or.inr ⟨ranges, hranges, Query.fails_bind.mpr (Or.inl hobeys)⟩)
    | none =>
      rw [hrefusal] at hobeys
      obtain ⟨edges, hedges⟩ := hobeys
      obtain ⟨-, hcrosses⟩ := hpieced.crosses_of_flowThrough hnodup hframes hframes.framed _ hnodup
        hwhole (by simp) (blocksIn_subset _ _) (hpieced.spans_blocksIn .root) .none hedges
      obtain ⟨graph, hgraph⟩ := hpieced.located.exists_connectAll fun edge hedge => by
        obtain ⟨source, target, ⟨block, hblock, hid, -⟩, ⟨block', hblock', hid', -⟩, -⟩ :=
          (hcrosses edge).mp hedge
        exact ⟨mem_ids_iff.mpr ⟨block, hblock, hid⟩, mem_ids_iff.mpr ⟨block', hblock', hid'⟩⟩
      refine ⟨graph,
        Query.answers_bind.mpr ⟨ranges, hranges, Query.answers_bind.mpr ⟨edges, hedges, ?_⟩⟩⟩
      exact Query.answers_foldlM_liftCrash.mpr hgraph
  · omega

namespace Depicts

variable (hdepicts : graph.Depicts program code) (hframes : program.Frames code)
  (hloopless : code.Loopless)

include hdepicts hframes hloopless

theorem exists_absorber? {block : BasicBlock} (hblock : block ∈ graph.blocks) :
    ∃ answer, graph.absorber? program block = .ok answer := by
  rw [absorber?]
  split
  · next only hpredecessors =>
    obtain ⟨previous, hprevious, hid⟩ :=
      mem_ids_iff.mp ((hdepicts.live block hblock).1 (hpredecessors ▸ List.mem_singleton_self only))
    have hread := hdepicts.located.block_eq_ok_iff.mpr ⟨hprevious, hid⟩
    by_cases hguard : previous.id ≠ block.id ∧ previous.successors = [block.id]
    · have hstraight : graph.Straight previous block :=
        ⟨hprevious, hblock, hguard.2, hid ▸ hpredecessors⟩
      refine ⟨some previous.id, bind_eq_ok_iff.mpr ⟨previous, hread, ?_⟩⟩
      rw [if_pos hguard, hdepicts.follows_eq hframes hloopless hstraight]
      rfl
    · exact ⟨none, bind_eq_ok_iff.mpr ⟨previous, hread, if_neg hguard⟩⟩
  · exact ⟨none, rfl⟩

theorem exists_mergeCandidate? {blocks : List BasicBlock} (hblocks : blocks ⊆ graph.blocks) :
    ∃ answer, graph.mergeCandidate? program blocks = .ok answer := by
  induction blocks with
  | nil => exact ⟨none, rfl⟩
  | cons block blocks ih =>
    obtain ⟨hblock, hblocks⟩ := List.cons_subset.mp hblocks
    obtain ⟨absorber, habsorber⟩ := hdepicts.exists_absorber? hframes hloopless hblock
    cases absorber with
    | some absorber => exact ⟨_, bind_eq_ok_iff.mpr ⟨_, habsorber, rfl⟩⟩
    | none =>
      obtain ⟨answer, hanswer⟩ := ih hblocks
      exact ⟨answer, bind_eq_ok_iff.mpr ⟨_, habsorber, hanswer⟩⟩

omit hloopless in
theorem exists_absorb {source target : BasicBlock} (hstraight : graph.Straight source target) :
    ∃ graph', graph.absorb source.id target = .ok graph' := by
  have hlt := hdepicts.lt_of_straight hframes hstraight
  refine hdepicts.located.exists_absorb (mem_ids_iff.mpr ⟨source, hstraight.source_mem, rfl⟩)
    (fun hsame => Nat.ne_of_lt hlt (congrArg BlockId.index hsame))
    (hdepicts.live target hstraight.target_mem).2 fun hself => ?_
  have hjoins :=
    (hdepicts.successors target hstraight.target_mem target hstraight.target_mem).mp hself
  exact Nat.lt_irrefl _ (hdepicts.lt_of_joins hframes.nodup_order hstraight.target_mem
    hstraight.target_mem hjoins)

end Depicts

/-- Merging always comes to an end. -/
theorem Depicts.exists_mergeWithin (hdepicts : graph.Depicts program code)
    (hframes : program.Frames code) (hloopless : code.Loopless) (merges : Nat) :
    ∃ merged graph', mergeWithin program merges graph = .ok (merged, graph') := by
  induction merges generalizing graph with
  | zero => exact ⟨0, graph, rfl⟩
  | succ merges ih =>
    obtain ⟨candidate, hcandidate⟩ :=
      hdepicts.exists_mergeCandidate? hframes hloopless (List.Subset.refl _)
    obtain ⟨hsome, -⟩ :=
      hdepicts.mergeCandidate?_spec hframes hloopless (List.Subset.refl _) hcandidate
    rw [mergeWithin]
    cases candidate with
    | none => exact ⟨0, graph, bind_eq_ok_iff.mpr ⟨_, hcandidate, rfl⟩⟩
    | some candidate =>
      obtain ⟨absorber, target⟩ := candidate
      obtain ⟨source, hstraight, rfl⟩ := hsome _ rfl
      obtain ⟨between, habsorb⟩ := hdepicts.exists_absorb hframes hstraight
      obtain ⟨merged, graph', hmerge⟩ := ih (hdepicts.absorb hframes hloopless hstraight habsorb)
      exact ⟨merged + 1, graph', bind_eq_ok_iff.mpr ⟨_, hcandidate,
        bind_eq_ok_iff.mpr ⟨between, habsorb, bind_eq_ok_iff.mpr ⟨_, hmerge, rfl⟩⟩⟩⟩

/-! ### Discards -/

theorem isDiscard_eq {statement : NodeId} {node : Node}
    (hnode : program.node statement = .ok node) :
    isDiscard program statement = .ok (program.discards statement) := by
  rw [isDiscard, Program.discards, hnode]
  cases node <;> rfl

private theorem findM?_eq_ok {α : Type} {test : α → Except Crash Bool} {holds : α → Bool}
    {items : List α} (htest : ∀ item ∈ items, test item = .ok (holds item)) :
    items.findM? test = .ok (items.find? holds) := by
  induction items with
  | nil => rfl
  | cons first items ih =>
    obtain ⟨hfirst, hitems⟩ := List.forall_mem_cons.mp htest
    rw [List.findM?, hfirst, List.find?_cons]
    cases holds first with
    | true => rfl
    | false => exact ih hitems

/-- The first discard of the blocks is the first one of the text. -/
theorem Depicts.firstDiscard?_eq (hdepicts : graph.Depicts program code)
    (hframes : program.Frames code) :
    firstDiscard? program graph.blocks = .ok (code.order.find? program.discards) := by
  have hrows {blocks : List BasicBlock} (hblocks : blocks ⊆ graph.blocks) :
      firstDiscard? program blocks =
        .ok ((blocks.flatMap (BasicBlock.row program)).find? program.discards) := by
    induction blocks with
    | nil => rfl
    | cons block blocks ih =>
      obtain ⟨hblock, hblocks⟩ := List.cons_subset.mp hblocks
      have hfound := @findM?_eq_ok _ (isDiscard program) program.discards (block.row program)
        fun statement hstatement => by
          obtain ⟨tree, htree, rfl⟩ := List.mem_map.mp (hdepicts.mem_order hblock hstatement)
          exact isDiscard_eq (hframes.framed.node_eq tree htree)
      rw [firstDiscard?, (hdepicts.holds block hblock).statements hframes, List.flatMap_cons,
        List.find?_append]
      change ((block.row program).findM? (isDiscard program) >>= _) = _
      rw [hfound]
      cases (block.row program).find? program.discards with
      | some found => rfl
      | none => exact ih hblocks
  rw [hrows (List.Subset.refl _), hdepicts.order]

/-- A graph of several blocks is refused at the first discard. -/
theorem Depicts.obeys_rejectDiscard (hdepicts : graph.Depicts program code)
    (hframes : program.Frames code) :
    Query.Obeys (graph.rejectDiscard program) (if 1 < graph.size then
      (code.order.find? program.discards).map Unsupported.discardAcrossBlocks else none) := by
  rw [rejectDiscard]
  split
  · have hfirst := Query.answers_liftCrash (ε := PassError).mpr (hdepicts.firstDiscard?_eq hframes)
    cases hfound : code.order.find? program.discards with
    | some found =>
      exact Query.fails_bind.mpr (Or.inr ⟨_, hfound ▸ hfirst, Query.fails_throw.mpr rfl⟩)
    | none => exact ⟨(), Query.answers_bind.mpr ⟨_, hfound ▸ hfirst, Query.answers_pure.mpr rfl⟩⟩
  · exact ⟨(), Query.answers_pure.mpr rfl⟩

/-! ### The whole construction -/

variable {config : Config}

theorem fails_build_of_linked {failure : PassError}
    (hlinked : Query.Fails (linked program config.maxDepth) failure) :
    Query.Fails (build program config) failure :=
  Query.fails_bind.mpr (Or.inl hlinked)

/-- The connected graph of a code without loops and returns can be merged, and it is refused after
that only for a discard. -/
theorem exists_merged_of_frames (hframes : program.Frames code)
    (hdepth : code.depth ≤ config.maxDepth) (hnone : code.order.findSome? program.refusal? = none) :
    ∃ unmerged merges graph, Query.Answers (linked program config.maxDepth) unmerged ∧
      unmerged.mergeChains program = .ok (merges, graph) ∧
      ((∃ statement, 1 < graph.size ∧ code.order.find? program.discards = some statement ∧
          Query.Fails (build program config) (.unsupported (.discardAcrossBlocks statement))) ∨
        (1 < graph.size → code.order.find? program.discards = none) ∧
          Query.Answers (build program config) graph) := by
  have hobeys := obeys_linked hframes hdepth
  rw [hnone] at hobeys
  obtain ⟨unmerged, hlinked⟩ := hobeys
  obtain ⟨hunmerged, hloopless, -⟩ := depicts_of_linked hframes hlinked
  obtain ⟨merges, graph, hmerge⟩ := hunmerged.exists_mergeWithin hframes hloopless unmerged.size
  have hdepicts := hunmerged.merged hframes hloopless
    (hunmerged.mergeWithin_spec hframes hloopless hmerge).1
  have hreject := hdepicts.obeys_rejectDiscard hframes
  have hmerged :
      Query.Answers (liftM (unmerged.mergeChains program) : Query PassError _) (merges, graph) :=
    Query.answers_liftCrash.mpr hmerge
  refine ⟨unmerged, merges, graph, hlinked, hmerge, ?_⟩
  cases hverdict : if 1 < graph.size then
      (code.order.find? program.discards).map Unsupported.discardAcrossBlocks else none with
  | some reason =>
    rw [hverdict] at hreject
    obtain ⟨hsize, statement, hfound, rfl⟩ : 1 < graph.size ∧ ∃ statement,
        code.order.find? program.discards = some statement ∧
        .discardAcrossBlocks statement = reason := by
      split at hverdict
      · next hsize => exact ⟨hsize, by simpa using hverdict⟩
      · cases hverdict
    exact Or.inl ⟨statement, hsize, hfound, Query.fails_bind.mpr (Or.inr ⟨_, hlinked,
      Query.fails_bind.mpr (Or.inr ⟨_, hmerged, Query.fails_bind.mpr (Or.inl hreject)⟩)⟩)⟩
  | none =>
    rw [hverdict] at hreject
    obtain ⟨_, hreject⟩ := hreject
    refine Or.inr ⟨fun hsize => ?_, Query.answers_bind.mpr ⟨_, hlinked, Query.answers_bind.mpr ⟨_,
          hmerged, Query.answers_bind.mpr ⟨_, hreject, Query.answers_pure.mpr rfl⟩⟩⟩⟩
    rw [if_pos hsize] at hverdict
    simpa using hverdict

/-- What the construction of a graph ends with. It fails with the partition when that fails; else at
the first loop or return in the order of the text, if there is one; else at the first discard, if
there is one and more than one block is left after merging; and else it returns the merged graph. -/
theorem outcome_of_build (hcheck : program.check = .ok ()) (config : Config) :
    ∃ order, program.preOrder = .ok order ∧
      (Query.Fails (program.partition config.maxDepth) (.tooDeep config.maxDepth) ∧
          Query.Fails (build program config) (.tooDeep config.maxDepth) ∨
        (∃ ranges, Query.Answers (program.partition config.maxDepth) ranges) ∧
          ((∃ reason, order.findSome? program.refusal? = some reason ∧
              Query.Fails (build program config) (.unsupported reason)) ∨
            order.findSome? program.refusal? = none ∧
              ∃ unmerged merges graph, Query.Answers (linked program config.maxDepth) unmerged ∧
                unmerged.mergeChains program = .ok (merges, graph) ∧
                ((∃ statement, 1 < graph.size ∧ order.find? program.discards = some statement ∧
                    Query.Fails (build program config)
                      (.unsupported (.discardAcrossBlocks statement))) ∨
                  (1 < graph.size → order.find? program.discards = none) ∧
                    Query.Answers (build program config) graph))) := by
  obtain ⟨code, houtlines⟩ := program.exists_outlines_of_check hcheck
  have hframes := houtlines.frames
  refine ⟨code.order, hframes.preOrder_eq, ?_⟩
  obtain ⟨hdepth, hranges⟩ | ⟨-, hfails⟩ := hframes.outcome_of_partition config.maxDepth
  · refine Or.inr ⟨hranges, ?_⟩
    cases hrefusal : code.order.findSome? program.refusal? with
    | some reason =>
      have hobeys := obeys_linked hframes hdepth
      rw [hrefusal] at hobeys
      exact Or.inl ⟨reason, rfl, fails_build_of_linked hobeys⟩
    | none => exact Or.inr ⟨rfl, exists_merged_of_frames hframes hdepth hrefusal⟩
  · exact Or.inl ⟨hfails, fails_build_of_linked (Query.fails_bind.mpr (Or.inl hfails))⟩

/-- A return in a body, and behind it a discard and a loop. -/
def guardedReturn : Program where
  nodes := #[.variable ⟨0⟩, .ret none, .branch ⟨0⟩ [⟨1⟩] [], .discard none, .loop []]
  vars := #[⟨"c", .bool, .input⟩]
  body := [⟨2⟩, ⟨3⟩, ⟨4⟩]

/-- The return is named, and not the loop behind it in the text. -/
theorem outcome_of_build_guardedReturn : guardedReturn.check = .ok () ∧
    guardedReturn.preOrder = .ok [⟨2⟩, ⟨1⟩, ⟨3⟩, ⟨4⟩] ∧
    Query.Fails (build guardedReturn {}) (.unsupported (.ret ⟨1⟩)) := by
  have hcheck : guardedReturn.check = .ok () := rfl
  have horder : guardedReturn.preOrder = .ok [⟨2⟩, ⟨1⟩, ⟨3⟩, ⟨4⟩] := rfl
  obtain ⟨order, hread, houtcome⟩ := outcome_of_build hcheck {}
  obtain rfl := Except.ok.inj (horder.symm.trans hread)
  refine ⟨hcheck, horder, ?_⟩
  obtain ⟨hfails, -⟩ | ⟨-, ⟨reason, hreason, hfails⟩ | ⟨hnone, -⟩⟩ := houtcome
  · have hranges :
        ∃ ranges, Query.Answers (guardedReturn.partition ({} : Config).maxDepth) ranges := ⟨_, rfl⟩
    exact absurd hfails hranges.choose_spec.not_fails
  · obtain rfl : Unsupported.ret ⟨1⟩ = reason := Option.some.inj hreason
    exact hfails
  · cases hnone

end Graph

end ShaderIR
