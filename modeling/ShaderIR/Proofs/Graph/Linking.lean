import ShaderIR.Graph.Build
import ShaderIR.Proofs.Graph.Layout

/-!
The connected graph of a program. Before any merge there is one block for each piece of the code;
the edges go from block to block wherever control can go from the last statement of a piece to the
first one of another piece (`Graph.Pieced.crosses_of_flowThrough`), and the graph depicts the code
(`Graph.depicts_of_linked`).
-/

set_option autoImplicit false

namespace ShaderIR

variable {program : Program} {code whole : Code} {ref : ListRef} {opened : List NodeId}

/-! ### Pieces of one list -/

namespace Code

/-- The pieces of a list, without those of the bodies inside it. -/
def pieces (ref : ListRef) (opened : List NodeId) (code : Code) : List Cut :=
  (code.cuts ref opened).filter fun cut => cut.list = ref

/-- A list is none of the bodies inside it. -/
def Apart (ref : ListRef) (code : Code) : Prop :=
  ∀ owner ∈ code.order, ref.owner? ≠ some owner

/-- No statement of the code is a return. -/
def Returnless (code : Code) : Prop :=
  ∀ statement ∈ code.statements, ∀ value, statement.node ≠ .ret value

theorem pieces_body {body : Code} {inner : ListRef}
    {owner : NodeId} (howner : inner.owner? = some owner)
    (hother : ref.owner? ≠ some owner) (hbody : body.Apart ref) :
    (body.cuts inner []).filter (fun cut => cut.list = ref) = [] := by
  rw [List.filter_eq_nil_iff]
  intro cut hcut hlist
  obtain rfl : cut.list = ref := by simpa using hlist
  rcases list_of_mem_cuts hcut with hsame | ⟨owner', howner', hsame⟩
  · exact hother (hsame ▸ howner)
  · exact hbody owner' howner' hsame

theorem pieces_step_of_ends {statement : Tree} {rest : Code}
    (hends : statement.node.endsRange = true) : (step statement rest).pieces ref opened =
      ⟨ref, opened ++ [statement.id]⟩ :: rest.pieces ref [] := by
  simp [pieces, cuts, hends]

theorem pieces_step_of_not_ends {statement : Tree} {rest : Code}
    (hends : statement.node.endsRange = false) :
    (step statement rest).pieces ref opened = rest.pieces ref (opened ++ [statement.id]) := by
  simp [pieces, cuts, hends]

theorem pieces_branch {statement : Tree} {thenBody elseBody rest : Code}
    (hapart : (branch statement thenBody elseBody rest).Apart ref) :
    (branch statement thenBody elseBody rest).pieces ref opened =
      ⟨ref, opened ++ [statement.id]⟩ :: rest.pieces ref [] := by
  have hthen := @pieces_body ref thenBody (.thenBody statement.id) statement.id rfl
    (hapart _ (by simp)) fun owner howner => hapart owner (by simp [howner])
  have helse := @pieces_body ref elseBody (.elseBody statement.id) statement.id rfl
    (hapart _ (by simp)) fun owner howner => hapart owner (by simp [howner])
  simp only [pieces, cuts, List.filter_cons, List.filter_append, hthen, helse, decide_true, if_true,
    List.nil_append]

theorem pieces_loop {statement : Tree} {body rest : Code}
    (hapart : (loop statement body rest).Apart ref) :
    (loop statement body rest).pieces ref opened =
      ⟨ref, opened ++ [statement.id]⟩ :: rest.pieces ref [] := by
  have hbody := @pieces_body ref body (.loopBody statement.id) statement.id rfl
    (hapart _ (by simp)) fun owner howner => hapart owner (by simp [howner])
  simp only [pieces, cuts, List.filter_cons, List.filter_append, hbody, decide_true, if_true,
    List.nil_append]

/-- The first piece goes on from what has been opened. -/
theorem exists_first_cut (hne : opened ++ code.heads ≠ []) : ∃ later cuts,
    code.cuts ref opened = ⟨ref, opened ++ later⟩ :: cuts ∧ later.head? = code.heads.head? := by
  induction code generalizing opened with
  | nil =>
    cases opened with
    | nil => exact absurd rfl hne
    | cons first opened => exact ⟨[], [], by simp [cuts], rfl⟩
  | step statement rest ih =>
    rw [cuts]
    split
    · exact ⟨[statement.id], _, rfl, rfl⟩
    · obtain ⟨later, cuts, hcuts, -⟩ := @ih (opened ++ [statement.id]) (by simp)
      exact ⟨statement.id :: later,
        cuts, by rw [hcuts, List.append_assoc, List.singleton_append], rfl⟩
  | branch statement | loop statement =>
    rw [cuts]
    exact ⟨[statement.id], _, rfl, rfl⟩

/-- The first piece begins where the list does. -/
theorem head?_pieces : (code.pieces ref []).head?.bind (fun cut => cut.statements.head?) =
    code.heads.head? := by
  by_cases hne : code.heads = []
  · cases code with
    | nil => rfl
    | step | branch | loop => cases hne
  · obtain ⟨later, cuts, hcuts, hlater⟩ := @exists_first_cut _ ref [] hne
    rw [pieces, hcuts, ← hlater]
    simp

end Code

/-! ### Blocks for pieces -/

/-- A block is made of the range of a cut alone. -/
def BasicBlock.Spans (cut : Cut) (block : BasicBlock) : Prop :=
  ∃ range, block.ranges = [range] ∧ cut.Spanned range

namespace BasicBlock.Spans

variable {cut : Cut} {block : BasicBlock}

theorem first?_eq (hspans : block.Spans cut) : block.first? = cut.statements.head? := by
  obtain ⟨range, hranges, hspanned⟩ := hspans
  rw [first?, entry?, hranges, hspanned.first]
  rfl

theorem last?_eq (hspans : block.Spans cut) : block.last? = cut.statements.getLast? := by
  obtain ⟨range, hranges, hspanned⟩ := hspans
  rw [last?, exit?, hranges, hspanned.last]
  rfl

end BasicBlock.Spans

namespace Graph

variable {graph : Graph}

/-- The graph has one block for each piece of the code. -/
structure Pieced (graph : Graph) (code : Code) : Prop where
  located : graph.Located
  spans :
    List.Forall₂ (fun cut block => BasicBlock.Spans cut block) (code.cuts .root []) graph.blocks

/-- A block begins at a statement. -/
def Begins (graph : Graph) (id : BlockId) (statement : NodeId) : Prop :=
  ∃ block ∈ graph.blocks, block.id = id ∧ block.first? = some statement

/-- A block ends at a statement. -/
def Ends (graph : Graph) (id : BlockId) (statement : NodeId) : Prop :=
  ∃ block ∈ graph.blocks, block.id = id ∧ block.last? = some statement

/-- A part of a code with the place of its pieces among those of the whole. -/
structure Placed (whole : Code) (ref : ListRef) (opened : List NodeId) (part : Code) : Prop where
  cuts : part.cuts ref opened <:+: whole.cuts .root []
  bodies : part.bodies ⊆ whole.bodies
  apart : part.Apart ref

theorem Placed.step_of_ends {statement : Tree} {rest : Code}
    (hplaced : Placed whole ref opened (.step statement rest))
    (hends : statement.node.endsRange = true) : Placed whole ref [] rest where
  cuts := by
    refine List.IsInfix.trans ?_ hplaced.cuts
    rw [Code.cuts, if_pos hends]
    exact (List.suffix_cons _ _).isInfix
  bodies := hplaced.bodies
  apart owner howner := hplaced.apart owner (by simp [howner])

theorem Placed.step_of_not_ends {statement : Tree} {rest : Code}
    (hplaced : Placed whole ref opened (.step statement rest))
    (hends : statement.node.endsRange = false) :
    Placed whole ref (opened ++ [statement.id]) rest where
  cuts := by
    have hcuts := hplaced.cuts
    rwa [Code.cuts, if_neg (by simp [hends])] at hcuts
  bodies := hplaced.bodies
  apart owner howner := hplaced.apart owner (by simp [howner])

section Branch

variable {statement : Tree} {thenBody elseBody rest : Code}
  (hplaced : Placed whole ref opened (.branch statement thenBody elseBody rest))
  (hnodup : (Code.branch statement thenBody elseBody rest).order.Nodup)

include hplaced

theorem Placed.behind : Placed whole ref [] rest where
  cuts := by
    refine List.IsInfix.trans ?_ hplaced.cuts
    rw [Code.cuts]
    exact ((List.suffix_append _ _).trans (List.suffix_cons _ _)).isInfix
  bodies _ hentry := hplaced.bodies (by simp [Code.bodies, hentry])
  apart owner howner := hplaced.apart owner (by simp [howner])

include hnodup

theorem Placed.inThen : Placed whole (.thenBody statement.id) [] thenBody where
  cuts := by
    refine List.IsInfix.trans ?_ hplaced.cuts
    rw [Code.cuts, List.append_assoc]
    exact ⟨[_], _, rfl⟩
  bodies _ hentry := hplaced.bodies (by simp [Code.bodies, hentry])
  apart owner howner hsame := by
    obtain rfl : statement.id = owner := Option.some.inj hsame
    exact (List.nodup_cons.mp (Code.order_branch .. ▸ hnodup)).1 (by simp [howner])

theorem Placed.inElse : Placed whole (.elseBody statement.id) [] elseBody where
  cuts := by
    refine List.IsInfix.trans ?_ hplaced.cuts
    rw [Code.cuts]
    exact ⟨⟨ref, opened ++ [statement.id]⟩ :: thenBody.cuts (.thenBody statement.id) [],
      rest.cuts ref [], by simp⟩
  bodies _ hentry := hplaced.bodies (by simp [Code.bodies, hentry])
  apart owner howner hsame := by
    obtain rfl : statement.id = owner := Option.some.inj hsame
    exact (List.nodup_cons.mp (Code.order_branch .. ▸ hnodup)).1 (by simp [howner])

end Branch

/-- All pieces of a body stand in its place. -/
theorem Placed.filter_cuts (hplaced : Placed whole ref [] code) (hframes : program.Frames whole)
    (hlist : (ref, code.heads) ∈ whole.lists .root) :
    (whole.cuts .root []).filter (fun cut => cut.list = ref) = code.pieces ref [] := by
  obtain ⟨before, after, hcuts⟩ := hplaced.cuts
  have hnodup := hframes.nodup_order
  have hflat := whole.flatMap_cuts .root []
  have hown := code.flatMap_cuts ref []
  rw [List.nil_append] at hflat hown
  rw [← hcuts, List.flatMap_append, List.flatMap_append, hown] at hflat
  have hinside {cut : Cut} (hcut : cut ∈ whole.cuts .root []) (hsame : cut.list = ref) :
      ∃ statement ∈ cut.statements, statement ∈ code.order := by
    obtain ⟨earlier, later, hmem⟩ := @Code.exists_list_of_mem_cuts _ _ _ _ [] hcut
    have hheads : earlier ++ cut.statements ++ later = code.heads := by
      have hread : program.list ref = .ok (earlier ++ cut.statements ++ later) :=
        hsame ▸ hframes.list_of_mem_lists hmem
      have hread' : program.list ref = .ok code.heads := hframes.list_of_mem_lists hlist
      exact Except.ok.inj (hread.symm.trans hread')
    obtain ⟨statement, hstatement⟩ := List.exists_mem_of_ne_nil _ (Code.ne_nil_of_mem_cuts hcut)
    exact ⟨statement, hstatement, code.heads_subset_order (hheads ▸ by simp [hstatement])⟩
  have hnone (cuts : List Cut) (hother : ∀ cut ∈ cuts, cut.list ≠ ref) :
      cuts.filter (fun cut => cut.list = ref) = [] :=
    List.filter_eq_nil_iff.mpr fun cut hcut => by simpa using hother cut hcut
  rw [← hflat, List.nodup_append', List.nodup_append'] at hnodup
  obtain ⟨⟨-, -, hbefore⟩, -, hafter⟩ := hnodup
  rw [← hcuts, List.filter_append, List.filter_append, hnone before fun cut hcut hsame => ?_,
    hnone after fun cut hcut hsame => ?_, List.nil_append, List.append_nil, Code.pieces]
  · obtain ⟨statement, hstatement, hmem⟩ := hinside (hcuts ▸ by simp [hcut]) hsame
    exact hafter (List.mem_append_right _ hmem) (List.mem_flatMap.mpr ⟨cut, hcut, hstatement⟩)
  · obtain ⟨statement, hstatement, hmem⟩ := hinside (hcuts ▸ by simp [hcut]) hsame
    exact hbefore (List.mem_flatMap.mpr ⟨cut, hcut, hstatement⟩) hmem

namespace Pieced

variable (hpieced : graph.Pieced whole) (hframes : program.Frames whole)

include hpieced

theorem exists_cut {block : BasicBlock} (hblock : block ∈ graph.blocks) :
    ∃ cut, (cut, block) ∈ (whole.cuts .root []).zip graph.blocks ∧ block.Spans cut := by
  obtain ⟨hlength, hspans⟩ := List.forall₂_iff_zip.mp hpieced.spans
  rw [← List.map_snd_zip hlength.ge] at hblock
  obtain ⟨⟨cut, block⟩, hpair, rfl⟩ := List.mem_map.mp hblock
  exact ⟨cut, hpair, hspans hpair⟩

theorem exists_block {cut : Cut} (hcut : cut ∈ whole.cuts .root []) :
    ∃ block, (cut, block) ∈ (whole.cuts .root []).zip graph.blocks ∧ block.Spans cut := by
  obtain ⟨hlength, hspans⟩ := List.forall₂_iff_zip.mp hpieced.spans
  rw [← List.map_fst_zip hlength.le] at hcut
  obtain ⟨⟨cut, block⟩, hpair, rfl⟩ := List.mem_map.mp hcut
  exact ⟨block, hpair, hspans hpair⟩

/-- Pieces that have a statement in common are the same, and so are their blocks. -/
theorem eq_of_mem {cut cut' : Cut} {block block' : BasicBlock} (hnodup : whole.order.Nodup)
    (hpair : (cut, block) ∈ (whole.cuts .root []).zip graph.blocks)
    (hpair' : (cut', block') ∈ (whole.cuts .root []).zip graph.blocks) {statement : NodeId}
    (hmem : statement ∈ cut.statements) (hmem' : statement ∈ cut'.statements) :
    (cut, block) = (cut', block') := by
  have hflat := whole.flatMap_cuts .root []
  rw [List.nil_append] at hflat
  have hdisjoint := (List.nodup_flatMap.mp (hflat ▸ hnodup)).2
  rw [← List.map_fst_zip (List.forall₂_iff_zip.mp hpieced.spans).1.le, List.pairwise_map]
    at hdisjoint
  have : Std.Symm fun first second : Cut × BasicBlock =>
      Function.onFun List.Disjoint Cut.statements first.1 second.1 := ⟨fun _ _ h => h.symm⟩
  by_contra hne
  exact hdisjoint.forall hpair hpair' hne hmem hmem'

theorem spans_blocksIn (ref : ListRef) : List.Forall₂ (fun cut block => BasicBlock.Spans cut block)
    ((whole.cuts .root []).filter fun cut => cut.list = ref) (graph.blocksIn ref) := by
  refine List.rel_filter (fun cut block hspans => ?_) hpieced.spans
  obtain ⟨range, hranges, hspanned⟩ := hspans
  simp [BasicBlock.entry?, hranges, hspanned.list]

theorem eq_of_begins (hnodup : whole.order.Nodup) {id id' : BlockId} {statement : NodeId}
    (hbegins : graph.Begins id statement) (hbegins' : graph.Begins id' statement) : id = id' := by
  obtain ⟨block, hblock, rfl, hfirst⟩ := hbegins
  obtain ⟨block', hblock', rfl, hfirst'⟩ := hbegins'
  obtain ⟨cut, hpair, hspans⟩ := hpieced.exists_cut hblock
  obtain ⟨cut', hpair', hspans'⟩ := hpieced.exists_cut hblock'
  obtain ⟨-, rfl⟩ := Prod.mk.inj (hpieced.eq_of_mem hnodup hpair hpair'
    (List.mem_of_head? (hspans.first?_eq ▸ hfirst))
      (List.mem_of_head? (hspans'.first?_eq ▸ hfirst')))
  rfl

theorem eq_of_ends (hnodup : whole.order.Nodup) {id id' : BlockId} {statement : NodeId}
    (hends : graph.Ends id statement) (hends' : graph.Ends id' statement) : id = id' := by
  obtain ⟨block, hblock, rfl, hlast⟩ := hends
  obtain ⟨block', hblock', rfl, hlast'⟩ := hends'
  obtain ⟨cut, hpair, hspans⟩ := hpieced.exists_cut hblock
  obtain ⟨cut', hpair', hspans'⟩ := hpieced.exists_cut hblock'
  obtain ⟨-, rfl⟩ := Prod.mk.inj (hpieced.eq_of_mem hnodup hpair hpair'
    (List.mem_of_getLast? (hspans.last?_eq ▸ hlast))
      (List.mem_of_getLast? (hspans'.last?_eq ▸ hlast')))
  rfl

/-- No block begins inside a piece. -/
theorem not_begins_of_opened (hnodup : whole.order.Nodup) (hplaced : Placed whole ref opened code)
    (hopened : opened ≠ []) {statement : NodeId} (hhead : code.heads.head? = some statement)
    {id : BlockId} : ¬ graph.Begins id statement := by
  rintro ⟨block, hblock, -, hfirst⟩
  obtain ⟨later, cuts, hcuts, hlater⟩ := @Code.exists_first_cut code ref opened (by simp [hopened])
  obtain ⟨later, rfl⟩ := List.head?_eq_some_iff.mp (hlater.trans hhead)
  have hcut : (⟨ref, opened ++ statement :: later⟩ : Cut) ∈ whole.cuts .root [] :=
    hplaced.cuts.subset (hcuts ▸ List.mem_cons_self)
  obtain ⟨block', hpair', -⟩ := hpieced.exists_block hcut
  obtain ⟨cut, hpair, hspans⟩ := hpieced.exists_cut hblock
  obtain ⟨rfl, -⟩ := Prod.mk.inj (hpieced.eq_of_mem hnodup hpair hpair' (List.mem_of_head?
      (hspans.first?_eq ▸ hfirst)) (by simp : statement ∈ opened ++ statement :: later))
  have hpiece : (opened ++ statement :: later).Nodup := by
    have hflat := whole.flatMap_cuts .root []
    rw [List.nil_append] at hflat
    rw [← hflat] at hnodup
    have hpieces := (List.nodup_flatMap.mp hnodup).1
    exact hpieces _ hcut
  obtain ⟨first, opened, rfl⟩ := List.exists_cons_of_ne_nil hopened
  obtain rfl : first = statement := by simpa [hfirst] using hspans.first?_eq.symm
  exact (List.nodup_cons.mp hpiece).1 (by simp)

end Pieced

/-! ### Edges between pieces -/

/-- An edge stands for a step of control in a part of a code, or for one from the end of what has
been opened to the beginning of the part. -/
def Crosses (graph : Graph) (part : Code) (opened : List NodeId) (after : Option NodeId)
    (edge : Edge) : Prop :=
  ∃ source target, graph.Ends edge.source source ∧ graph.Begins edge.target target ∧
    (part.Leads source target after ∨
      (opened.getLast? = some source ∧ part.entry after = some target))

theorem crosses_nil {after : Option NodeId} {edge : Edge} :
    graph.Crosses code [] after edge ↔ ∃ source target, graph.Ends edge.source source ∧
      graph.Begins edge.target target ∧ code.Leads source target after := by
  simp [Crosses]

theorem rel_or {α β : Type} {relation : α → β → Prop} {first : Option α} {first' : Option β}
    {second : Option α} {second' : Option β} (hfirst : Option.Rel relation first first')
    (hsecond : Option.Rel relation second second') :
    Option.Rel relation (first.or second) (first'.or second') := by
  cases hfirst with
  | some hfirst => exact .some hfirst
  | none => exact hsecond

/-- A row of blocks for the pieces of a list begins where the list does. -/
theorem begins_head {blocks : List BasicBlock} (hblocks : blocks ⊆ graph.blocks)
    (hspans : List.Forall₂ (fun cut block => BasicBlock.Spans cut block)
      (code.pieces ref []) blocks) :
    Option.Rel graph.Begins (blocks.head?.map BasicBlock.id) code.heads.head? := by
  have hpieces : ∀ cut ∈ code.pieces ref [], cut.statements ≠ [] := fun cut hcut =>
    Code.ne_nil_of_mem_cuts (List.mem_of_mem_filter hcut)
  rw [← @Code.head?_pieces code ref]
  generalize code.pieces ref [] = cuts at hspans hpieces
  cases hspans with
  | nil => exact .none
  | @cons cut block cuts blocks hfirst hrest =>
    obtain ⟨first, later, hcut⟩ := List.exists_cons_of_ne_nil (hpieces cut List.mem_cons_self)
    have hhead : cut.statements.head? = some first := by rw [hcut]; rfl
    rw [List.head?_cons, List.head?_cons, Option.map_some, Option.bind_some, hhead]
    exact .some ⟨block, hblocks List.mem_cons_self, rfl, hfirst.first?_eq.trans hhead⟩

/-- The edges out of the blocks of a part of a list, and of the bodies inside it, are the steps of
control there, and there are no loops and no returns in it. -/
def CrossesAll (graph : Graph) (program : Program) (whole : Code) (limit : Nat)
    (code : Code) : Prop :=
  ∀ {ref : ListRef} {opened : List NodeId} {budget : Nat} {blocks : List BasicBlock}
    {edges : List Edge} {after : Option NodeId} {afterBlock : Option BlockId},
    code.order.Nodup → Placed whole ref opened code →
    (∀ last ∈ opened.getLast?, ∃ node, program.node last = .ok node ∧ node.endsRange = false) →
    blocks ⊆ graph.blocks →
    List.Forall₂ (fun cut block => BasicBlock.Spans cut block) (code.pieces ref opened) blocks →
    Option.Rel graph.Begins afterBlock after →
    Query.Answers (graph.flowThrough program afterBlock
      (graph.flowWithin program limit budget) blocks) edges →
    (code.Loopless ∧ code.Returnless) ∧ ∀ edge, edge ∈ edges ↔ graph.Crosses code opened after edge

section Flow

variable {after : Option BlockId} {nested : ListRef → Option BlockId → Query PassError (List Edge)}
  {block : BasicBlock} {rest : List BasicBlock} {edges : List Edge} {last : NodeId}

/-- The edges out of a block and out of the bodies of its last statement, which has a given node. -/
def OwnEdges (graph : Graph) (nested : ListRef → Option BlockId → Query PassError (List Edge))
    (after next : Option BlockId) (block : BasicBlock) (last : NodeId) (own : List Edge) :
    Node → Prop
  | .branch .. => ∃ thenEdges elseEdges, Query.Answers (nested (.thenBody last) next) thenEdges ∧
    Query.Answers (nested (.elseBody last) next) elseEdges ∧
      own = (branchTargets ((graph.blocksIn (.thenBody last)).head?.map BasicBlock.id)
        ((graph.blocksIn (.elseBody last)).head?.map BasicBlock.id) next).map (Edge.mk block.id) ++
          thenEdges ++ elseEdges
  | .call .. => own = next.toList.map (Edge.mk block.id)
  | .loop .. | .ret .. => False
  | _ => own = after.toList.map (Edge.mk block.id)

/-- The edges out of a row of blocks are those of the first one and those of the others. -/
theorem exists_answers_of_flowThrough (hlast : block.last? = some last)
    (hedges : Query.Answers (graph.flowThrough program after nested (block :: rest)) edges)
    {node : Node} (hnode : program.node last = .ok node) :
    ∃ own later, edges = own ++ later ∧
      Query.Answers (graph.flowThrough program after nested rest) later ∧
      graph.OwnEdges nested (if rest.isEmpty then after else none)
        ((rest.head?.map BasicBlock.id).or after) block last own node := by
  obtain ⟨exit, hexit, rfl⟩ := Option.map_eq_some_iff.mp hlast
  rw [flowThrough, hexit] at hedges
  simp only [Query.answers_bind, Query.answers_liftCrash, hnode, Except.ok.injEq, exists_eq_left']
    at hedges
  cases node <;> simp only [Query.answers_bind, Query.answers_pure, Query.answers_throw, false_and,
    exists_false, exists_eq_left'] at hedges
  case branch =>
    obtain ⟨thenEdges, hthen, elseEdges, helse, later, hlater, rfl⟩ := hedges
    exact ⟨_, later, rfl, hlater, thenEdges, elseEdges, hthen, helse, rfl⟩
  all_goals
    obtain ⟨later, hlater, rfl⟩ := hedges
    refine ⟨_, later, rfl, hlater, ?_⟩
    cases rest <;> rfl

private theorem exists_answers_flowThrough {ref : ListRef} {limit budget : Nat}
    (hedges : Query.Answers (graph.flowWithin program limit budget ref after) edges) :
    ∃ budget', Query.Answers (graph.flowThrough program after
      (graph.flowWithin program limit budget') (graph.blocksIn ref)) edges := by
  cases budget with
  | zero => exact (Query.answers_throw hedges).elim
  | succ budget => exact ⟨budget, hedges⟩

theorem blocksIn_subset (graph : Graph) (ref : ListRef) : graph.blocksIn ref ⊆ graph.blocks :=
  List.filter_subset_self _

end Flow

namespace Pieced

variable (hpieced : graph.Pieced whole) (hnodup : whole.order.Nodup)

include hpieced

include hnodup

theorem mem_toList_iff {id : BlockId} {block : Option BlockId} {statement : Option NodeId}
    (hrel : Option.Rel graph.Begins block statement) :
    id ∈ block.toList ↔ ∃ target, graph.Begins id target ∧ target ∈ statement.toList := by
  cases hrel with
  | none => simp
  | @some block statement hbegins =>
    simp only [Option.toList_some, List.mem_singleton, exists_eq_right]
    exact ⟨fun hsame => hsame ▸ hbegins,
      fun hbegins' => hpieced.eq_of_begins hnodup hbegins' hbegins⟩

theorem mem_branchTargets_iff {id : BlockId} {first second next : Option BlockId}
    {first' second' next' : Option NodeId} (hfirst : Option.Rel graph.Begins first first')
    (hsecond : Option.Rel graph.Begins second second')
    (hnext : Option.Rel graph.Begins next next') : id ∈ branchTargets first second next ↔
      ∃ target, graph.Begins id target ∧ target ∈ branchTargets first' second' next' := by
  have hnone {block : Option BlockId} {statement : Option NodeId}
      (hrel : Option.Rel graph.Begins block statement) : block = none ↔ statement = none := by
    cases hrel <;> simp
  simp only [Code.mem_branchTargets_iff, hpieced.mem_toList_iff hnodup hfirst,
    hpieced.mem_toList_iff hnodup hsecond, hpieced.mem_toList_iff hnodup hnext, hnone hfirst,
    hnone hsecond, and_or_left, exists_or, exists_and_left, and_left_comm]

/-- From the end of what has been opened no edge leads to the next statement. -/
theorem crosses_iff (hplaced : Placed whole ref opened code) {head : NodeId}
    (hhead : code.heads.head? = some head) {after : Option NodeId} {edge : Edge} :
    graph.Crosses code opened after edge ↔ ∃ source target, graph.Ends edge.source source ∧
      graph.Begins edge.target target ∧ code.Leads source target after := by
  constructor
  · rintro ⟨source, target, hends, hbegins, hleads | ⟨hlast, hentry⟩⟩
    · exact ⟨source, target, hends, hbegins, hleads⟩
    · obtain rfl : head = target := by simpa [Code.entry, hhead] using hentry
      have hopened : opened ≠ [] := fun hnil => by simp [hnil] at hlast
      exact absurd hbegins (hpieced.not_begins_of_opened hnodup hplaced hopened hhead)
  · rintro ⟨source, target, hends, hbegins, hleads⟩
    exact ⟨source, target, hends, hbegins, Or.inl hleads⟩

omit hnodup in
/-- The blocks of a body are those for its pieces. -/
theorem spans_body (hframes : program.Frames whole) (hplaced : Placed whole ref [] code)
    (hbody : (ref, code.heads) ∈ whole.bodies) : List.Forall₂
      (fun cut block => BasicBlock.Spans cut block) (code.pieces ref []) (graph.blocksIn ref) := by
  rw [← hplaced.filter_cuts hframes (List.mem_cons_of_mem _ hbody)]
  exact hpieced.spans_blocksIn ref

/-- The edges from one block to others are the steps of control from its last statement. -/
theorem mem_edges_iff {block : BasicBlock} (hblock : block ∈ graph.blocks) {last : NodeId}
    (hlast : block.last? = some last) {targets : List BlockId} {statements : List NodeId}
    (htargets : ∀ id, id ∈ targets ↔ ∃ target, graph.Begins id target ∧ target ∈ statements)
    {edge : Edge} : edge ∈ targets.map (Edge.mk block.id) ↔
      ∃ source target, graph.Ends edge.source source ∧ graph.Begins edge.target target ∧
        source = last ∧ target ∈ statements := by
  constructor
  · intro hedge
    obtain ⟨id, hid, rfl⟩ := List.mem_map.mp hedge
    obtain ⟨target, hbegins, htarget⟩ := (htargets id).mp hid
    exact ⟨last, target, ⟨block, hblock, rfl, hlast⟩, hbegins, rfl, htarget⟩
  · rintro ⟨_, target, hends, hbegins, rfl, htarget⟩
    have hsource := hpieced.eq_of_ends hnodup hends ⟨block, hblock, rfl, hlast⟩
    refine List.mem_map.mpr ⟨edge.target, (htargets _).mpr ⟨target, hbegins, htarget⟩, ?_⟩
    rw [← hsource]

section Cases

variable {limit : Nat}

theorem crossesAll_nil : graph.CrossesAll program whole limit .nil := by
  intro ref opened budget blocks edges after afterBlock _ _ hopened hblocks hspans hafter hedges
  cases opened with
  | nil =>
    obtain rfl := List.forall₂_nil_left_iff.mp hspans
    obtain rfl := Query.answers_pure.mp hedges
    refine ⟨⟨trivial, by simp [Code.Returnless, Code.statements]⟩, fun edge => ?_⟩
    simp [Crosses, Code.Leads]
  | cons first opened =>
    have hpieces : Code.nil.pieces ref (first :: opened) = [⟨ref, first :: opened⟩] := by
      simp [Code.pieces, Code.cuts]
    rw [hpieces] at hspans
    obtain ⟨block, _, hblock, hnil, rfl⟩ := List.forall₂_cons_left_iff.mp hspans
    obtain rfl := List.forall₂_nil_left_iff.mp hnil
    obtain ⟨last, hlast⟩ : ∃ last, (first :: opened).getLast? = some last := by
      simp [List.getLast?_cons]
    obtain ⟨node, hnode, hplain⟩ := hopened last hlast
    obtain ⟨own, later, rfl, hlater, hown⟩ :=
      exists_answers_of_flowThrough (hblock.last?_eq.trans hlast) hedges hnode
    obtain rfl := Query.answers_pure.mp hlater
    have hown : own = afterBlock.toList.map (Edge.mk block.id) := by
      cases node <;> first | exact hown | cases hplain
    refine ⟨⟨trivial, by simp [Code.Returnless, Code.statements]⟩, fun edge => ?_⟩
    rw [List.append_nil, hown, hpieced.mem_edges_iff hnodup (hblocks List.mem_cons_self)
      (hblock.last?_eq.trans hlast) fun id => hpieced.mem_toList_iff hnodup hafter]
    simp [Crosses, Code.Leads, Code.entry, Code.heads, hlast]

/-- A statement that owns no list either goes into the piece that is open, or ends it. -/
theorem crossesAll_step {statement : Tree} {rest : Code}
    (hstatement : program.node statement.id = .ok statement.node)
    (hlists : statement.node.lists statement.id = [])
    (hrest : graph.CrossesAll program whole limit rest) :
    graph.CrossesAll program whole limit (.step statement rest) := by
  intro ref opened budget blocks edges after afterBlock hcode hplaced _ hblocks hspans hafter hedges
  rw [Code.order_step, List.nodup_cons] at hcode
  have hhead : (Code.step statement rest).heads.head? = some statement.id := rfl
  cases hends : statement.node.endsRange with
  | false =>
    rw [Code.pieces_step_of_not_ends hends] at hspans
    obtain ⟨hshape, hcrosses⟩ := hrest hcode.2 (hplaced.step_of_not_ends hends)
      (fun last hlast => ⟨statement.node, by
        obtain rfl : statement.id = last := by simpa using hlast
        exact hstatement, hends⟩) hblocks hspans hafter hedges
    refine ⟨⟨hshape.1, List.forall_mem_cons.mpr ⟨fun value hvalue => ?_, hshape.2⟩⟩, fun edge => ?_⟩
    · rw [hvalue] at hends
      cases hends
    · rw [hcrosses, hpieced.crosses_iff hnodup hplaced hhead]
      simp only [Crosses, List.getLast?_concat, Option.some.injEq, Code.Leads]
      refine exists_congr fun source => exists_congr fun target => ?_
      rw [or_comm, @eq_comm _ statement.id]
  | true =>
    rw [Code.pieces_step_of_ends hends] at hspans
    obtain ⟨block, blocks, hblock, hrow, rfl⟩ := List.forall₂_cons_left_iff.mp hspans
    have hlast : block.last? = some statement.id := hblock.last?_eq.trans (List.getLast?_concat ..)
    obtain ⟨own, later, rfl, hlater, hown⟩ :=
      exists_answers_of_flowThrough hlast hedges hstatement
    have hblocks' : blocks ⊆ graph.blocks := fun _ hmem => hblocks (List.mem_cons_of_mem _ hmem)
    obtain ⟨hshape, hcrosses⟩ := hrest hcode.2 (hplaced.step_of_ends hends) (by simp) hblocks' hrow
      hafter hlater
    have hnext := rel_or (begins_head hblocks' hrow) hafter
    have hcall : (∀ value, statement.node ≠ .ret value) ∧
        own = ((blocks.head?.map BasicBlock.id).or afterBlock).toList.map (Edge.mk block.id) := by
      cases hkind : statement.node with
      | call =>
        rw [hkind] at hown
        exact ⟨by simp, hown⟩
      | ret =>
        rw [hkind] at hown
        exact hown.elim
      | branch | loop => simp [hkind, Node.lists] at hlists
      | _ => simp [hkind, Node.endsRange] at hends
    refine ⟨⟨hshape.1, List.forall_mem_cons.mpr ⟨hcall.1, hshape.2⟩⟩, fun edge => ?_⟩
    rw [List.mem_append, hcall.2, hpieced.mem_edges_iff hnodup (hblocks List.mem_cons_self) hlast
      fun id => hpieced.mem_toList_iff hnodup hnext, hcrosses, crosses_nil,
      hpieced.crosses_iff hnodup hplaced hhead]
    simp only [Code.Leads, and_or_left, exists_or, Option.mem_toList, Code.entry]

/-- A conditional ends the piece that is open, and its bodies lead on to what comes next. -/
theorem crossesAll_branch (hframes : program.Frames whole) {statement : Tree} {condition : NodeId}
    {thenBody elseBody rest : Code} (hstatement : program.node statement.id = .ok statement.node)
    (hbranch : statement.node = .branch condition thenBody.heads elseBody.heads)
    (hthen : graph.CrossesAll program whole limit thenBody)
    (helse : graph.CrossesAll program whole limit elseBody)
    (hrest : graph.CrossesAll program whole limit rest) :
    graph.CrossesAll program whole limit (.branch statement thenBody elseBody rest) := by
  intro ref opened budget blocks edges after afterBlock hcode hplaced _ hblocks hspans hafter hedges
  have hhead : (Code.branch statement thenBody elseBody rest).heads.head? = some statement.id := rfl
  have hthenPlaced := hplaced.inThen hcode
  have helsePlaced := hplaced.inElse hcode
  have hbodies := hplaced.bodies
  rw [Code.order_branch, List.nodup_cons, List.nodup_append', List.nodup_append'] at hcode
  obtain ⟨-, ⟨hthenNodup, helseNodup, -⟩, hrestNodup, -⟩ := hcode
  rw [Code.pieces_branch hplaced.apart] at hspans
  obtain ⟨block, blocks, hblock, hrow, rfl⟩ := List.forall₂_cons_left_iff.mp hspans
  have hlast : block.last? = some statement.id := hblock.last?_eq.trans (List.getLast?_concat ..)
  obtain ⟨own, later, rfl, hlater, hown⟩ :=
    exists_answers_of_flowThrough hlast hedges hstatement
  rw [hbranch] at hown
  obtain ⟨thenEdges, elseEdges, hthenEdges, helseEdges, rfl⟩ := hown
  obtain ⟨_, hthenEdges⟩ := exists_answers_flowThrough hthenEdges
  obtain ⟨_, helseEdges⟩ := exists_answers_flowThrough helseEdges
  have hblocks' : blocks ⊆ graph.blocks := fun _ hmem => hblocks (List.mem_cons_of_mem _ hmem)
  have hnext := rel_or (begins_head hblocks' hrow) hafter
  have hthenSpans := hpieced.spans_body hframes hthenPlaced (hbodies (by simp [Code.bodies]))
  have helseSpans := hpieced.spans_body hframes helsePlaced (hbodies (by simp [Code.bodies]))
  obtain ⟨hthenShape, hthenCrosses⟩ := hthen hthenNodup hthenPlaced (by simp)
    (graph.blocksIn_subset _) hthenSpans hnext hthenEdges
  obtain ⟨helseShape, helseCrosses⟩ := helse helseNodup helsePlaced (by simp)
    (graph.blocksIn_subset _) helseSpans hnext helseEdges
  obtain ⟨hshape, hcrosses⟩ := hrest hrestNodup hplaced.behind (by simp) hblocks' hrow hafter hlater
  refine ⟨⟨⟨hthenShape.1, helseShape.1, hshape.1⟩, ?_⟩, fun edge => ?_⟩
  · intro other hother
    simp only [Code.statements, List.mem_cons, List.mem_append] at hother
    rcases hother with rfl | (hother | hother) | hother
    · simp [hbranch]
    · exact hthenShape.2 other hother
    · exact helseShape.2 other hother
    · exact hshape.2 other hother
  · have htargets (id : BlockId) := @mem_branchTargets_iff _ _ hpieced hnodup id _ _ _ _ _ _
      (begins_head (graph.blocksIn_subset _) hthenSpans)
      (begins_head (graph.blocksIn_subset _) helseSpans) hnext
    rw [List.mem_append, List.mem_append, List.mem_append,
      hpieced.mem_edges_iff hnodup (hblocks List.mem_cons_self) hlast htargets, hthenCrosses,
      helseCrosses, hcrosses, crosses_nil, crosses_nil, crosses_nil,
      hpieced.crosses_iff hnodup hplaced hhead]
    simp only [Code.Leads, and_or_left, exists_or, Code.entry, or_assoc]

omit hpieced hnodup in
/-- A loop has no flow through it. -/
theorem crossesAll_loop {statement : Tree} {body rest : Code}
    (hstatement : program.node statement.id = .ok statement.node)
    (hloop : statement.node = .loop body.heads) :
    graph.CrossesAll program whole limit (.loop statement body rest) := by
  intro ref opened budget blocks edges after afterBlock _ hplaced _ _ hspans _ hedges
  rw [Code.pieces_loop hplaced.apart] at hspans
  obtain ⟨block, blocks, hblock, -, rfl⟩ := List.forall₂_cons_left_iff.mp hspans
  have hlast : block.last? = some statement.id := hblock.last?_eq.trans (List.getLast?_concat ..)
  obtain ⟨own, later, rfl, -, hown⟩ := exists_answers_of_flowThrough hlast hedges hstatement
  rw [hloop] at hown
  exact hown.elim

end Cases

theorem crosses_of_flowThrough (hframes : program.Frames whole) (hframed : program.FramesCode code)
    (limit : Nat) : graph.CrossesAll program whole limit code := by
  induction hframed with
  | nil => exact hpieced.crossesAll_nil hnodup
  | step hstatement hlists _ ih => exact hpieced.crossesAll_step hnodup hstatement hlists ih
  | branch hstatement hbranch _ _ _ ihthen ihelse ih =>
    exact hpieced.crossesAll_branch hnodup hframes hstatement hbranch ihthen ihelse ih
  | loop hstatement hloop => exact crossesAll_loop hstatement hloop

end Pieced

/-! ### The connected graph -/

theorem located_ofRanges (ranges : List BlockRange) : (ofRanges ranges).Located := by
  intro index block hslot
  simp only [ofRanges, List.getElem?_toArray, List.getElem?_mapIdx, Option.map_eq_some_iff,
    Option.some.injEq] at hslot
  obtain ⟨range, -, rfl⟩ := hslot
  rfl

theorem blocks_ofRanges (ranges : List BlockRange) : (ofRanges ranges).blocks =
    ranges.mapIdx fun index range => { id := ⟨index⟩, ranges := [range] } := by
  rw [blocks, ofRanges, List.toList_toArray, List.mapIdx_eq_zipIdx_map, List.mapIdx_eq_zipIdx_map,
    List.filterMap_map, ← List.filterMap_eq_map]
  rfl

/-- Before any merge there is a block for each piece. -/
theorem pieced_ofRanges (hframes : program.Frames code) {limit : Nat} {ranges : List BlockRange}
    (hranges : Query.Answers (program.partition limit) ranges) : (ofRanges ranges).Pieced code where
  located := located_ofRanges ranges
  spans := by
    obtain ⟨hlength, hspanned⟩ := List.forall₂_iff_get.mp (hframes.spanned_of_partition hranges)
    rw [blocks_ofRanges, List.forall₂_iff_get]
    refine ⟨by rw [hlength, List.length_mapIdx], fun index hcut hblock => ?_⟩
    rw [List.length_mapIdx] at hblock
    refine ⟨ranges[index], ?_, hspanned index hcut hblock⟩
    rw [List.get_eq_getElem, List.getElem_mapIdx]

/-- A block of a piece holds the piece, whatever its edges are. -/
theorem holds_of_spans (hloopless : code.Loopless) (hnodup : code.order.Nodup) {block : BasicBlock}
    {cut : Cut} (hcut : cut ∈ code.cuts .root []) (hspans : block.Spans cut) :
    block.Holds program code cut.statements := by
  obtain ⟨range, hranges, hspanned⟩ := hspans
  obtain ⟨earlier, later, hlist⟩ := @Code.exists_list_of_mem_cuts _ _ _ _ [] hcut
  refine ⟨by simp [hranges], ⟨[cut.statements], ?_, by simp⟩, ?_, ?_⟩
  · rw [hranges]
    exact .cons ⟨hspanned.first, hspanned.last, earlier, later, hspanned.list ▸ hlist⟩ .nil
  · rw [hranges]
    exact List.isChain_singleton _
  · exact Code.isChain_of_mem_cuts hloopless (by simpa using hnodup) .nil (by simp)
      (fun source target hchained _ => hchained) hcut

/-- An edge stands for a step of control between the ends of two blocks. -/
theorem Pieced.crosses_iff_joins (hpieced : graph.Pieced code) {source target : BasicBlock}
    (hsource : source ∈ graph.blocks) (htarget : target ∈ graph.blocks) :
    graph.Crosses code [] none ⟨source.id, target.id⟩ ↔ source.Joins code target := by
  rw [crosses_nil]
  constructor
  · rintro ⟨last, first, ⟨block, hblock, hid, hlast⟩, ⟨block', hblock', hid', hfirst⟩, hleads⟩
    obtain rfl := hpieced.located.eq_of_id hblock hsource hid
    obtain rfl := hpieced.located.eq_of_id hblock' htarget hid'
    exact ⟨last, hlast, first, hfirst, hleads⟩
  · rintro ⟨last, hlast, first, hfirst, hleads⟩
    exact ⟨last, first, ⟨source, hsource, rfl, hlast⟩, ⟨target, htarget, rfl, hfirst⟩, hleads⟩

/-- The connected graph depicts the code, which has no loops and no returns. -/
theorem depicts_of_linked (hframes : program.Frames code) {limit : Nat}
    (hlinked : Query.Answers (linked program limit) graph) :
    graph.Depicts program code ∧ code.Loopless ∧ code.Returnless := by
  simp only [linked, Query.answers_bind] at hlinked
  obtain ⟨ranges, hranges, edges, hedges, hconnect⟩ := hlinked
  have hnodup := hframes.nodup_order
  have hpieced := pieced_ofRanges hframes hranges
  obtain ⟨_, hflow⟩ := exists_answers_flowThrough hedges
  have hwhole : Placed code .root [] code :=
    ⟨List.infix_refl _, List.Subset.refl _, by simp [Code.Apart, ListRef.owner?]⟩
  obtain ⟨hshape, hcrosses⟩ := hpieced.crosses_of_flowThrough hnodup hframes hframes.framed _ hnodup
    hwhole (by simp) (blocksIn_subset _ _) (hpieced.spans_blocksIn .root) .none hflow
  obtain ⟨hlocated, hends, hblocks⟩ := hpieced.located.connectAll
    (Query.answers_foldlM_liftCrash.mp hconnect)
  have hbare {block : BasicBlock} (hblock : block ∈ (ofRanges ranges).blocks) :
      block.predecessors = [] ∧ block.successors = [] := by
    rw [blocks_ofRanges] at hblock
    obtain ⟨index, hindex, rfl⟩ := List.mem_mapIdx.mp hblock
    exact ⟨rfl, rfl⟩
  have hids {id : BlockId} : id ∈ graph.ids ↔ id ∈ (ofRanges ranges).ids := by
    simp [ids, hblocks]
  have hholds {cut : Cut} {block : BasicBlock}
      (hpair : (cut, block) ∈ (code.cuts .root []).zip (ofRanges ranges).blocks) :
      (block.connected edges).Holds program code cut.statements :=
    (holds_of_spans hshape.1 hnodup (List.of_mem_zip hpair).1
      ((List.forall₂_iff_zip.mp hpieced.spans).2 hpair)).congr rfl
  refine ⟨⟨hlocated, ?_, ?_, ?_, ?_, ?_, ?_, ?_⟩, hshape⟩
  · rw [hblocks, blocks_ofRanges]
    cases ranges <;> simp [List.mapIdx_cons]
  · rw [hblocks]
    intro block' hblock'
    obtain ⟨block, hblock, rfl⟩ := List.mem_map.mp hblock'
    obtain ⟨cut, hpair, -⟩ := hpieced.exists_cut hblock
    exact ((hholds hpair).row_eq hframes).symm ▸ hholds hpair
  · have hrows : (code.cuts .root []).map Cut.statements =
        (ofRanges ranges).blocks.map fun block => (block.connected edges).row program := by
      rw [← List.forall₂_eq_eq_eq, List.forall₂_map_left_iff, List.forall₂_map_right_iff,
        List.forall₂_iff_zip]
      exact ⟨(List.forall₂_iff_zip.mp hpieced.spans).1,
        fun hpair => ((hholds hpair).row_eq hframes).symm⟩
    have htext := code.flatMap_cuts .root []
    rw [List.flatMap_def, hrows, List.nil_append] at htext
    rw [hblocks, List.flatMap_map, List.flatMap_def, htext]
  · rw [hblocks]
    intro block' hblock'
    obtain ⟨block, hblock, rfl⟩ := List.mem_map.mp hblock'
    simp only [BasicBlock.connected, hbare hblock]
    exact ⟨BlockSet.Ascending.insertAll .nil _, BlockSet.Ascending.insertAll .nil _⟩
  · rw [hblocks]
    intro block' hblock'
    obtain ⟨block, hblock, rfl⟩ := List.mem_map.mp hblock'
    refine ⟨fun id hid => ?_, fun id hid => ?_⟩
    · rw [BasicBlock.mem_predecessors_connected, (hbare hblock).1] at hid
      exact hids.mpr (hends _ (hid.resolve_left List.not_mem_nil)).1
    · rw [BasicBlock.mem_successors_connected, (hbare hblock).2] at hid
      exact hids.mpr (hends _ (hid.resolve_left List.not_mem_nil)).2
  · rw [hblocks]
    intro source' hsource' target' htarget'
    obtain ⟨source, hsource, rfl⟩ := List.mem_map.mp hsource'
    obtain ⟨target, htarget, rfl⟩ := List.mem_map.mp htarget'
    rw [BasicBlock.mem_successors_connected, (hbare hsource).2, BasicBlock.id_connected, hcrosses,
      hpieced.crosses_iff_joins hsource htarget, or_iff_right List.not_mem_nil]
    rfl
  · rw [hblocks]
    intro source' hsource' target' htarget'
    obtain ⟨source, hsource, rfl⟩ := List.mem_map.mp hsource'
    obtain ⟨target, htarget, rfl⟩ := List.mem_map.mp htarget'
    rw [BasicBlock.mem_predecessors_connected, (hbare htarget).1, BasicBlock.id_connected, hcrosses,
      hpieced.crosses_iff_joins hsource htarget, or_iff_right List.not_mem_nil]
    rfl

end Graph

end ShaderIR
