import ShaderIR.Node

/-!
Writing the children of a node. `Node.Alike` relates nodes that differ in the ids of their children
and in nothing else. `Node.alike_refill` and `Node.children_refill` are what `Node.refill` does with
as many ids as the node has children: the node keeps all else that it says, and its children are
those ids. The places that `Node.refill` writes to are those that the children are read from
(`Node.slots_eq_children`).
-/

set_option autoImplicit false

namespace ShaderIR

/-! ### Operands of texture operations -/

/-- The operands of a level of detail, without saying which nodes they are. -/
def Lod.shape {α : Type} : Lod α → Lod Unit
  | .implicit => .implicit
  | .bias _ => .bias ()
  | .level _ => .level ()
  | .gradient _ _ => .gradient () ()
  | .sample _ => .sample ()

/-- Which operands are present. -/
def TextureOperands.shape {α : Type} (operands : TextureOperands α) : TextureOperands Unit where
  sampler := ()
  coordinate := operands.coordinate.map fun _ => ()
  projector := operands.projector.map fun _ => ()
  comparator := operands.comparator.map fun _ => ()
  offset := operands.offset.map fun _ => ()
  lod := operands.lod.shape
  samplerState := operands.samplerState.map fun _ => ()

theorem Lod.eq_of_shape {α : Type} {left right : Lod α} (hshape : left.shape = right.shape)
    (hlist : left.toList = right.toList) : left = right := by
  cases left <;> cases right <;> simp_all [shape, toList]

theorem Lod.length_toList_of_shape {α β : Type} {left : Lod α} {right : Lod β}
    (hshape : left.shape = right.shape) : left.toList.length = right.toList.length := by
  cases left <;> cases right <;> simp_all [shape, toList]

namespace TextureOperands

variable {α β : Type}

private theorem length_toList_of_map {left : Option α} {right : Option β}
    (hshape : left.map (fun _ => ()) = right.map fun _ => ()) :
    left.toList.length = right.toList.length := by
  cases left <;> cases right <;> simp_all

private theorem eq_of_toList {left right : Option α} (hlist : left.toList = right.toList) :
    left = right := by
  cases left <;> cases right <;> simp_all

/-- Operands are known from which of them are present and from their list. -/
theorem eq_of_shape {left right : TextureOperands α} (hshape : left.shape = right.shape)
    (hlist : left.toList = right.toList) : left = right := by
  obtain ⟨sampler, coordinate, projector, comparator, offset, lod, samplerState⟩ := left
  obtain ⟨sampler', coordinate', projector', comparator', offset', lod', samplerState'⟩ := right
  simp only [shape, mk.injEq, true_and] at hshape
  obtain ⟨hcoordinate, hprojector, hcomparator, hoffset, hlod, hstate⟩ := hshape
  simp only [toList, List.cons.injEq, List.append_assoc] at hlist
  obtain ⟨hsampler, hlist⟩ := hlist
  obtain ⟨hfirst, hlist⟩ := List.append_inj hlist (length_toList_of_map hcoordinate)
  obtain ⟨hsecond, hlist⟩ := List.append_inj hlist (length_toList_of_map hprojector)
  obtain ⟨hthird, hlist⟩ := List.append_inj hlist (length_toList_of_map hcomparator)
  obtain ⟨hfourth, hlist⟩ := List.append_inj hlist (length_toList_of_map hoffset)
  obtain ⟨hfifth, hsixth⟩ := List.append_inj hlist (Lod.length_toList_of_shape hlod)
  rw [hsampler, eq_of_toList hfirst, eq_of_toList hsecond, eq_of_toList hthird,
    eq_of_toList hfourth, Lod.eq_of_shape hlod hfifth, eq_of_toList hsixth]

end TextureOperands

namespace Node

/-! ### Nodes that differ in their children only -/

/-- The nodes differ in the ids of their children and in nothing else. -/
inductive Alike : Node → Node → Prop
  | constant (value : Constant) : Alike (.constant value) (.constant value)
  | variable (id : VarId) : Alike (.variable id) (.variable id)
  | index (base place base' place' : NodeId) : Alike (.index base place) (.index base' place')
  | field (record record' : NodeId) (number : Nat) :
      Alike (.field record number) (.field record' number)
  | apply (op : Operator) (operands operands' : List NodeId) (ty : Ty)
    (hlength : operands.length = operands'.length) :
    Alike (.apply op operands ty) (.apply op operands' ty)
  | texture (op : TextureOp) (channel : Option UInt8) (operands operands' : TextureOperands NodeId)
    (ty : Ty) (hshape : operands.shape = operands'.shape) :
    Alike (.texture op channel operands ty) (.texture op channel operands' ty)
  | swizzle (value value' : NodeId) (mask : Swizzle) :
      Alike (.swizzle value mask) (.swizzle value' mask)
  | call (callee : SignatureId) (arguments arguments' : List NodeId)
    (result result' : Option NodeId)
    (hlength : arguments.length = arguments'.length) (hresult : result.isSome = result'.isSome) :
    Alike (.call callee arguments result) (.call callee arguments' result')
  | assign (target value target' value' : NodeId) (mask : UInt8) :
    Alike (.assign target value mask) (.assign target' value' mask)
  | branch (condition condition' : NodeId) (thenBody elseBody : List NodeId) :
    Alike (.branch condition thenBody elseBody) (.branch condition' thenBody elseBody)
  | loop (body : List NodeId) : Alike (.loop body) (.loop body)
  | ret (value value' : Option NodeId) (hvalue : value.isSome = value'.isSome) :
    Alike (.ret value) (.ret value')
  | discard (condition condition' : Option NodeId)
      (hcondition : condition.isSome = condition'.isSome) :
    Alike (.discard condition) (.discard condition')

@[refl] theorem Alike.refl (node : Node) : Alike node node := by
  cases node <;> constructor <;> rfl

@[symm] theorem Alike.symm {node node' : Node} (halike : Alike node node') : Alike node' node := by
  cases halike <;> constructor <;> simp_all

theorem Alike.trans {node node' node'' : Node}
    (hfirst : Alike node node') (hsecond : Alike node' node'') :
    Alike node node'' := by
  cases hfirst <;> cases hsecond <;> constructor <;> simp_all

theorem Alike.kind_eq {node node' : Node} (halike : Alike node node') : node.kind = node'.kind := by
  cases halike <;> rfl

theorem Alike.isStatement_eq {node node' : Node} (halike : Alike node node') :
    node.isStatement = node'.isStatement := by
  cases halike <;> rfl

theorem Alike.isCompound_eq {node node' : Node} (halike : Alike node node') :
    node.isCompound = node'.isCompound := by
  cases halike <;> simp_all [isCompound]

theorem Alike.lists_eq {node node' : Node} (halike : Alike node node') (id : NodeId) :
    node.lists id = node'.lists id := by
  cases halike <;> rfl

/-! ### Refilling -/

private theorem run_bind_of {α β : Type}
    {walk : StateM (List NodeId) α} {next : α → StateM (List NodeId) β}
    {ids ids' : List NodeId} {answer : α} (hrun : walk.run ids = (answer, ids')) :
    (walk >>= next).run ids = (next answer).run ids' := by
  rw [StateT.run_bind, hrun]
  rfl

private theorem run_mapM_takeNext {olds news : List NodeId} (rest : List NodeId)
    (hlength : news.length = olds.length) :
    (olds.mapM takeNext).run (news ++ rest) = (news, rest) := by
  induction olds generalizing news with
  | nil =>
    obtain rfl := List.eq_nil_of_length_eq_zero hlength
    rfl
  | cons old olds ih =>
    cases news with
    | nil => simp at hlength
    | cons new news =>
      have hfirst : (takeNext old).run (new :: news ++ rest) = (new, news ++ rest) := rfl
      have hrest := @ih news (by simpa using hlength)
      rw [List.mapM_cons, run_bind_of hfirst, run_bind_of hrest]
      rfl

private theorem run_mapPresent_takeNext {old : Option NodeId} {news : List NodeId}
    (rest : List NodeId) (hlength : news.length = old.toList.length) : ∃ new : Option NodeId,
      (mapPresent takeNext old).run (news ++ rest) = (new, rest) ∧ new.toList = news ∧
        new.isSome = old.isSome := by
  cases old with
  | none =>
    obtain rfl := List.eq_nil_of_length_eq_zero hlength
    exact ⟨none, rfl, rfl, rfl⟩
  | some old =>
    obtain ⟨new, rfl⟩ := List.length_eq_one_iff.mp hlength
    exact ⟨some new, rfl, rfl, rfl⟩

private theorem run_mapM_lod {old : Lod NodeId} {news : List NodeId} (rest : List NodeId)
    (hlength : news.length = old.toList.length) : ∃ new : Lod NodeId,
      (old.mapM takeNext).run (news ++ rest) = (new, rest) ∧ new.toList = news ∧
        new.shape = old.shape := by
  cases old with
  | implicit =>
    obtain rfl := List.eq_nil_of_length_eq_zero hlength
    exact ⟨.implicit, rfl, rfl, rfl⟩
  | bias =>
    obtain ⟨new, rfl⟩ := List.length_eq_one_iff.mp hlength
    exact ⟨.bias new, rfl, rfl, rfl⟩
  | level =>
    obtain ⟨new, rfl⟩ := List.length_eq_one_iff.mp hlength
    exact ⟨.level new, rfl, rfl, rfl⟩
  | gradient =>
    match news, hlength with
    | [dx, dy], _ => exact ⟨.gradient dx dy, rfl, rfl, rfl⟩
  | sample =>
    obtain ⟨new, rfl⟩ := List.length_eq_one_iff.mp hlength
    exact ⟨.sample new, rfl, rfl, rfl⟩

private theorem map_eq_of_isSome {left right : Option NodeId} (hsome : left.isSome = right.isSome) :
    left.map (fun _ => ()) = right.map fun _ => () := by
  cases left <;> cases right <;> simp_all

private theorem exists_append {news : List NodeId} {first second : Nat}
    (hlength : news.length = first + second) :
    ∃ left right, news = left ++ right ∧ left.length = first ∧ right.length = second :=
  ⟨news.take first, news.drop first, (List.take_append_drop first news).symm, by simp; omega,
    by simp; omega⟩

private theorem run_mapM_texture {old : TextureOperands NodeId} {news : List NodeId}
    (hlength : news.length = old.toList.length) : ∃ new : TextureOperands NodeId,
      (old.mapM takeNext).run news = (new, []) ∧ new.toList = news ∧ new.shape = old.shape := by
  simp only [TextureOperands.toList, List.length_cons, List.length_append] at hlength
  cases news with
  | nil => simp at hlength
  | cons sampler news =>
    have hlength : news.length = old.coordinate.toList.length + (old.projector.toList.length +
        (old.comparator.toList.length + (old.offset.toList.length + (old.lod.toList.length +
          old.samplerState.toList.length)))) := by
      rw [List.length_cons] at hlength
      omega
    obtain ⟨coordinate, news, rfl, hcoordinate, hlength⟩ := exists_append hlength
    obtain ⟨projector, news, rfl, hprojector, hlength⟩ := exists_append hlength
    obtain ⟨comparator, news, rfl, hcomparator, hlength⟩ := exists_append hlength
    obtain ⟨offset, news, rfl, hoffset, hlength⟩ := exists_append hlength
    obtain ⟨lod, state, rfl, hlod, hstate⟩ := exists_append hlength
    have hfirst : (takeNext old.sampler).run
        (sampler :: (coordinate ++ (projector ++ (comparator ++ (offset ++ (lod ++ state)))))) =
          (sampler, coordinate ++ (projector ++ (comparator ++ (offset ++ (lod ++ state))))) := rfl
    obtain ⟨coordinate, hrun₁, rfl, hsome₁⟩ := run_mapPresent_takeNext
      (projector ++ (comparator ++ (offset ++ (lod ++ state)))) hcoordinate
    obtain ⟨projector, hrun₂, rfl, hsome₂⟩ := run_mapPresent_takeNext
      (comparator ++ (offset ++ (lod ++ state))) hprojector
    obtain ⟨comparator, hrun₃, rfl, hsome₃⟩ := run_mapPresent_takeNext
      (offset ++ (lod ++ state)) hcomparator
    obtain ⟨offset, hrun₄, rfl, hsome₄⟩ := run_mapPresent_takeNext (lod ++ state) hoffset
    obtain ⟨lod, hrun₅, rfl, hshape⟩ := run_mapM_lod state hlod
    obtain ⟨state, hrun₆, rfl, hsome₆⟩ := run_mapPresent_takeNext [] hstate
    rw [List.append_nil] at hrun₆
    refine ⟨⟨sampler, coordinate, projector, comparator, offset, lod, state⟩, ?_, ?_, ?_⟩
    · unfold TextureOperands.mapM
      rw [run_bind_of hfirst, run_bind_of hrun₁, run_bind_of hrun₂, run_bind_of hrun₃,
        run_bind_of hrun₄, run_bind_of hrun₅, run_bind_of hrun₆]
      rfl
    · simp [TextureOperands.toList]
    · simp [TextureOperands.shape, map_eq_of_isSome hsome₁, map_eq_of_isSome hsome₂,
        map_eq_of_isSome hsome₃, map_eq_of_isSome hsome₄, hshape, map_eq_of_isSome hsome₆]

/-- Refilling with as many ids as there are children changes the children into them, and nothing
else. -/
theorem refill_spec (node : Node) {ids : List NodeId}
    (hlength : ids.length = node.children.length) :
    Alike node (node.refill ids) ∧ (node.refill ids).children = ids := by
  cases node with
  | constant | «variable» | loop =>
    obtain rfl := List.eq_nil_of_length_eq_zero hlength
    exact ⟨.refl _, rfl⟩
  | index base place =>
    match ids, hlength with
    | [base', place'], _ => exact ⟨.index .., rfl⟩
  | field record number =>
    obtain ⟨record', rfl⟩ := List.length_eq_one_iff.mp hlength
    exact ⟨.field .., rfl⟩
  | apply op operands ty =>
    have hrun := run_mapM_takeNext [] (show ids.length = operands.length from hlength)
    rw [List.append_nil] at hrun
    have hrefill : refill (.apply op operands ty) ids = .apply op ids ty := by
      unfold refill mapChildrenM
      dsimp only
      rw [run_bind_of hrun]
      rfl
    rw [hrefill]
    exact ⟨.apply _ _ _ _ hlength.symm, rfl⟩
  | texture op channel operands ty =>
    obtain ⟨operands', hrun, hlist, hshape⟩ :=
      run_mapM_texture hlength
    have hrefill : refill (.texture op channel operands ty) ids =
        .texture op channel operands' ty := by
      unfold refill mapChildrenM
      dsimp only
      rw [run_bind_of hrun]
      rfl
    rw [hrefill]
    exact ⟨.texture _ _ _ _ _ hshape.symm, hlist⟩
  | swizzle value mask =>
    obtain ⟨value', rfl⟩ := List.length_eq_one_iff.mp hlength
    exact ⟨.swizzle .., rfl⟩
  | call callee arguments result =>
    rw [children, List.length_append] at hlength
    obtain ⟨arguments', result', rfl, harguments, hresult⟩ := exists_append hlength
    have hrun := run_mapM_takeNext result' harguments
    obtain ⟨result', hrun', rfl, hsome⟩ := run_mapPresent_takeNext [] hresult
    rw [List.append_nil] at hrun'
    have hrefill : refill (.call callee arguments result) (arguments' ++ result'.toList) =
        .call callee arguments' result' := by
      unfold refill mapChildrenM
      dsimp only
      rw [run_bind_of hrun, run_bind_of hrun']
      rfl
    rw [hrefill]
    exact ⟨.call _ _ _ _ _ harguments.symm hsome.symm, rfl⟩
  | assign target value mask =>
    match ids, hlength with
    | [value', target'], _ => exact ⟨.assign .., rfl⟩
  | branch condition thenBody elseBody =>
    obtain ⟨condition', rfl⟩ := List.length_eq_one_iff.mp hlength
    exact ⟨.branch .., rfl⟩
  | ret value | discard value =>
    obtain ⟨value', hrun, rfl, hsome⟩ := run_mapPresent_takeNext [] hlength
    rw [List.append_nil] at hrun
    cases value <;> cases value' <;> simp at hsome <;> exact ⟨by constructor; rfl, rfl⟩

theorem alike_refill (node : Node) {ids : List NodeId}
    (hlength : ids.length = node.children.length) :
    Alike node (node.refill ids) :=
  (node.refill_spec hlength).1

theorem children_refill (node : Node) {ids : List NodeId}
    (hlength : ids.length = node.children.length) : (node.refill ids).children = ids :=
  (node.refill_spec hlength).2

theorem refill_call {callee : SignatureId} {arguments arguments' : List NodeId}
    {result result' : Option NodeId} (harguments : arguments'.length = arguments.length)
    (hresult : result'.isSome = result.isSome) :
    (Node.call callee arguments result).refill (arguments' ++ result'.toList) =
      .call callee arguments' result' := by
  have hlength : (arguments' ++ result'.toList).length =
      (Node.call callee arguments result).children.length := by
    cases result <;> cases result' <;> simp_all [children]
  obtain ⟨halike, hchildren⟩ := refill_spec (.call callee arguments result) hlength
  revert halike hchildren
  generalize refill _ _ = refilled
  intro halike hchildren
  cases halike with
  | call callee arguments found result foundResult hlength hsome =>
    obtain ⟨rfl, hrest⟩ := List.append_inj hchildren (hlength.symm.trans harguments.symm)
    cases foundResult <;> cases result' <;> simp_all

/-! ### Places of children -/

private theorem run_mapM_noteSlot (slots seen : List NodeId) :
    (slots.mapM noteSlot).run seen = (slots, seen ++ slots) := by
  induction slots generalizing seen with
  | nil => simp; rfl
  | cons slot slots ih =>
    have hfirst : (noteSlot slot).run seen = (slot, seen ++ [slot]) := rfl
    rw [List.mapM_cons, run_bind_of hfirst, run_bind_of (ih _), List.append_assoc]
    rfl

private theorem run_mapPresent_noteSlot (slot : Option NodeId) (seen : List NodeId) :
    (mapPresent noteSlot slot).run seen = (slot, seen ++ slot.toList) := by
  cases slot with
  | none => simp [mapPresent]; rfl
  | some slot => rfl

private theorem run_mapM_lod_noteSlot (lod : Lod NodeId) (seen : List NodeId) :
    (lod.mapM noteSlot).run seen = (lod, seen ++ lod.toList) := by
  cases lod with
  | implicit => rw [Lod.toList, List.append_nil]; rfl
  | gradient dx dy =>
    rw [Lod.toList, ← List.singleton_append, ← List.append_assoc]
    rfl
  | bias | level | sample => rfl

private theorem run_mapM_texture_noteSlot (operands : TextureOperands NodeId) (seen : List NodeId) :
    (operands.mapM noteSlot).run seen = (operands, seen ++ operands.toList) := by
  have hsampler :
      (noteSlot operands.sampler).run seen = (operands.sampler, seen ++ [operands.sampler]) := rfl
  unfold TextureOperands.mapM
  rw [run_bind_of hsampler, run_bind_of (run_mapPresent_noteSlot _ _),
    run_bind_of (run_mapPresent_noteSlot _ _),
    run_bind_of (run_mapPresent_noteSlot _ _), run_bind_of (run_mapPresent_noteSlot _ _),
    run_bind_of (run_mapM_lod_noteSlot _ _), run_bind_of (run_mapPresent_noteSlot _ _)]
  simp only [TextureOperands.toList, List.append_assoc, List.cons_append]
  rfl

/-- A visit of the places of the children comes past the children and leaves the node as it is. -/
theorem run_mapChildrenM_noteSlot (node : Node) (seen : List NodeId) :
    (node.mapChildrenM noteSlot).run seen = (node, seen ++ node.children) := by
  cases node with
  | constant | «variable» | loop => rw [children, List.append_nil]; rfl
  | index base place =>
    rw [children, ← List.singleton_append, ← List.append_assoc]
    rfl
  | field | swizzle | branch => rfl
  | apply op operands ty =>
    unfold mapChildrenM
    dsimp only
    rw [run_bind_of (run_mapM_noteSlot _ _)]
    rfl
  | texture op channel operands ty =>
    unfold mapChildrenM
    dsimp only
    rw [run_bind_of (run_mapM_texture_noteSlot _ _)]
    rfl
  | call callee arguments result =>
    unfold mapChildrenM
    dsimp only
    rw [run_bind_of (run_mapM_noteSlot _ _), run_bind_of (run_mapPresent_noteSlot _ _),
      List.append_assoc]
    rfl
  | assign target value mask =>
    rw [children, ← List.singleton_append, ← List.append_assoc]
    rfl
  | ret value | discard value =>
    unfold mapChildrenM
    dsimp only
    rw [run_bind_of (run_mapPresent_noteSlot _ _)]
    rfl

/-- The places that `refill` writes to hold the children, in the same order. -/
theorem slots_eq_children (node : Node) : node.slots = node.children := by
  rw [slots, run_mapChildrenM_noteSlot, List.nil_append]

/-- Reading and writing children agree: a node is written to where its children stand, and writing
as many ids as it has children there makes them its children and changes nothing else. -/
theorem children_written (node : Node) : node.slots = node.children ∧
    ∀ ids : List NodeId, ids.length = node.children.length →
      (node.refill ids).children = ids ∧ (node.refill ids).slots = ids ∧
      Alike node (node.refill ids) := by
  refine ⟨node.slots_eq_children, fun ids hlength => ?_⟩
  obtain ⟨halike, hchildren⟩ := node.refill_spec hlength
  exact ⟨hchildren, (slots_eq_children _).trans hchildren, halike⟩

/-- A comparison of neighbouring points with explicit gradients and a sampler state, without
projector and offset. -/
def gatheredComparison : Node :=
  .texture .gather (some 2)
    { sampler := ⟨0⟩, coordinate := some ⟨1⟩, comparator := some ⟨2⟩, lod := .gradient ⟨3⟩ ⟨4⟩,
      samplerState := some ⟨5⟩ } .vec4

theorem children_written_gatheredComparison :
    gatheredComparison.slots = [⟨0⟩, ⟨1⟩, ⟨2⟩, ⟨3⟩, ⟨4⟩, ⟨5⟩] ∧
    (gatheredComparison.refill [⟨9⟩, ⟨8⟩, ⟨7⟩, ⟨6⟩, ⟨6⟩, ⟨9⟩]).children =
      [⟨9⟩, ⟨8⟩, ⟨7⟩, ⟨6⟩, ⟨6⟩, ⟨9⟩] ∧
    gatheredComparison.refill [⟨9⟩, ⟨8⟩, ⟨7⟩, ⟨6⟩, ⟨6⟩, ⟨9⟩] =
      .texture .gather (some 2)
        { sampler := ⟨9⟩, coordinate := some ⟨8⟩, comparator := some ⟨7⟩, lod := .gradient ⟨6⟩ ⟨6⟩,
          samplerState := some ⟨9⟩ } .vec4 := by
  obtain ⟨hslots, hwritten⟩ := children_written gatheredComparison
  exact ⟨hslots, (hwritten [⟨9⟩, ⟨8⟩, ⟨7⟩, ⟨6⟩, ⟨6⟩, ⟨9⟩] rfl).1, rfl⟩

end Node

end ShaderIR
