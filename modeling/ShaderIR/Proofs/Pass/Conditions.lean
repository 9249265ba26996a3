import ShaderIR.Proofs.Pass.StatementRuns

/-!
Conditions on programs under which calls may be edited. `Program.IndexFree` says that no index
stands in what a call with written arguments writes to, so that no store of a call can change what
is taken out of a later place (`Program.Outlines.undisturbed`), and that such places contain no
texture operation (`Program.Outlines.samples_updated`).
-/

set_option autoImplicit false

namespace ShaderIR

/-- No index stands inside an argument that a call writes, or inside the result of such a call. -/
def Program.IndexFree (program : Program) : Prop :=
  ∀ id callee arguments result signature, program.Reachable id →
    program.node id = .ok (.call callee arguments result) →
    program.signature callee = .ok signature → signature.isPure = false →
    ∀ place, ((∃ param, (param, place) ∈ signature.params.zip arguments ∧
        param.mode.writes = true) ∨
        place ∈ result) →
      ∀ below base index, program.Below place below → program.node below ≠ .ok (.index base index)

/-! ### Trees without indices -/

namespace Tree

/-- No index stands in a tree. -/
def IndexFree (tree : Tree) : Prop :=
  ∀ below ∈ tree.subtrees, ∀ base index, below.node ≠ .index base index

variable {tree : Tree}

theorem IndexFree.child {operand : Tree}
    (hfree : tree.IndexFree) (hchild : operand ∈ tree.children) :
    operand.IndexFree :=
  fun below hbelow => hfree below (mem_subtrees_of_mem_children hchild hbelow)

theorem IndexFree.indices_eq (hfree : tree.IndexFree) : tree.indices = [] := by
  induction tree using Tree.indices.induct with
  | case1 id base place baseTree position =>
    exact absurd rfl (hfree _ (mem_subtrees_self _) base place)
  | case2 id recordId number record ih =>
    rw [Tree.indices]
    exact ih (hfree.child List.mem_cons_self)
  | case3 tree hindex hfield =>
    exact Tree.indices.eq_3 tree hindex hfield

end Tree

/-! ### Codes -/

namespace Program

variable {program : Program}

theorem mem_nodes_of_node {id : NodeId} {node : Node} (hnode : program.node id = .ok node) :
    node ∈ program.nodes :=
  Array.mem_of_getElem? (node_eq_ok_iff.mp hnode)

/-- A program without indices has none in what calls write to. -/
theorem indexFree_of_forall
    (hnodes : ∀ node ∈ program.nodes, ∀ base index, node ≠ .index base index) :
    program.IndexFree :=
  fun _ _ _ _ _ _ _ _ _ _ _ _ base index _ hindex =>
    hnodes _ (mem_nodes_of_node hindex) base index rfl

/-- Without written parameters, no argument has the role of a place. -/
theorem roles_of_isPure {signature : Signature} (hpure : signature.isPure = true) :
    ∀ role ∈ signature.roles, role = .value := by
  intro role hrole
  obtain ⟨param, hparam, rfl⟩ := List.mem_map.mp hrole
  rw [Signature.isPure, List.all_eq_true] at hpure
  rw [if_pos (by simpa using hpure param hparam)]

theorem writtenBy_call {id : NodeId} {callee : SignatureId} {arguments : List Tree}
    {result : Option Tree} {signature : Signature}
    (hsignature : program.signature callee = .ok signature)
    (hlength : signature.params.length = arguments.length) :
    program.writtenBy ⟨id, .call callee (arguments.map Tree.id) (result.map Tree.id),
      arguments ++ result.toList⟩ =
        ((signature.roles.zip arguments).filter fun item => item.1 = .place).map Prod.snd ++
          result.toList := by
  rw [writtenBy, parts_call hsignature hlength, List.filter_append, List.map_append]
  cases result <;> simp

/-- What a call with written arguments writes to contains no index. -/
theorem IndexFree.written {id : NodeId} {callee : SignatureId} {arguments : List Tree}
    {result : Option Tree} {signature : Signature} (hfree : program.IndexFree)
    (hdraws : program.Draws ⟨id, .call callee (arguments.map Tree.id) (result.map Tree.id),
      arguments ++ result.toList⟩) (hreachable : program.Reachable id)
    (hsignature : program.signature callee = .ok signature) (hpure : signature.isPure = false)
    {place : Tree} (hplace : (∃ param, (param, place) ∈ signature.params.zip arguments ∧
      param.mode.writes = true) ∨ place ∈ result) : place.IndexFree := by
  have hmem : place ∈ arguments ++ result.toList := by
    rcases hplace with ⟨param, hpassed, -⟩ | hresult
    · exact List.mem_append_left _ (List.of_mem_zip hpassed).2
    · exact List.mem_append_right _ (by simpa using hresult)
  have hchild := hdraws.child hmem
  intro below hbelow base index hindex
  refine hfree id callee _ _ signature hreachable hdraws.node_eq hsignature hpure
    place.id ?_ below.id base index (hchild.below_of_mem_subtrees below hbelow)
      (hindex ▸ (hchild.subtree below hbelow).node_eq)
  rcases hplace with ⟨param, hpassed, hwrites⟩ | hresult
  · refine Or.inl ⟨param, ?_, hwrites⟩
    rw [List.zip_map_right]
    exact List.mem_map_of_mem hpassed
  · exact Or.inr (Option.mem_map_of_mem _ hresult)

namespace Outlines

variable {code : Code}

/-- What a call with written arguments writes to contains no indices. -/
theorem indices_eq_nil (houtlines : program.Outlines code) (hfree : program.IndexFree) {id : NodeId}
    {callee : SignatureId} {arguments : List Tree} {result : Option Tree} {signature : Signature}
    (hstatement : (⟨id, .call callee (arguments.map Tree.id) (result.map Tree.id),
          arguments ++ result.toList⟩ :
        Tree) ∈ code.statements) (hsignature : program.signature callee = .ok signature)
    (hpure : signature.isPure = false) {place : Tree} (hplace : place ∈ program.writtenBy
      ⟨id, .call callee (arguments.map Tree.id) (result.map Tree.id), arguments ++ result.toList⟩) :
    place.indices = [] := by
  have hlength := (houtlines.sound _ hstatement).of_call hsignature |>.1
  have hreachable := houtlines.reachable _ hstatement _ (Tree.mem_subtrees_self _)
  rw [writtenBy_call hsignature hlength] at hplace
  refine (hfree.written (houtlines.draws.statement _ hstatement) hreachable hsignature hpure
    ?_).indices_eq
  rcases List.mem_append.mp hplace with hplace | hplace
  · obtain ⟨item, hitem, rfl⟩ := List.mem_map.mp hplace
    obtain ⟨hitem, hrole⟩ := List.mem_filter.mp hitem
    rw [Signature.roles, List.zip_map_left] at hitem
    obtain ⟨⟨param, argument⟩, hpassed, rfl⟩ := List.mem_map.mp hitem
    exact Or.inl ⟨param, hpassed, ParamMode.writes_iff.mpr fun hmode => by simp [hmode] at hrole⟩
  · exact Or.inr (by simpa using hplace)

/-- Nothing can be taken out of what a call with written arguments writes to. -/
theorem loose_eq_nil (houtlines : program.Outlines code) (hfree : program.IndexFree) {id : NodeId}
    {callee : SignatureId} {arguments : List Tree} {result : Option Tree} {signature : Signature}
    (hstatement : (⟨id, .call callee (arguments.map Tree.id) (result.map Tree.id),
          arguments ++ result.toList⟩ :
        Tree) ∈ code.statements) (hsignature : program.signature callee = .ok signature)
    (hpure : signature.isPure = false) {place : Tree} (hplace : place ∈ program.writtenBy
      ⟨id, .call callee (arguments.map Tree.id) (result.map Tree.id), arguments ++ result.toList⟩) :
    Role.place.loose place = [] := by
  rw [Role.loose, houtlines.indices_eq_nil hfree hstatement hsignature hpure hplace,
    List.flatMap_nil]

/-- Without indices in what calls write to, no store changes what is taken out of a later place. -/
theorem undisturbed (houtlines : program.Outlines code)
    (hfree : program.IndexFree) (verdict : Verdict) :
    ∀ statement ∈ code.statements, program.Undisturbed verdict statement := by
  intro statement hstatement
  have hsound := houtlines.sound statement hstatement
  unfold Undisturbed
  cases hsound with
  | assign id target value mask => simp [writtenBy, parts]
  | branch | loop => simp [writtenBy, parts]
  | ret id value => cases value <;> simp [writtenBy, parts]
  | discard id condition => cases condition <;> simp [writtenBy, parts]
  | call id callee arguments result signature hsignature hlength =>
    cases hpure : signature.isPure with
    | true =>
      have hnone : (signature.roles.zip arguments).filter (fun item => item.1 = .place) = [] :=
        List.filter_eq_nil_iff.mpr fun item hitem => by
          simp [roles_of_isPure hpure item.1 (List.of_mem_zip hitem).1]
      rw [writtenBy_call hsignature hlength, hnone]
      cases result <;> simp
    | false =>
      refine List.pairwise_iff_forall_sublist.mpr fun {first second} hsublist below hbelow => ?_
      rw [houtlines.loose_eq_nil hfree hstatement hsignature hpure (hsublist.subset (by simp))]
        at hbelow
      cases hbelow

end Outlines

end Program

end ShaderIR
