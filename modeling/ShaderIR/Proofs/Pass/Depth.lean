import ShaderIR.Pass.Edit
import ShaderIR.Proofs.Node.Children
import ShaderIR.Proofs.Outline.Lists
import ShaderIR.Proofs.Rows

/-!
How deep expressions nest. `Program.Fits` says that an expression nests less than a budget,
`FitsPlace` that the indices of an lvalue do, and `FitsStatement` that all operands of a statement
nest less than a limit: a pass that counts its descent against this limit gets through such a
statement.

An edit that replaces operands by reads of variables makes nothing deeper. `Program.Trims` is what
such edits keep, node by node, and `Program.Trims.fitsStatement` says that statements that fit still
fit after them. The arena may hold cycles; a node on one fits no budget.
-/

set_option autoImplicit false

namespace ShaderIR

/-! ### Nodes after an edit -/

/-- The nodes differ in the ids of their children and in the lists that they own, and in nothing
else. -/
inductive Node.Resembles : Node → Node → Prop
  | alike {node node' : Node} (halike : node.Alike node') : Resembles node node'
  | branch (condition condition' : NodeId) (thenBody thenBody' elseBody elseBody' : List NodeId) :
    Resembles (.branch condition thenBody elseBody) (.branch condition' thenBody' elseBody')
  | loop (body body' : List NodeId) : Resembles (.loop body) (.loop body')

namespace Node

variable {node node' node'' : Node}

theorem Resembles.trans (hfirst : Resembles node node') (hsecond : Resembles node' node'') :
    Resembles node node'' := by
  cases hfirst with
  | alike hfirst =>
    cases hsecond with
    | alike hsecond => exact .alike (hfirst.trans hsecond)
    | branch => cases hfirst; exact .branch ..
    | loop => cases hfirst; exact .loop ..
  | branch =>
    cases hsecond with
    | alike hsecond => cases hsecond; exact .branch ..
    | branch => exact .branch ..
  | loop =>
    cases hsecond with
    | alike hsecond => cases hsecond; exact .loop ..
    | loop => exact .loop ..

theorem resembles_withBody (node : Node) (ref : ListRef) (statements : List NodeId) :
    Resembles node (node.withBody ref statements) := by
  unfold withBody
  split
  · exact .branch ..
  · exact .branch ..
  · exact .loop ..
  · exact .alike (.refl _)

theorem Resembles.lists_eq (hresembles : Resembles node node') (id : NodeId) :
    node.lists id = node'.lists id := by
  cases hresembles with
  | alike halike => exact halike.lists_eq id
  | branch => rfl
  | loop => rfl

theorem Resembles.exists_branch {condition : NodeId} {thenBody elseBody : List NodeId}
    (hresembles : Resembles (.branch condition thenBody elseBody) node') :
    ∃ condition' thenBody' elseBody', node' = .branch condition' thenBody' elseBody' := by
  cases hresembles with
  | alike halike => cases halike; exact ⟨_, _, _, rfl⟩
  | branch => exact ⟨_, _, _, rfl⟩

theorem Resembles.exists_loop {body : List NodeId} (hresembles : Resembles (.loop body) node') :
    ∃ body', node' = .loop body' := by
  cases hresembles with
  | alike halike => cases halike; exact ⟨_, rfl⟩
  | loop => exact ⟨_, rfl⟩

/-- A node that owns no lists resembles only nodes that are alike. -/
theorem Resembles.toAlike (hresembles : Resembles node node')
    (hlists : ∀ id, node.lists id = []) : node.Alike node' := by
  cases hresembles with
  | alike halike => exact halike
  | branch => simp [Node.lists] at hlists
  | loop => simp [Node.lists] at hlists

end Node

namespace Program

variable {program program' program'' : Program} {budget limit : Nat} {id : NodeId}

/-! ### Depth -/

/-- The expression nests less than `budget` levels. -/
def Fits (program : Program) : (budget : Nat) → NodeId → Prop
  | 0, _ => False
  | budget + 1, id => ∃ node, program.node id = .ok node ∧
    ∀ child ∈ node.children, program.Fits budget child

/-- The lvalue and the indices inside it nest less than `budget` levels. -/
def FitsPlace (program : Program) : (budget : Nat) → NodeId → Prop
  | 0, _ => False
  | budget + 1, id => ∃ node, program.node id = .ok node ∧
    match node with
    | .index base place => program.Fits budget place ∧ program.FitsPlace budget base
    | .field record _ => program.FitsPlace budget record
    | _ => True

/-- An argument of a call nests less than `limit` levels. -/
def FitsPassed (program : Program) (limit : Nat) (passed : Param × NodeId) : Prop :=
  if passed.1.mode = .input then program.Fits limit passed.2 else program.FitsPlace limit passed.2

/-- The operands of a statement nest less than `limit` levels. -/
def FitsStatement (program : Program) (limit : Nat) (id : NodeId) : Prop :=
  ∃ node, program.node id = .ok node ∧
    match node with
    | .assign target value _ => program.Fits limit value ∧ program.FitsPlace limit target
    | .call callee arguments result => ∃ signature, program.signature callee = .ok signature ∧
      (∀ passed ∈ signature.params.zip arguments, program.FitsPassed limit passed) ∧
      (signature.isPure → ∀ argument ∈ arguments, program.Fits limit argument) ∧
      ∀ target ∈ result, program.FitsPlace limit target
    | .branch condition _ _ => program.Fits limit condition
    | .ret operand | .discard operand => ∀ value ∈ operand, program.Fits limit value
    | _ => True

/-- If the node is a call, it leaves its arguments alone. -/
def CallsPurely (program : Program) (id : NodeId) : Prop :=
  ∀ callee arguments result, program.node id = .ok (.call callee arguments result) →
    ∃ signature, program.signature callee = .ok signature ∧ signature.isPure

/-- The node is a read of a variable. -/
def Reads (program : Program) (id : NodeId) : Prop :=
  ∃ read, program.node id = .ok (.variable read)

theorem FitsStatement.lt_size (hfits : program.FitsStatement limit id) :
    id.index < program.nodes.size := by
  obtain ⟨node, hnode, -⟩ := hfits
  exact lt_size_of_node hnode

theorem Fits.pos (hfits : program.Fits budget id) : 0 < budget := by
  cases budget with
  | zero => exact hfits.elim
  | succ budget => exact budget.succ_pos

theorem FitsPlace.pos (hfits : program.FitsPlace budget id) : 0 < budget := by
  cases budget with
  | zero => exact hfits.elim
  | succ budget => exact budget.succ_pos

theorem Fits.mono (hfits : program.Fits budget id) (hle : budget ≤ limit) :
    program.Fits limit id := by
  induction budget generalizing id limit with
  | zero => exact hfits.elim
  | succ budget ih =>
    obtain ⟨limit, rfl⟩ : ∃ less, limit = less + 1 := ⟨limit - 1, by omega⟩
    obtain ⟨node, hnode, hchildren⟩ := hfits
    exact ⟨node, hnode, fun child hchild => ih (hchildren child hchild) (by omega)⟩

theorem FitsPlace.mono (hfits : program.FitsPlace budget id) (hle : budget ≤ limit) :
    program.FitsPlace limit id := by
  induction budget generalizing id limit with
  | zero => exact hfits.elim
  | succ budget ih =>
    obtain ⟨limit, rfl⟩ : ∃ less, limit = less + 1 := ⟨limit - 1, by omega⟩
    obtain ⟨node, hnode, hparts⟩ := hfits
    refine ⟨node, hnode, ?_⟩
    cases node with
    | index base place => exact ⟨hparts.1.mono (by omega), ih hparts.2 (by omega)⟩
    | field record number => exact ih hparts (by omega)
    | _ => trivial

theorem Reads.fits (hreads : program.Reads id) (hpos : 0 < limit) : program.Fits limit id := by
  obtain ⟨limit, rfl⟩ : ∃ less, limit = less + 1 := ⟨limit - 1, by omega⟩
  obtain ⟨read, hnode⟩ := hreads
  exact ⟨_, hnode, by simp [Node.children]⟩

theorem Reads.fitsPlace (hreads : program.Reads id) (hpos : 0 < limit) :
    program.FitsPlace limit id := by
  obtain ⟨limit, rfl⟩ : ∃ less, limit = less + 1 := ⟨limit - 1, by omega⟩
  obtain ⟨read, hnode⟩ := hreads
  exact ⟨_, hnode, trivial⟩

theorem Reads.setNode {node node' : Node} {read : NodeId} (hnode : program.node id = .ok node)
    (hresembles : node.Resembles node') (hreads : program.Reads read) :
    (program.setNode id node').Reads read := by
  obtain ⟨held, hread⟩ := hreads
  by_cases hid : read = id
  · subst hid
    obtain rfl := Except.ok.inj (hnode.symm.trans hread)
    cases hresembles.toAlike fun _ => rfl
    exact ⟨held, node_setNode_self _ _ (lt_size_of_node hnode)⟩
  · exact ⟨held, (node_setNode_of_ne _ _ hid).trans hread⟩

theorem Reads.withNode {read : NodeId} (hreads : program.Reads read) (node : Node) :
    (program.withNode node).Reads read := by
  obtain ⟨held, hread⟩ := hreads
  exact ⟨held, (node_withNode_of_lt _ _ (lt_size_of_node hread)).trans hread⟩

/-- The node writes a whole place. -/
def WritesWhole (program : Program) (id : NodeId) : Prop :=
  ∃ target value, program.node id = .ok (.assign target value 0)

theorem setNode_self {node : Node} (hnode : program.node id = .ok node) :
    program.setNode id node = program := by
  obtain ⟨hlt, rfl⟩ := Array.getElem?_eq_some_iff.mp (node_eq_ok_iff.mp hnode)
  have hnodes : program.nodes.setIfInBounds id.index program.nodes[id.index] = program.nodes := by
    simp [Array.setIfInBounds, hlt]
  rw [Program.setNode, hnodes]

/-! ### Edits that make nothing deeper -/

/-- The child is what it was, or a read of a variable has taken its place. -/
def Keeps (program : Program) (child child' : NodeId) : Prop :=
  child' = child ∨ program.Reads child'

/-- Nodes have at most lost children to reads of variables, and changed in the lists that they own;
nodes and variables have been added. -/
structure Trims (program program' : Program) : Prop where
  signatures : program'.signatures = program.signatures
  declared : ∀ id found, program.variableOf id = .ok found → program'.variableOf id = .ok found
  size : program.nodes.size ≤ program'.nodes.size
  node : ∀ id node, program.node id = .ok node → ∃ node', program'.node id = .ok node' ∧
    node.Resembles node' ∧ List.Forall₂ program'.Keeps node.children node'.children

theorem Keeps.fits {child child' : NodeId} (hkeeps : program.Keeps child child')
    (hfits : program.Fits budget child) : program.Fits budget child' := by
  rcases hkeeps with rfl | hreads
  · exact hfits
  · exact hreads.fits hfits.pos

theorem Keeps.fitsPlace {child child' : NodeId} (hkeeps : program.Keeps child child')
    (hfits : program.FitsPlace budget child) : program.FitsPlace budget child' := by
  rcases hkeeps with rfl | hreads
  · exact hfits
  · exact hreads.fitsPlace hfits.pos

theorem exists_node_of_lt (hid : id.index < program.nodes.size) :
    ∃ node, program.node id = .ok node :=
  ⟨_, node_eq_ok_iff.mpr (Array.getElem?_eq_getElem hid)⟩

theorem Keeps.trans {child child' child'' : NodeId} (hfirst : program.Keeps child child')
    (hsecond : program.Keeps child' child'') : program.Keeps child child'' := by
  rcases hsecond with rfl | hreads
  · exact hfirst
  · exact Or.inr hreads

theorem forall₂_keeps_trans {children children' children'' : List NodeId}
    (hfirst : List.Forall₂ program.Keeps children children')
    (hsecond : List.Forall₂ program.Keeps children' children'') :
    List.Forall₂ program.Keeps children children'' := by
  induction hfirst generalizing children'' with
  | nil => exact hsecond
  | cons hkept _ ih =>
    obtain ⟨child'', rest'', hkept', hrest, rfl⟩ := List.forall₂_cons_left_iff.mp hsecond
    exact .cons (hkept.trans hkept') (ih hrest)

theorem Trims.refl (program : Program) : program.Trims program where
  signatures := rfl
  declared _ _ := id
  size := le_rfl
  node _ node hnode :=
    ⟨node, hnode, .alike (.refl node), List.forall₂_same.mpr fun _ _ => Or.inl rfl⟩

namespace Trims

variable (htrims : program.Trims program')

include htrims

theorem reads (hreads : program.Reads id) : program'.Reads id := by
  obtain ⟨read, hnode⟩ := hreads
  obtain ⟨node', hnode', hresembles, -⟩ := htrims.node id _ hnode
  cases hresembles.toAlike fun _ => rfl
  exact ⟨read, hnode'⟩

theorem keeps {child child' : NodeId} (hkeeps : program.Keeps child child') :
    program'.Keeps child child' :=
  hkeeps.imp id htrims.reads

theorem writesWhole (hwrites : program.WritesWhole id) : program'.WritesWhole id := by
  obtain ⟨target, value, hnode⟩ := hwrites
  obtain ⟨node', hnode', hresembles, -⟩ := htrims.node id _ hnode
  cases hresembles.toAlike fun _ => rfl
  exact ⟨_, _, hnode'⟩

theorem signature_eq (callee : SignatureId) :
    program'.signature callee = program.signature callee := by
  rw [signature, signature, htrims.signatures]

theorem fits (hfits : program.Fits budget id) : program'.Fits budget id := by
  induction budget generalizing id with
  | zero => exact hfits.elim
  | succ budget ih =>
    obtain ⟨node, hnode, hchildren⟩ := hfits
    obtain ⟨node', hnode', -, hkeeps⟩ := htrims.node id node hnode
    refine ⟨node', hnode', fun child' hchild' => ?_⟩
    obtain ⟨child, hchild, hkept⟩ := exists_of_forall₂ hkeeps.flip hchild'
    exact Keeps.fits hkept (ih (hchildren child hchild))

theorem fitsPlace (hfits : program.FitsPlace budget id) : program'.FitsPlace budget id := by
  induction budget generalizing id with
  | zero => exact hfits.elim
  | succ budget ih =>
    obtain ⟨node, hnode, hparts⟩ := hfits
    obtain ⟨node', hnode', hresembles, hkeeps⟩ := htrims.node id node hnode
    refine ⟨node', hnode', ?_⟩
    cases hresembles with
    | branch | loop => trivial
    | alike halike =>
      cases halike with
      | index base place base' place' =>
        obtain ⟨hbase, hplace⟩ : program'.Keeps base base' ∧ program'.Keeps place place' := by
          simpa [Node.children] using hkeeps
        exact ⟨hplace.fits (htrims.fits hparts.1), hbase.fitsPlace (ih hparts.2)⟩
      | field record record' =>
        have hrecord : program'.Keeps record record' := by simpa [Node.children] using hkeeps
        exact hrecord.fitsPlace (ih hparts)
      | _ => trivial

theorem fitsPassed {param : Param} {argument argument' : NodeId}
    (hkeeps : program'.Keeps argument argument')
    (hfits : program.FitsPassed limit (param, argument)) :
    program'.FitsPassed limit (param, argument') := by
  unfold FitsPassed at hfits ⊢
  split at hfits
  · next hmode => exact (if_pos hmode).mpr (hkeeps.fits (htrims.fits hfits))
  · next hmode => exact (if_neg hmode).mpr (hkeeps.fitsPlace (htrims.fitsPlace hfits))

theorem fitsStatement (hfits : program.FitsStatement limit id) :
    program'.FitsStatement limit id := by
  obtain ⟨node, hnode, hparts⟩ := hfits
  obtain ⟨node', hnode', hresembles, hkeeps⟩ := htrims.node id node hnode
  refine ⟨node', hnode', ?_⟩
  cases hresembles with
  | branch condition condition' =>
    have hcondition : program'.Keeps condition condition' := by simpa [Node.children] using hkeeps
    exact hcondition.fits (htrims.fits hparts)
  | loop => trivial
  | alike halike =>
    cases halike with
    | assign target value target' value' =>
      obtain ⟨hvalue, htarget⟩ : program'.Keeps value value' ∧ program'.Keeps target target' := by
        simpa [Node.children] using hkeeps
      exact ⟨hvalue.fits (htrims.fits hparts.1), htarget.fitsPlace (htrims.fitsPlace hparts.2)⟩
    | call callee arguments arguments' result result' hlength =>
      obtain ⟨signature, hsignature, hpassed, hpure, hresult⟩ := hparts
      obtain ⟨harguments, hplaces⟩ := forall₂_of_append hkeeps hlength
      refine ⟨signature, (htrims.signature_eq callee).trans hsignature, fun passed' hmem => ?_,
        fun hcallsPurely argument' hmem => ?_, fun target' hmem => ?_⟩
      · obtain ⟨argument, hargument, hkept⟩ := exists_mem_zip_of_forall₂ harguments hmem
        exact htrims.fitsPassed hkept (hpassed _ hargument)
      · obtain ⟨argument, hargument, hkept⟩ := exists_of_forall₂ harguments.flip hmem
        exact Keeps.fits hkept (htrims.fits (hpure hcallsPurely argument hargument))
      · obtain ⟨target, htarget, hkept⟩ :=
          exists_of_forall₂ hplaces.flip (Option.mem_toList.mpr hmem)
        exact Keeps.fitsPlace hkept
          (htrims.fitsPlace (hresult target (Option.mem_toList.mp htarget)))
    | branch condition condition' =>
      have hcondition : program'.Keeps condition condition' := by simpa [Node.children] using hkeeps
      exact hcondition.fits (htrims.fits hparts)
    | ret operand operand' | discard operand operand' =>
      intro value' hmem
      obtain ⟨value, hvalue, hkept⟩ := exists_of_forall₂ hkeeps.flip (Option.mem_toList.mpr hmem)
      exact Keeps.fits hkept (htrims.fits (hparts value (Option.mem_toList.mp hvalue)))
    | _ => trivial

theorem callsPurely (hid : id.index < program.nodes.size) (hpurely : program.CallsPurely id) :
    program'.CallsPurely id := by
  intro callee arguments' result' hnode'
  obtain ⟨node, hnode⟩ := exists_node_of_lt hid
  obtain ⟨found, hfound, hresembles, -⟩ := htrims.node id node hnode
  obtain rfl := Except.ok.inj (hfound.symm.trans hnode')
  cases hresembles with
  | alike halike =>
    cases halike with
    | call =>
      rw [htrims.signature_eq]
      exact hpurely _ _ _ hnode

theorem trans (hsecond : program'.Trims program'') : program.Trims program'' where
  signatures := hsecond.signatures.trans htrims.signatures
  declared id found hfound := hsecond.declared id found (htrims.declared id found hfound)
  size := htrims.size.trans hsecond.size
  node id node hnode := by
    obtain ⟨node', hnode', hresembles, hkeeps⟩ := htrims.node id node hnode
    obtain ⟨node'', hnode'', hresembles', hkeeps'⟩ := hsecond.node id node' hnode'
    exact ⟨node'', hnode'', hresembles.trans hresembles', forall₂_keeps_trans
      (hkeeps.imp fun _ _ => hsecond.keeps) hkeeps'⟩

/-- Overwriting a node makes nothing deeper if its children are kept from the program before earlier
edits. -/
theorem setNode {node node' node'' : Node} (hnode : program.node id = .ok node)
    (hcurrent : program'.node id = .ok node') (hresembles : node'.Resembles node'')
    (hkeeps : List.Forall₂ program'.Keeps node.children node''.children) :
    program.Trims (program'.setNode id node'') := by
  have hreads : ∀ other, program'.Reads other → (program'.setNode id node'').Reads other :=
    fun other => Reads.setNode hcurrent hresembles
  refine ⟨htrims.signatures, htrims.declared, by simpa [Program.setNode] using htrims.size,
    fun other found hfound => ?_⟩
  obtain ⟨found', hfound', hresembles', hkeeps'⟩ := htrims.node other found hfound
  by_cases hother : other = id
  · subst hother
    obtain rfl := Except.ok.inj (hnode.symm.trans hfound)
    obtain rfl := Except.ok.inj (hcurrent.symm.trans hfound')
    exact ⟨node'', node_setNode_self _ _ (lt_size_of_node hcurrent), hresembles'.trans hresembles,
      hkeeps.imp fun _ child' => Or.imp_right (hreads child')⟩
  · exact ⟨found', (node_setNode_of_ne _ _ hother).trans hfound', hresembles',
      hkeeps'.imp fun _ child' => Or.imp_right (hreads child')⟩

theorem withNode (node : Node) : program.Trims (program'.withNode node) :=
  htrims.trans {
    signatures := rfl
    declared := fun _ _ => id
    size := by simp
    node := fun id found hfound => ⟨found,
      (node_withNode_of_lt _ _ (lt_size_of_node hfound)).trans hfound, .alike (.refl _),
      List.forall₂_same.mpr fun _ _ => Or.inl rfl⟩ }

theorem withTemporary (ty : Ty) : program.Trims (program'.withTemporary ty) :=
  htrims.trans {
    signatures := rfl
    declared := fun id found hfound => by
      obtain ⟨hlt, -⟩ := Array.getElem?_eq_some_iff.mp (variableOf_eq_ok_iff.mp hfound)
      refine variableOf_eq_ok_iff.mpr (Eq.trans ?_ (variableOf_eq_ok_iff.mp hfound))
      exact (Array.getElem?_push_lt hlt).trans (Array.getElem?_eq_getElem hlt).symm
    size := le_rfl
    node := (Trims.refl program').node }

end Trims

theorem trims_setList {ref : ListRef} {statements replaced : List NodeId}
    (hset : program.setList ref replaced = .ok program')
    (hlist : program.list ref = .ok statements) :
    program.Trims program' := by
  rcases exists_of_setList hset hlist with ⟨rfl, rfl⟩ | ⟨owner, node, hnode, -, rfl⟩
  · exact ⟨rfl, fun _ _ => id, le_rfl, (Trims.refl program).node⟩
  · refine (Trims.refl program).setNode hnode hnode (node.resembles_withBody ..) ?_
    rw [Node.children_withBody]
    exact List.forall₂_same.mpr fun _ _ => Or.inl rfl

end Program

end ShaderIR
