import ShaderIR.Proofs.Outline.Forests

/-!
Which programs the structural check accepts, in terms of references. `Program.Forest` asks for the
shape, and `Program.Lawful` for what each node may refer to. A program that is accepted is a lawful
forest, and a lawful forest is accepted unless it masks lanes of a vector of eight lanes or more,
whose full mask has no bits for them (`Program.accepts_lawful_forests`).
-/

set_option autoImplicit false

namespace ShaderIR

open Relation

/-! ### Masks and places -/

namespace Ty

theorem fullMask_eq (ty : Ty) : ty.fullMask = 1 <<< ty.lanes - 1 := by
  cases ty with
  | vector => rfl
  | _ => exact (by decide : (0 : UInt8) = (1 : UInt8) <<< (0 : UInt8) - 1)

theorem testBit_fullMask (ty : Ty) (lane : Nat) :
    ty.fullMask.toNat.testBit lane = decide (lane < ty.lanes.toNat % 8) := by
  have hsize : 2 ^ (ty.lanes.toNat % 8) < 2 ^ 8 :=
    Nat.pow_lt_pow_right (by decide) (Nat.mod_lt _ (by decide))
  have hmask : ty.fullMask.toNat = 2 ^ (ty.lanes.toNat % 8) - 1 := by
    have hshift : (1 <<< ty.lanes : UInt8).toNat = 2 ^ (ty.lanes.toNat % 8) := by
      simpa [UInt8.toNat_shiftLeft, Nat.one_shiftLeft] using hsize
    rw [fullMask_eq, UInt8.toNat_sub_of_le, hshift]
    · rfl
    · rw [UInt8.le_iff_toNat_le, hshift]
      exact Nat.one_le_two_pow
  rw [hmask, Nat.testBit_two_pow_sub_one]

/-- A mask has no bit beside the full one if all of its bits stand for lanes. -/
theorem and_not_fullMask_eq_zero_iff (ty : Ty) (mask : UInt8) : mask &&& ~~~ty.fullMask = 0 ↔
    ∀ lane, mask.toNat.testBit lane = true → lane < ty.lanes.toNat % 8 := by
  have hbit (lane : Nat) : (mask &&& ~~~ty.fullMask).toBitVec.getLsbD lane =
      (mask.toNat.testBit lane && (decide (lane < 8) && !decide (lane < ty.lanes.toNat % 8))) := by
    rw [← testBit_fullMask]
    rw [UInt8.toBitVec_and, UInt8.toBitVec_not, BitVec.getLsbD_and, BitVec.getLsbD_not]
    simp only [← BitVec.testBit_toNat, UInt8.toNat_toBitVec]
  have hwidth {lane : Nat} (hlane : mask.toNat.testBit lane = true) : lane < 8 := by
    by_contra hle
    have hlt : mask.toNat < 2 ^ lane :=
      mask.toNat_lt.trans_le (Nat.pow_le_pow_right (by decide) (Nat.le_of_not_lt hle))
    rw [Nat.testBit_lt_two_pow hlt] at hlane
    cases hlane
  rw [← UInt8.toBitVec_inj]
  constructor
  · intro hzero lane hlane
    have hclear := hbit lane
    rw [hzero, hlane] at hclear
    simpa [hwidth hlane] using hclear
  · intro hlanes
    refine BitVec.eq_of_getLsbD_eq fun lane _ => ?_
    rw [hbit]
    cases hlane : mask.toNat.testBit lane with
    | false => simp
    | true => simp [hlanes lane hlane]

end Ty

namespace Program

/-- A variable, or a part of one. -/
inductive PlaceChain (program : Program) : NodeId → Prop
  | variable {id : NodeId} {read : VarId} (hnode : program.node id = .ok (.variable read)) :
      PlaceChain program id
  | index {id base place : NodeId} (hnode : program.node id = .ok (.index base place))
    (hbase : PlaceChain program base) : PlaceChain program id
  | field {id record : NodeId} {number : Nat} (hnode : program.node id = .ok (.field record number))
    (hrecord : PlaceChain program record) : PlaceChain program id

/-- What the check asks of a node, beside the shape of the references. -/
def NodeLaw (program : Program) : Node → Prop
  | .variable read => read.index < program.vars.size
  | .apply op operands _ => op.arity = operands.length
  | .assign target _ mask =>
    program.PlaceChain target ∧ (mask ≠ 0 →
      ∃ ty, program.typeOf target = .ok ty ∧ ∀ lane, mask.toNat.testBit lane = true →
        lane < ty.lanes.toNat)
  | .call callee arguments result =>
    ∃ signature, program.signature callee = .ok signature ∧
      signature.params.length = arguments.length ∧
      (∀ param argument,
        (param, argument) ∈ signature.params.zip arguments → param.mode.writes = true →
        program.PlaceChain argument) ∧
      ∀ place ∈ result, program.PlaceChain place ∧ signature.returnTy ≠ .void
  | .branch condition _ _ => program.typeOf condition = .ok .bool
  | _ => True

/-- Lists hold statements, no node refers to a statement as its child, and each node that can be
reached is lawful. -/
structure Lawful (program : Program) : Prop where
  listed : ∀ ref place id node, program.Refers id (.listed ref place) → program.node id = .ok node →
    node.isStatement = true
  operand : ∀ owner place id node,
    program.Refers id (.operand owner place) → program.node id = .ok node →
    node.isStatement = false
  node : ∀ id node, program.Reachable id → program.node id = .ok node → program.NodeLaw node

/-- Masked targets are vectors of fewer than eight lanes. -/
def NarrowTargets (program : Program) : Prop :=
  ∀ id target value mask ty, program.Reachable id →
    program.node id = .ok (.assign target value mask) → mask ≠ 0 →
    program.typeOf target = .ok ty → ty.lanes < 8

variable {program : Program} {id : NodeId} {slot : Slot} {code : Code}

theorem Draws.isPlace_iff {tree : Tree} (hdraws : program.Draws tree) :
    tree.isPlace = true ↔ program.PlaceChain tree.id := by
  constructor
  · intro hplace
    induction hdraws with
    | @intro id node children hnode hchildren _ ih =>
      rw [Tree.isPlace, Tree.fold_mk, ← Tree.isPlace] at hplace
      cases node with
      | «variable» => exact .variable hnode
      | index =>
        obtain ⟨base, place, rfl, rfl, rfl⟩ := Tree.exists_pair_of_ids hchildren
        exact .index hnode (ih base List.mem_cons_self hplace)
      | field =>
        obtain ⟨record, rfl, rfl⟩ := Tree.exists_single_of_ids hchildren
        exact .field hnode (ih record List.mem_cons_self hplace)
      | _ => cases hplace
  · intro hchain
    generalize hid : tree.id = id at hchain
    induction hchain generalizing tree with
    | «variable» hnode =>
      subst hid
      obtain ⟨id, node, children⟩ := tree
      obtain rfl := Except.ok.inj (hdraws.node_eq.symm.trans hnode)
      rw [Tree.isPlace, Tree.fold_mk]
    | index hnode _ ih =>
      subst hid
      obtain ⟨id, node, children⟩ := tree
      obtain rfl := Except.ok.inj (hdraws.node_eq.symm.trans hnode)
      obtain ⟨base, place, rfl, rfl, rfl⟩ := Tree.exists_pair_of_ids hdraws.children_eq
      rw [Tree.isPlace, Tree.fold_mk, ← Tree.isPlace]
      exact ih (hdraws.child List.mem_cons_self) rfl
    | field hnode _ ih =>
      subst hid
      obtain ⟨id, node, children⟩ := tree
      obtain rfl := Except.ok.inj (hdraws.node_eq.symm.trans hnode)
      obtain ⟨record, rfl, rfl⟩ := Tree.exists_single_of_ids hdraws.children_eq
      rw [Tree.isPlace, Tree.fold_mk, ← Tree.isPlace]
      exact ih (hdraws.child List.mem_cons_self) rfl

/-! ### Outlined programs -/

theorem Lists.reachable {ref : ListRef} {statements : List NodeId}
    (hlists : program.Lists ref statements) :
    ∀ id ∈ statements, program.Reachable id := by
  induction hlists with
  | root => exact fun id hid => .root hid
  | nested _ howner hnode hinner hlist ih =>
    exact fun id hid => .nested (ih _ howner) hnode hinner hlist hid

namespace Outlines

variable (houtlines : program.Outlines code)

include houtlines

theorem fills_iff : program.Fills id slot ↔ program.Refers id slot := by
  constructor
  · rintro (⟨hlists, hid⟩ | ⟨howner, hnode, hid⟩)
    · refine ⟨fun owner howner => ?_, .listed hlists.list_eq hid⟩
      cases hlists with
      | root => cases howner
      | nested houter hmem hnode hinner hlist =>
        obtain rfl := Option.some.inj ((ListRef.owner?_of_mem_lists hinner).symm.trans howner)
        exact houter.reachable _ hmem
    · exact ⟨fun owner hfound => Option.some.inj hfound ▸ howner, .operand hnode hid⟩
  · rintro ⟨hreachable, ⟨hlist, hid⟩ | ⟨hnode, hid⟩⟩
    · rcases exists_owner_of_list hlist with ⟨rfl, rfl⟩ | ⟨owner, node, hnode, href, -⟩
      · exact .listed .root hid
      · have howner := hreachable owner (ListRef.owner?_of_mem_lists href)
        obtain ⟨slot, hslot⟩ := houtlines.exists_slot howner
        exact .listed (houtlines.lists_of_fills hslot howner hnode href hlist) hid
    · exact .operand (hreachable _ rfl) hnode hid

/-- The references of an outlined program make a forest. -/
theorem forest : program.Forest where
  inside id hreachable := by
    obtain ⟨tree, hcontains, rfl⟩ := houtlines.exists_of_reachable hreachable
    exact lt_size_of_node (houtlines.draws_of_contains hcontains).node_eq
  referred id hreachable := by
    simpa only [houtlines.fills_iff] using houtlines.existsUnique_slot hreachable
  acyclic id hreachable := by
    refine acyclic_of_referred (fun id slot slot' hrefers hrefers' => ?_) hreachable
    exact (houtlines.existsUnique_slot hrefers.target).unique (houtlines.fills_iff.mpr hrefers)
      (houtlines.fills_iff.mpr hrefers')

/-- What stands among the children of a node is no statement. -/
theorem isStatement_of_operand {owner : NodeId} {place : Nat} {node : Node}
    (hfills : program.Fills id (.operand owner place)) (hnode : program.node id = .ok node) :
    node.isStatement = false := by
  refine Bool.eq_false_iff.mpr fun hstatement => ?_
  obtain ⟨tree, hcontains, rfl⟩ :=
    houtlines.exists_of_reachable (houtlines.fills_iff.mp hfills).target
  obtain rfl := Except.ok.inj ((houtlines.draws_of_contains hcontains).node_eq.symm.trans hnode)
  have hlisted := List.mem_map_of_mem (f := Tree.id)
    (houtlines.mem_statements_of_isStatement hcontains hstatement)
  exact houtlines.not_operand_of_mem_order hlisted hfills

/-- What stands in a list is a statement. -/
theorem isStatement_of_listed {ref : ListRef} {place : Nat} {node : Node}
    (hfills : program.Fills id (.listed ref place)) (hnode : program.node id = .ok node) :
    node.isStatement = true := by
  cases hfills with
  | listed hlists hid =>
    have horder :=
      Code.mem_order_of_mem_lists (hlists.mem_lists houtlines) (List.mem_of_getElem? hid)
    obtain ⟨statement, hstatement, rfl⟩ := List.mem_map.mp horder
    obtain rfl :=
      Except.ok.inj ((houtlines.draws.statement statement hstatement).node_eq.symm.trans hnode)
    exact (houtlines.sound statement hstatement).isStatement

theorem soundNode_of_contains {tree : Tree} (hcontains : code.Contains tree)
    (hoperand : tree.node.isStatement = false) : program.SoundNode tree := by
  obtain ⟨statement, hstatement, htree⟩ := hcontains
  rcases Tree.eq_or_mem_of_mem_subtrees htree with rfl | ⟨operand, hmem, htree⟩
  · exact absurd ((houtlines.sound tree hstatement).isStatement.symm.trans hoperand) nofun
  · exact houtlines.operands statement hstatement operand hmem tree htree

end Outlines

/-- A sound statement with the types that it relies on is as it should be. -/
theorem nodeLaw_of_checks {statement : Tree}
    (hdraws : program.Draws statement) (hnodup : statement.ids.Nodup)
    (hchecks : program.Checks statement) : program.NodeLaw statement.node := by
  obtain ⟨hsound, -, hsuits⟩ := hchecks
  have hchain {operand : Tree} (hoperand : operand ∈ statement.children)
      (hplace : operand.isPlace = true) :
      program.PlaceChain operand.id := (hdraws.child hoperand).isPlace_iff.mp hplace
  have htype {operand : Tree} (hoperand : operand ∈ statement.children) {ty : Ty}
      (hty : operand.ty? program = some ty) : program.typeOf operand.id = .ok ty := by
    refine ((hdraws.child hoperand).typeOf_eq_ok_iff
      (hnodup.sublist (Tree.ids_sublist_of_mem ?_))).mpr hty
    exact Tree.mem_subtrees_of_mem_children hoperand operand.mem_subtrees_self
  cases hsound with
  | assign id target value mask hplace =>
    refine ⟨hchain (by simp) hplace, fun hmask => ?_⟩
    obtain ⟨ty, hty, hfull⟩ := hsuits hmask
    exact ⟨ty, htype (by simp) hty, fun lane hlane =>
      ((ty.and_not_fullMask_eq_zero_iff mask).mp hfull lane hlane).trans_le (Nat.mod_le _ _)⟩
  | call id callee arguments result signature hsignature hlength hwritten hresult =>
    refine ⟨signature, hsignature, by simpa using hlength, fun param argument hmem hwrites => ?_,
      fun place hplace => ?_⟩
    · rw [List.zip_map_right] at hmem
      obtain ⟨passed, hpassed, hsame⟩ := List.mem_map.mp hmem
      obtain ⟨rfl, rfl⟩ := Prod.mk.inj hsame
      exact hchain (List.mem_append_left _ (List.of_mem_zip hpassed).2)
        (hwritten _ _ hpassed hwrites)
    · obtain ⟨place, rfl, rfl⟩ := Option.map_eq_some_iff.mp hplace
      exact ⟨hchain (by simp) (hresult place rfl), hsuits signature hsignature⟩
  | branch id condition thenBody elseBody => exact htype (by simp) hsuits
  | loop | ret | discard => trivial

/-- A program that is accepted keeps the laws. -/
theorem Outlines.lawful (houtlines : program.Outlines code)
    (hsuits : ∀ statement ∈ code.statements, program.Suits statement) : program.Lawful where
  listed ref place id node hrefers hnode :=
    houtlines.isStatement_of_listed (houtlines.fills_iff.mpr hrefers) hnode
  operand owner place id node hrefers hnode :=
    houtlines.isStatement_of_operand (houtlines.fills_iff.mpr hrefers) hnode
  node id node hreachable hnode := by
    obtain ⟨tree, hcontains, rfl⟩ := houtlines.exists_of_reachable hreachable
    have hdraws := houtlines.draws_of_contains hcontains
    obtain rfl := Except.ok.inj (hdraws.node_eq.symm.trans hnode)
    cases hkind : tree.node.isStatement with
    | true =>
      have hstatement := houtlines.mem_statements_of_isStatement hcontains hkind
      exact nodeLaw_of_checks hdraws (houtlines.nodup_of_contains hcontains)
        ⟨houtlines.sound tree hstatement, houtlines.operands tree hstatement,
          hsuits tree hstatement⟩
    | false =>
      have hsound := houtlines.soundNode_of_contains hcontains hkind
      cases hfound : tree.node with
      | «variable» read => exact hsound.variable_lt read hfound
      | apply op operands ty => exact hsound.arity op operands ty hfound
      | assign | call | branch | loop | ret | discard => exact absurd (hfound ▸ hkind) nofun
      | _ => trivial

/-! ### Statements that keep the law -/

section

variable {node : Node} {children : List Tree} (hids : children.map Tree.id = node.children)
  (hdrawn : ∀ child ∈ children, program.Draws child) (hlaw : program.NodeLaw node)
  (hstatement : node.isStatement = true)

include hids hdrawn hlaw hstatement

/-- The operands of a lawful statement stand where they may. -/
theorem sound_of_nodeLaw (id : NodeId) : program.Sound ⟨id, node, children⟩ := by
  have hplace {child : Tree} (hchild : child ∈ children) (hchain : program.PlaceChain child.id) :
      child.isPlace = true :=
    (hdrawn child hchild).isPlace_iff.mpr hchain
  cases node with
  | assign target value mask =>
    obtain ⟨value, target, rfl, rfl, rfl⟩ := Tree.exists_pair_of_ids hids.symm
    exact .assign id target value mask (hplace (by simp) hlaw.1)
  | call callee arguments result =>
    obtain ⟨signature, hsignature, hlength, hwritten, hresult⟩ := hlaw
    obtain ⟨passed, places, rfl, rfl, hplaces⟩ := List.map_eq_append_iff.mp hids
    have hargument : ∀ param argument,
        (param, argument) ∈ signature.params.zip passed → param.mode.writes = true →
        argument.isPlace = true := by
      intro param argument hmem hwrites
      refine hplace (List.mem_append_left _ (List.of_mem_zip hmem).2)
        (hwritten param argument.id ?_ hwrites)
      rw [List.zip_map_right]
      exact List.mem_map_of_mem hmem
    cases result with
    | none =>
      obtain rfl := List.map_eq_nil_iff.mp hplaces
      exact .call id callee passed none signature hsignature (by simpa using hlength)
        hargument (by simp)
    | some place =>
      obtain ⟨place, rfl, rfl⟩ := Tree.exists_single_of_ids hplaces.symm
      exact .call id callee passed (some place) signature hsignature (by simpa using hlength)
        hargument (by simpa using hplace (by simp) (hresult place.id rfl).1)
  | branch condition thenBody elseBody =>
    obtain ⟨condition, rfl, rfl⟩ := Tree.exists_single_of_ids hids.symm
    exact .branch id condition thenBody elseBody
  | loop body =>
    obtain rfl := List.map_eq_nil_iff.mp hids
    exact .loop id body
  | ret operand =>
    cases operand with
    | none =>
      obtain rfl := List.map_eq_nil_iff.mp hids
      exact .ret id none
    | some operand =>
      obtain ⟨operand, rfl, rfl⟩ := Tree.exists_single_of_ids hids.symm
      exact .ret id (some operand)
  | discard operand =>
    cases operand with
    | none =>
      obtain rfl := List.map_eq_nil_iff.mp hids
      exact .discard id none
    | some operand =>
      obtain ⟨operand, rfl, rfl⟩ := Tree.exists_single_of_ids hids.symm
      exact .discard id (some operand)
  | _ => cases hstatement

/-- The operands of a lawful statement have the types that it relies on, unless it masks a wide
vector. -/
theorem suits_of_nodeLaw (id : NodeId)
    (hnarrow : ∀ target value mask ty, node = .assign target value mask → mask ≠ 0 →
      program.typeOf target = .ok ty → ty.lanes < 8) : program.Suits ⟨id, node, children⟩ := by
  cases node with
  | assign target value mask =>
    obtain ⟨value, target, rfl, rfl, rfl⟩ := Tree.exists_pair_of_ids hids.symm
    intro hmask
    obtain ⟨ty, hty, hlanes⟩ := hlaw.2 hmask
    have hfits : ty.lanes.toNat < 8 := hnarrow target.id value.id mask ty rfl hmask hty
    refine ⟨ty, (hdrawn target (by simp)).ty?_of_typeOf hty,
      (ty.and_not_fullMask_eq_zero_iff mask).mpr ?_⟩
    rwa [Nat.mod_eq_of_lt hfits]
  | call callee arguments result =>
    obtain ⟨signature, hsignature, -, -, hresult⟩ := hlaw
    cases result with
    | none => trivial
    | some place =>
      intro found hfound
      obtain rfl := Except.ok.inj (hsignature.symm.trans hfound)
      exact (hresult place rfl).2
  | branch condition thenBody elseBody =>
    obtain ⟨condition, rfl, rfl⟩ := Tree.exists_single_of_ids hids.symm
    exact (hdrawn condition (by simp)).ty?_of_typeOf hlaw
  | loop | ret | discard => trivial
  | _ => cases hstatement

end

/-! ### Lawful forests -/

/-- The arena holds a code, and all of its statements pass. -/
structure ChecksCode (program : Program) (code : Code) : Prop where
  draws : program.DrawsCode code
  checks : ∀ statement ∈ code.statements, program.Checks statement

namespace ChecksCode

theorem nil : program.ChecksCode .nil :=
  ⟨.nil, nofun⟩

/-- If each statement of a list can be put in front of a code that passes, then so can the list. -/
theorem exists_of_forall {statements : List NodeId}
    (hcons : ∀ id ∈ statements, ∀ rest, program.ChecksCode rest →
      ∃ code, program.ChecksCode code ∧ code.heads = id :: rest.heads) :
    ∃ code, program.ChecksCode code ∧ code.heads = statements := by
  induction statements with
  | nil => exact ⟨.nil, .nil, rfl⟩
  | cons first rest ih =>
    obtain ⟨hfirst, hrest⟩ := List.forall_mem_cons.mp hcons
    obtain ⟨later, hlater, rfl⟩ := ih hrest
    exact hfirst later hlater

variable {statement : Tree} {rest : Code} (hdraws : program.Draws statement)
  (hchecks : program.Checks statement) (hrest : program.ChecksCode rest)

include hdraws hchecks hrest

/-- A statement is put in front of a code, with its bodies. -/
theorem exists_cons (hbodies : ∀ ref ∈ statement.node.lists statement.id,
      ∃ body, program.ChecksCode body ∧
      program.list ref = .ok body.heads) :
    ∃ code, program.ChecksCode code ∧ code.heads = statement.id :: rest.heads := by
  have hnode := hdraws.node_eq
  cases hkind : statement.node with
  | branch condition thenBody elseBody =>
    rw [hkind] at hnode hbodies
    obtain ⟨thenCode, hthen, hthenList⟩ := hbodies (.thenBody statement.id) (by simp [Node.lists])
    obtain ⟨elseCode, helse, helseList⟩ := hbodies (.elseBody statement.id) (by simp [Node.lists])
    obtain rfl := Except.ok.inj ((list_thenBody hnode).symm.trans hthenList)
    obtain rfl := Except.ok.inj ((list_elseBody hnode).symm.trans helseList)
    have hcode := DrawsCode.branch hdraws hkind hthen.draws helse.draws hrest.draws
    refine ⟨.branch statement thenCode elseCode rest, ⟨hcode, ?_⟩, rfl⟩
    simp only [Code.statements, List.forall_mem_cons, List.forall_mem_append]
    exact ⟨hchecks, ⟨hthen.checks, helse.checks⟩, hrest.checks⟩
  | loop body =>
    rw [hkind] at hnode hbodies
    obtain ⟨bodyCode, hbody, hlist⟩ := hbodies (.loopBody statement.id) (by simp [Node.lists])
    obtain rfl := Except.ok.inj ((list_loopBody hnode).symm.trans hlist)
    refine ⟨.loop statement bodyCode rest, ⟨.loop hdraws hkind hbody.draws hrest.draws, ?_⟩, rfl⟩
    simp only [Code.statements, List.forall_mem_cons, List.forall_mem_append]
    exact ⟨hchecks, hbody.checks, hrest.checks⟩
  | _ =>
    exact ⟨.step statement rest, ⟨.step hdraws (by rw [hkind]; rfl) hrest.draws,
      List.forall_mem_cons.mpr ⟨hchecks, hrest.checks⟩⟩, rfl⟩

end ChecksCode

section

variable (hforest : program.Forest) (hlawful : program.Lawful)

include hforest hlawful

/-- If the children of a reachable node are trees whenever they are no statements, then they are
trees. -/
theorem Lawful.exists_children {node : Node}
    (hreachable : program.Reachable id) (hnode : program.node id = .ok node)
    (hbelow : ∀ child, program.LeadsTo id child → ∀ operand, program.node child = .ok operand →
      operand.isStatement = false → ∃ tree,
      tree.id = child ∧ program.Draws tree ∧ program.SoundOperand tree) :
    ∃ children : List Tree, children.map Tree.id = node.children ∧
      ∀ tree ∈ children, program.Draws tree ∧ program.SoundOperand tree := by
  refine exists_map_eq_of_forall fun child hchild => ?_
  obtain ⟨place, hplace⟩ := List.mem_iff_getElem?.mp hchild
  have hrefers : program.Refers child (.operand id place) :=
    ⟨fun owner howner => Option.some.inj howner ▸ hreachable, .operand hnode hplace⟩
  obtain ⟨operand, hoperand⟩ := hforest.exists_node hrefers.target
  exact hbelow child (hrefers.leadsTo rfl) operand hoperand
    (hlawful.operand id place child operand hrefers hoperand)

/-- An operand that can be reached is a tree. -/
theorem Lawful.exists_operand : ∀ id, program.Reachable id → ∀ node, program.node id = .ok node →
    node.isStatement = false → ∃ tree, tree.id = id ∧ program.Draws tree ∧
      program.SoundOperand tree := by
  refine hforest.induction fun id hreachable ih node hnode hoperand => ?_
  obtain ⟨children, hids, hchildren⟩ := hlawful.exists_children hforest hreachable hnode ih
  have hlaw := hlawful.node id node hreachable hnode
  refine ⟨⟨id, node, children⟩, rfl,
    .intro hnode hids.symm fun child hchild => (hchildren child hchild).1,
    Tree.forall_subtrees_mk.mpr ⟨⟨hoperand, fun read hread => ?_, fun op operands ty happly => ?_⟩,
      fun child hchild => (hchildren child hchild).2⟩⟩
  · obtain rfl : node = .variable read := hread
    exact hlaw
  · obtain rfl : node = .apply op operands ty := happly
    exact hlaw

/-- If each statement of a list can be put in front of a code that passes, then the list is such a
code. -/
theorem Lawful.exists_code (ref : ListRef) {statements : List NodeId}
    (howner : ∀ owner ∈ ref.owner?, program.Reachable owner)
    (hlist : program.list ref = .ok statements)
    (hcons : ∀ id, program.Reachable id → (∀ owner ∈ ref.owner?, program.LeadsTo owner id) →
      ∀ node, program.node id = .ok node → node.isStatement = true → ∀ rest,
      program.ChecksCode rest →
        ∃ code, program.ChecksCode code ∧ code.heads = id :: rest.heads) :
    ∃ code, program.ChecksCode code ∧ code.heads = statements := by
  refine ChecksCode.exists_of_forall fun id hid => ?_
  obtain ⟨place, hplace⟩ := List.mem_iff_getElem?.mp hid
  have hrefers : program.Refers id (.listed ref place) := .of_place place howner hlist hplace
  obtain ⟨node, hnode⟩ := hforest.exists_node hrefers.target
  exact hcons id hrefers.target (fun owner howner => hrefers.leadsTo howner) node hnode
    (hlawful.listed ref place id node hrefers hnode)

variable (hnarrow : program.NarrowTargets)

include hnarrow

/-- A statement that can be reached is a tree that passes. -/
theorem Lawful.exists_statement {node : Node} (hreachable : program.Reachable id)
    (hnode : program.node id = .ok node) (hstatement : node.isStatement = true) :
    ∃ tree, tree.id = id ∧ tree.node = node ∧ program.Draws tree ∧ program.Checks tree := by
  obtain ⟨children, hids, hchildren⟩ := hlawful.exists_children hforest hreachable hnode
    fun child hleads => hlawful.exists_operand hforest child (hreachable.leadsTo hleads)
  have hdrawn : ∀ child ∈ children, program.Draws child :=
    fun child hchild => (hchildren child hchild).1
  have hlaw := hlawful.node id node hreachable hnode
  refine ⟨⟨id, node, children⟩, rfl, rfl, .intro hnode hids.symm hdrawn,
    sound_of_nodeLaw hids hdrawn hlaw hstatement id, fun child hchild => (hchildren child hchild).2,
    suits_of_nodeLaw hids hdrawn hlaw hstatement id ?_⟩
  rintro target value mask ty rfl
  exact hnarrow id target value mask ty hreachable hnode

/-- A statement that can be reached can be put in front of a code that passes. -/
theorem Lawful.exists_code_cons : ∀ id, program.Reachable id → ∀ node, program.node id = .ok node →
    node.isStatement = true → ∀ rest, program.ChecksCode rest →
      ∃ code, program.ChecksCode code ∧ code.heads = id :: rest.heads := by
  refine hforest.induction fun id hreachable ih node hnode hstatement rest hrest => ?_
  obtain ⟨tree, rfl, rfl, hdraws, hchecks⟩ :=
    hlawful.exists_statement hforest hnarrow hreachable hnode hstatement
  refine hrest.exists_cons hdraws hchecks fun ref href => ?_
  have howner := ListRef.owner?_of_mem_lists href
  have hlist := list_of_mem_lists hnode href
  obtain ⟨body, hbody, hheads⟩ := hlawful.exists_code hforest ref
    (fun owner hfound => Option.some.inj (howner.symm.trans hfound) ▸ hreachable) hlist
    fun inner _ hleads => ih inner (hleads tree.id howner)
  exact ⟨body, hbody, hheads ▸ hlist⟩

/-- A lawful forest is accepted. -/
theorem Lawful.check_eq_ok : program.check = .ok () := by
  obtain ⟨code, hcode, hheads⟩ := hlawful.exists_code hforest .root nofun rfl
    fun id hreachable _ => hlawful.exists_code_cons hforest hnarrow id hreachable
  have hnodup := hforest.nodup_code hcode.draws .root [] nofun (congrArg Except.ok hheads.symm)
  have hstatement {statement : Tree} (hmem : statement ∈ code.statements) :=
    hcode.checks statement hmem
  have hsound : program.SoundCode code :=
    ⟨hcode.draws, fun _ hmem => (hstatement hmem).sound, fun _ hmem => (hstatement hmem).operands⟩
  exact check_eq_ok_iff.mpr ⟨code, ⟨hsound, hheads.symm, hnodup⟩,
    fun _ hmem => (hstatement hmem).suits⟩

end

/-! ### What is accepted -/

/-- In an accepted program everything reachable makes a forest and keeps the laws; and such a
program is accepted, unless it masks a vector of eight lanes or more. -/
theorem accepts_lawful_forests (program : Program) :
    (program.check = .ok () → program.Forest ∧ program.Lawful) ∧
      (program.Forest → program.Lawful → program.NarrowTargets → program.check = .ok ()) := by
  refine ⟨fun hcheck => ?_, fun hforest hlawful hnarrow => hlawful.check_eq_ok hforest hnarrow⟩
  obtain ⟨code, houtlines, hsuits⟩ := check_eq_ok_iff.mp hcheck
  exact ⟨houtlines.forest, houtlines.lawful hsuits⟩

/-- `v = w` under a mask for the first lane of a vector of as many lanes. -/
def maskedCopy (lanes : UInt8) : Program where
  nodes := #[.variable ⟨0⟩, .variable ⟨1⟩, .assign ⟨0⟩ ⟨1⟩ 1]
  vars := #[⟨"v", .vector .float lanes, .auto⟩, ⟨"w", .float, .input⟩]
  body := [⟨2⟩]

theorem outlines_maskedCopy (lanes : UInt8) : (maskedCopy lanes).Outlines
      (.step ⟨⟨2⟩, .assign ⟨0⟩ ⟨1⟩ 1, [⟨⟨1⟩, .variable ⟨1⟩, []⟩, ⟨⟨0⟩, .variable ⟨0⟩, []⟩]⟩ .nil)
      where
  draws := by
    refine .step (.intro rfl rfl fun child hchild => ?_) rfl .nil
    simp only [List.mem_cons, List.not_mem_nil, or_false] at hchild
    rcases hchild with rfl | rfl <;> exact .intro rfl rfl (by simp)
  sound statement hstatement := by
    obtain rfl := List.mem_singleton.mp hstatement
    exact .assign ⟨2⟩ ⟨⟨0⟩, .variable ⟨0⟩, []⟩
      ⟨⟨1⟩, .variable ⟨1⟩, []⟩ 1 (by simp [Tree.isPlace, Tree.fold_mk])
  operands statement hstatement operand hoperand := by
    obtain rfl := List.mem_singleton.mp hstatement
    simp only [List.mem_cons, List.not_mem_nil, or_false] at hoperand
    rcases hoperand with rfl | rfl <;> exact Tree.forall_subtrees_mk.mpr
        ⟨⟨rfl, fun read hread => by cases hread; simp [maskedCopy], by simp⟩, by simp⟩
  body := rfl
  nodup := by simp

/-- The lane that is written is one of the target if the target has any. -/
theorem lawful_maskedCopy {lanes : UInt8} (hlanes : 0 < lanes) : (maskedCopy lanes).Lawful where
  listed ref place id node hrefers hnode := (outlines_maskedCopy lanes).isStatement_of_listed
      ((outlines_maskedCopy lanes).fills_iff.mpr hrefers) hnode
  operand owner place id node hrefers hnode := (outlines_maskedCopy lanes).isStatement_of_operand
      ((outlines_maskedCopy lanes).fills_iff.mpr hrefers) hnode
  node id node hreachable hnode := by
    have hmem := Array.mem_of_getElem? (node_eq_ok_iff.mp hnode)
    simp only [maskedCopy, List.mem_toArray, List.mem_cons, List.not_mem_nil, or_false] at hmem
    rcases hmem with rfl | rfl | rfl
    · exact (by decide : 0 < 2)
    · exact (by decide : 1 < 2)
    · refine ⟨.variable rfl, fun _ => ⟨.vector .float lanes, rfl, fun lane hlane => ?_⟩⟩
      obtain rfl : lane = 0 := Nat.testBit_one_eq_true_iff_self_eq_zero.mp hlane
      exact hlanes

theorem accepts_lawful_forests_maskedCopy :
    (maskedCopy 4).check = .ok () ∧ (maskedCopy 4).Forest ∧ (maskedCopy 4).Lawful := by
  have hlanes : (0 : UInt8) < 4 := by decide
  have hnarrow : (maskedCopy 4).NarrowTargets := by
    intro id target value mask ty _ hnode _ hty
    have hmem := Array.mem_of_getElem? (node_eq_ok_iff.mp hnode)
    simp only [maskedCopy, List.mem_toArray, List.mem_cons, List.not_mem_nil, or_false,
      reduceCtorEq, false_or] at hmem
    obtain ⟨rfl, rfl, rfl⟩ := Node.assign.inj hmem
    obtain rfl : Ty.vector .float 4 = ty := Except.ok.inj hty
    decide
  obtain ⟨haccepted, haccepts⟩ := accepts_lawful_forests (maskedCopy 4)
  have hcheck := haccepts (outlines_maskedCopy 4).forest (lawful_maskedCopy hlanes) hnarrow
  exact ⟨hcheck, haccepted hcheck⟩

/-- A lawful forest is refused if it masks a vector of eight lanes. -/
theorem refuses_lawful_forest_maskedCopy : (maskedCopy 8).Forest ∧ (maskedCopy 8).Lawful ∧
    (maskedCopy 8).check = .error (.broken (.maskTooWide ⟨2⟩)) :=
  ⟨(outlines_maskedCopy 8).forest, lawful_maskedCopy (by decide), rfl⟩

end Program

end ShaderIR
