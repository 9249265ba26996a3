import ShaderIR.Proofs.Outline.Lists
import ShaderIR.Proofs.Outline.Passing
import ShaderIR.Proofs.Outline.Slots
import Mathlib.Data.Fintype.EquivFin
import Mathlib.Order.WellFounded

/-!
Programs whose references make a forest. `Program.Forest` asks that every node that can be reached
is in the arena, is held by exactly one slot, and does not lead back to itself; it speaks of the
references only, whatever the nodes are. `Program.Lawful` asks the rest of a well-formed program of
each node on its own.
-/

set_option autoImplicit false

namespace ShaderIR

open Relation

/-- The node that a slot belongs to; the positions of the root list belong to none. -/
def Slot.owner? : Slot → Option NodeId
  | .listed ref _ => ref.owner?
  | .operand owner _ => some owner

theorem ListRef.owner?_of_mem_lists {node : Node} {owner : NodeId}
    {ref : ListRef} (href : ref ∈ node.lists owner) :
    ref.owner? = some owner := by
  cases node with
  | branch =>
    simp only [Node.lists, List.mem_cons, List.not_mem_nil, or_false] at href
    rcases href with rfl | rfl <;> rfl
  | loop =>
    obtain rfl := List.mem_singleton.mp href
    rfl
  | _ => simp [Node.lists] at href

namespace Program

/-- The node stands in the slot, be it a position of a list or a place among the children of a
node. -/
inductive StandsIn (program : Program) (id : NodeId) : Slot → Prop
  | listed {ref : ListRef} {place : Nat} {statements : List NodeId}
    (hlist : program.list ref = .ok statements)
    (hid : statements[place]? = some id) : StandsIn program id (.listed ref place)
  | operand {owner : NodeId} {place : Nat} {node : Node} (hnode : program.node owner = .ok node)
    (hid : node.children[place]? = some id) : StandsIn program id (.operand owner place)

/-- The node stands in a slot of the root list or of a node that can be reached. -/
structure Refers (program : Program) (id : NodeId) (slot : Slot) : Prop where
  reachable : ∀ owner ∈ slot.owner?, program.Reachable owner
  holds : program.StandsIn id slot

/-- A node stands in a slot of another one. -/
def LeadsTo (program : Program) (owner id : NodeId) : Prop :=
  ∃ slot, slot.owner? = some owner ∧ program.StandsIn id slot

/-- What can be reached is in the arena, is referred to exactly once, and does not lead back to
itself. -/
structure Forest (program : Program) : Prop where
  inside : ∀ id, program.Reachable id → id.index < program.nodes.size
  referred : ∀ id, program.Reachable id → ∃! slot, program.Refers id slot
  acyclic : ∀ id, program.Reachable id → ¬ TransGen program.LeadsTo id id

variable {program : Program} {id below other owner : NodeId} {slot slot' : Slot}

/-! ### Reachable nodes and slots -/

theorem StandsIn.reachable_of_owner (hholds : program.StandsIn id slot)
    (howner : slot.owner? = some owner) (hreachable : program.Reachable owner) :
    program.Reachable id := by
  cases hholds with
  | listed hlist hid =>
    rcases exists_owner_of_list hlist with ⟨rfl, -⟩ | ⟨found, node, hnode, href, -⟩
    · cases howner
    · obtain rfl := Option.some.inj (howner.symm.trans (ListRef.owner?_of_mem_lists href))
      exact .nested hreachable hnode href hlist (List.mem_of_getElem? hid)
  | operand hnode hid =>
    obtain rfl := Option.some.inj howner
    exact .child hreachable hnode (List.mem_of_getElem? hid)

theorem LeadsTo.of_child {node : Node}
    (hnode : program.node owner = .ok node) (hid : id ∈ node.children) :
    program.LeadsTo owner id := by
  obtain ⟨place, hplace⟩ := List.mem_iff_getElem?.mp hid
  exact ⟨.operand owner place, rfl, .operand hnode hplace⟩

theorem LeadsTo.of_listed {ref : ListRef} {statements : List NodeId}
    (howner : ref.owner? = some owner) (hlist : program.list ref = .ok statements)
    (hid : id ∈ statements) : program.LeadsTo owner id := by
  obtain ⟨place, hplace⟩ := List.mem_iff_getElem?.mp hid
  exact ⟨.listed ref place, howner, .listed hlist hplace⟩

theorem Reachable.leadsTo (hreachable : program.Reachable owner)
    (hleads : program.LeadsTo owner id) :
    program.Reachable id := by
  obtain ⟨slot, howner, hholds⟩ := hleads
  exact hholds.reachable_of_owner howner hreachable

theorem Reachable.descends (hreachable : program.Reachable owner)
    (hpath : ReflTransGen program.LeadsTo owner id) :
    program.Reachable id := by
  induction hpath with
  | refl => exact hreachable
  | tail _ hstep ih => exact ih.leadsTo hstep

/-- A node that a reachable one leads to is referred to by it. -/
theorem LeadsTo.exists_refers (hleads : program.LeadsTo owner id)
    (hreachable : program.Reachable owner) :
    ∃ slot, slot.owner? = some owner ∧ program.Refers id slot := by
  obtain ⟨slot, howner, hholds⟩ := hleads
  refine ⟨slot, howner, fun found hfound => ?_, hholds⟩
  obtain rfl := Option.some.inj (howner.symm.trans hfound)
  exact hreachable

/-- What is referred to can be reached. -/
theorem Refers.target (hrefers : program.Refers id slot) : program.Reachable id := by
  cases howner : slot.owner? with
  | some owner => exact hrefers.holds.reachable_of_owner howner (hrefers.reachable owner howner)
  | none =>
    cases hrefers.holds with
    | listed hlist hid =>
      rcases exists_owner_of_list hlist with ⟨rfl, hbody⟩ | ⟨owner, node, -, href, -⟩
      · exact .root (hbody ▸ List.mem_of_getElem? hid)
      · exact absurd (howner.symm.trans (ListRef.owner?_of_mem_lists href)) nofun
    | operand => cases howner

theorem Refers.leadsTo (hrefers : program.Refers id slot) (howner : slot.owner? = some owner) :
    program.LeadsTo owner id :=
  ⟨slot, howner, hrefers.holds⟩

/-- If no node is referred to twice, then no node leads back to itself: going back from it along the
references, one would come to the root list and never leave the cycle. -/
theorem acyclic_of_referred
    (hreferred : ∀ id slot slot', program.Refers id slot → program.Refers id slot' → slot = slot')
    (hreachable : program.Reachable id) : ¬ TransGen program.LeadsTo id id := by
  have hlast {id : NodeId} (hreachable : program.Reachable id)
      (hcycle : TransGen program.LeadsTo id id) :
      ∃ last slot, ReflTransGen program.LeadsTo id last ∧ slot.owner? = some last ∧
        program.Refers id slot := by
    obtain ⟨last, hpath, hstep⟩ := TransGen.tail'_iff.mp hcycle
    obtain ⟨slot, hslot⟩ := hstep.exists_refers (hreachable.descends hpath)
    exact ⟨last, slot, hpath, hslot⟩
  have hback {owner id : NodeId} (howner : program.Reachable owner)
      (hleads : program.LeadsTo owner id) (hcycle : TransGen program.LeadsTo id id) :
        TransGen program.LeadsTo owner owner := by
    obtain ⟨last, slot, hpath, hslot, hrefers⟩ := hlast (howner.leadsTo hleads) hcycle
    obtain ⟨slot', hslot', hrefers'⟩ := hleads.exists_refers howner
    obtain rfl := hreferred id slot slot' hrefers hrefers'
    obtain rfl := Option.some.inj (hslot.symm.trans hslot')
    exact .head' hleads hpath
  induction hreachable with
  | @root id hid =>
    intro hcycle
    obtain ⟨place, hplace⟩ := List.mem_iff_getElem?.mp hid
    obtain ⟨last, slot, -, hslot, hrefers⟩ := hlast (.root hid) hcycle
    obtain rfl := hreferred id slot (.listed .root place) hrefers ⟨nofun, .listed rfl hplace⟩
    cases hslot
  | child howner hnode hid ih => exact fun hcycle => ih (hback howner (.of_child hnode hid) hcycle)
  | nested howner hnode href hlist hid ih =>
    exact fun hcycle =>
      ih (hback howner (.of_listed (ListRef.owner?_of_mem_lists href) hlist hid) hcycle)

/-! ### Paths in a forest -/

namespace Forest

variable (hforest : program.Forest)

include hforest

theorem slot_unique (hrefers : program.Refers id slot) (hrefers' : program.Refers id slot') :
    slot = slot' :=
  (hforest.referred id hrefers.target).unique hrefers hrefers'

theorem exists_node (hreachable : program.Reachable id) : ∃ node, program.node id = .ok node :=
  ⟨_, node_eq_ok_iff.mpr (Array.getElem?_eq_getElem (hforest.inside id hreachable))⟩

theorem owner_unique (hreachable : program.Reachable owner) (hleads : program.LeadsTo owner id)
    (hother : program.Reachable other) (hleads' : program.LeadsTo other id) : owner = other := by
  obtain ⟨slot, hslot, hrefers⟩ := hleads.exists_refers hreachable
  obtain ⟨slot', hslot', hrefers'⟩ := hleads'.exists_refers hother
  obtain rfl := hforest.slot_unique hrefers hrefers'
  exact Option.some.inj (hslot.symm.trans hslot')

/-- Of two nodes above a third one, one stands above the other. -/
theorem descends_or_descends (hreachable : program.Reachable id) (hother : program.Reachable other)
    (hpath : ReflTransGen program.LeadsTo id below)
    (hpath' : ReflTransGen program.LeadsTo other below) :
    ReflTransGen program.LeadsTo id other ∨ ReflTransGen program.LeadsTo other id := by
  induction hpath with
  | refl => exact Or.inr hpath'
  | @tail middle below hpath hstep ih =>
    rcases ReflTransGen.cases_tail hpath' with rfl | ⟨middle', hpath', hstep'⟩
    · exact Or.inl (hpath.tail hstep)
    · obtain rfl :=
        hforest.owner_unique (hreachable.descends hpath) hstep (hother.descends hpath') hstep'
      exact ih hpath'

/-- No path leads from one slot of a node to another one of the same node. -/
theorem not_descends_of_slots (hrefers : program.Refers id slot)
    (hrefers' : program.Refers other slot') (hsame : slot.owner? = slot'.owner?)
    (hne : slot ≠ slot') : ¬ ReflTransGen program.LeadsTo id other := by
  intro hpath
  have hreachable := hrefers.target
  rcases ReflTransGen.cases_tail hpath with rfl | ⟨last, hpath, hstep⟩
  · exact hne (hforest.slot_unique hrefers hrefers')
  · -- the last node of the path owns the slot of its end, and so that of its start
    obtain ⟨slot'', hslot, hrefers''⟩ := hstep.exists_refers (hreachable.descends hpath)
    obtain rfl := hforest.slot_unique hrefers' hrefers''
    exact hforest.acyclic id hreachable (.tail' hpath (hrefers.leadsTo (hsame.trans hslot)))

/-- Different slots of one node lead to different nodes. -/
theorem apart (hrefers : program.Refers id slot) (hrefers' : program.Refers other slot')
    (hsame : slot.owner? = slot'.owner?) (hne : slot ≠ slot')
    (hpath : ReflTransGen program.LeadsTo id below) :
    ¬ ReflTransGen program.LeadsTo other below := by
  intro hpath'
  rcases hforest.descends_or_descends hrefers.target hrefers'.target hpath hpath' with hdown | hdown
  · exact hforest.not_descends_of_slots hrefers hrefers' hsame hne hdown
  · exact hforest.not_descends_of_slots hrefers' hrefers hsame.symm hne.symm hdown

/-- What holds of a node if it holds of all nodes that it leads to holds of all reachable nodes. -/
theorem induction {motive : NodeId → Prop} (hstep : ∀ id,
      program.Reachable id → (∀ below, program.LeadsTo id below → motive below) → motive id) :
    ∀ id, program.Reachable id → motive id := by
  have hfinite : Finite { id // program.Reachable id } := by
    let place (reached : { id // program.Reachable id }) : Fin program.nodes.size :=
      ⟨reached.1.index, hforest.inside _ reached.2⟩
    refine Finite.of_injective place fun first second hsame => ?_
    obtain ⟨⟨index⟩, _⟩ := first
    obtain ⟨⟨index'⟩, _⟩ := second
    obtain rfl : index = index' := congrArg Fin.val hsame
    rfl
  let lower (first second : { id // program.Reachable id }) : Prop :=
    TransGen program.LeadsTo second.1 first.1
  have : IsTrans _ lower := ⟨fun _ _ _ hfirst hsecond => hsecond.trans hfirst⟩
  have : Std.Irrefl lower := ⟨fun reached => hforest.acyclic reached.1 reached.2⟩
  have hwellFounded : WellFounded lower := Finite.wellFounded_of_trans_of_irrefl lower
  intro id hreachable
  refine hwellFounded.induction (C := fun reached => motive reached.1) ⟨id, hreachable⟩
    fun reached ih => ?_
  exact hstep reached.1 reached.2 fun below hleads =>
    ih ⟨below, reached.2.leadsTo hleads⟩ (.single hleads)

end Forest

/-! ### Trees and codes in a forest -/

/-- The root of a tree leads to all of its nodes. -/
theorem Draws.descends {tree : Tree} (hdraws : program.Draws tree) (hid : id ∈ tree.ids) :
    ReflTransGen program.LeadsTo tree.id id := by
  induction hdraws with
  | @intro root node children hnode hchildren _ ih =>
    rw [Tree.ids_mk, List.mem_cons, List.mem_flatMap] at hid
    rcases hid with rfl | ⟨child, hchild, hid⟩
    · exact .refl
    · exact .head (.of_child hnode (hchildren ▸ List.mem_map_of_mem hchild)) (ih child hchild hid)

/-- The statements of a list lead to all nodes of its code. -/
theorem DrawsCode.descends {code : Code} (hdraws : program.DrawsCode code) (hid : id ∈ code.ids) :
    ∃ head ∈ code.heads, ReflTransGen program.LeadsTo head id := by
  have hbody {statement : Tree} {ref : ListRef} {statements : List NodeId}
      (howner : ref.owner? = some statement.id) (hlist : program.list ref = .ok statements)
      (hhead : ∃ head ∈ statements, ReflTransGen program.LeadsTo head id) :
      ReflTransGen program.LeadsTo statement.id id := by
    obtain ⟨head, hmem, hpath⟩ := hhead
    exact .head (.of_listed howner hlist hmem) hpath
  have hlater {first : NodeId} {rest : List NodeId}
      (hhead : ∃ head ∈ rest, ReflTransGen program.LeadsTo head id) :
      ∃ head ∈ first :: rest, ReflTransGen program.LeadsTo head id := by
    obtain ⟨head, hmem, hpath⟩ := hhead
    exact ⟨head, List.mem_cons_of_mem _ hmem, hpath⟩
  induction hdraws with
  | nil => cases hid
  | step hstatement _ _ ih =>
    rw [Code.ids_step, List.mem_append] at hid
    rcases hid with hid | hid
    · exact ⟨_, List.mem_cons_self, hstatement.descends hid⟩
    · exact hlater (ih hid)
  | branch hstatement hnode _ _ _ ihthen ihelse ih =>
    have hfound := hnode ▸ hstatement.node_eq
    simp only [Code.ids_branch, List.mem_append] at hid
    rcases hid with hid | (hid | hid) | hid
    · exact ⟨_, List.mem_cons_self, hstatement.descends hid⟩
    · exact ⟨_, List.mem_cons_self, hbody rfl (list_thenBody hfound) (ihthen hid)⟩
    · exact ⟨_, List.mem_cons_self, hbody rfl (list_elseBody hfound) (ihelse hid)⟩
    · exact hlater (ih hid)
  | loop hstatement hnode _ _ ihbody ih =>
    simp only [Code.ids_loop, List.mem_append] at hid
    rcases hid with hid | hid | hid
    · exact ⟨_, List.mem_cons_self, hstatement.descends hid⟩
    · exact ⟨_, List.mem_cons_self,
        hbody rfl (list_loopBody (hnode ▸ hstatement.node_eq)) (ihbody hid)⟩
    · exact hlater (ih hid)

theorem Refers.of_place {ref : ListRef} {statements : List NodeId} (place : Nat)
    (howner : ∀ owner ∈ ref.owner?, program.Reachable owner)
    (hlist : program.list ref = .ok statements)
    (hid : statements[place]? = some id) : program.Refers id (.listed ref place) :=
  ⟨howner, .listed hlist hid⟩

namespace Forest

variable (hforest : program.Forest) {tree statement : Tree} {code body : Code} {ref : ListRef}
  {before : List NodeId}

include hforest

/-- No node occurs twice in a tree. -/
theorem nodup_tree (hdraws : program.Draws tree) (hreachable : program.Reachable tree.id) :
    tree.ids.Nodup := by
  induction hdraws with
  | @intro root node children hnode hchildren hbelow ih =>
    have hplace {place : Nat} {child : Tree} (hchild : children[place]? = some child) :
        program.Refers child.id (.operand root place) := by
      refine ⟨fun owner howner => Option.some.inj howner ▸ hreachable, .operand hnode ?_⟩
      rw [hchildren, List.getElem?_map, hchild, Option.map_some]
    have hrefers {child : Tree} (hchild : child ∈ children) :
        ∃ place, program.Refers child.id (.operand root place) := by
      obtain ⟨place, hchild⟩ := List.mem_iff_getElem?.mp hchild
      exact ⟨place, hplace hchild⟩
    rw [Tree.ids_mk, List.nodup_cons, List.nodup_flatMap]
    refine ⟨fun hroot => ?_, fun child hchild => ?_,
      List.pairwise_iff_getElem.mpr fun first second hfirst hsecond hlt => ?_⟩
    · obtain ⟨child, hchild, hroot⟩ := List.mem_flatMap.mp hroot
      obtain ⟨place, hrefers⟩ := hrefers hchild
      exact hforest.acyclic root hreachable
        (.head' (hrefers.leadsTo rfl) ((hbelow child hchild).descends hroot))
    · obtain ⟨place, hrefers⟩ := hrefers hchild
      exact ih child hchild hrefers.target
    · intro id hid hid'
      refine hforest.apart (hplace (List.getElem?_eq_getElem hfirst))
        (hplace (List.getElem?_eq_getElem hsecond)) rfl ?_
        ((hbelow _ (List.getElem_mem hfirst)).descends hid)
          ((hbelow _ (List.getElem_mem hsecond)).descends hid')
      simpa using hlt.ne

/-- What a statement leads to does not occur in the statements after it. -/
theorem not_mem_ids_of_later (howner : ∀ owner ∈ ref.owner?, program.Reachable owner)
    (hlist : program.list ref = .ok (before ++ id :: code.heads)) (hdraws : program.DrawsCode code)
    (hpath : ReflTransGen program.LeadsTo id below) : below ∉ code.ids := by
  intro hbelow
  obtain ⟨head, hhead, hpath'⟩ := hdraws.descends hbelow
  obtain ⟨place, hplace⟩ := List.mem_iff_getElem?.mp hhead
  have hfirst : program.Refers id (.listed ref before.length) :=
    .of_place before.length howner hlist (by simp)
  have hlater : program.Refers head (.listed ref (before.length + (place + 1))) :=
    .of_place _ howner hlist (by simpa [List.getElem?_append_right] using hplace)
  exact hforest.apart hfirst hlater rfl (by simp) hpath hpath'

/-- A body of a statement is made of other nodes than the statements after it. -/
theorem disjoint_body_of_later {ref' : ListRef}
    (howner : ∀ owner ∈ ref.owner?, program.Reachable owner)
    (hlist : program.list ref = .ok (before ++ id :: code.heads)) (hdraws : program.DrawsCode code)
    (howner' : ref'.owner? = some id) (hlist' : program.list ref' = .ok body.heads)
    (hbody : program.DrawsCode body) :
    body.ids.Disjoint code.ids := by
  intro below hbelow
  obtain ⟨head, hhead, hpath⟩ := hbody.descends hbelow
  exact hforest.not_mem_ids_of_later howner hlist hdraws
    (.head (.of_listed howner' hlist' hhead) hpath)

/-- Bodies of one statement are made of different nodes. -/
theorem disjoint_bodies {ref' : ListRef} {body' : Code} (howner : ref.owner? = some owner)
    (howner' : ref'.owner? = some owner) (hne : ref ≠ ref') (hreachable : program.Reachable owner)
    (hlist : program.list ref = .ok body.heads) (hlist' : program.list ref' = .ok body'.heads)
    (hbody : program.DrawsCode body) (hbody' : program.DrawsCode body') :
    body.ids.Disjoint body'.ids := by
  intro id hid hid'
  obtain ⟨head, hhead, hpath⟩ := hbody.descends hid
  obtain ⟨head', hhead', hpath'⟩ := hbody'.descends hid'
  obtain ⟨place, hplace⟩ := List.mem_iff_getElem?.mp hhead
  obtain ⟨place', hplace'⟩ := List.mem_iff_getElem?.mp hhead'
  refine hforest.apart (.of_place place (fun found hfound => ?_) hlist hplace)
    (.of_place place' (fun found hfound => ?_) hlist' hplace')
      (howner.trans howner'.symm) (by simp [hne]) hpath hpath'
  · obtain rfl := Option.some.inj (howner.symm.trans hfound)
    exact hreachable
  · obtain rfl := Option.some.inj (howner'.symm.trans hfound)
    exact hreachable

/-- A body of a statement is made of other nodes than the statement and its operands. -/
theorem disjoint_body (hdraws : program.Draws statement)
    (hreachable : program.Reachable statement.id)
    (howner : ref.owner? = some statement.id) (hlist : program.list ref = .ok body.heads)
    (hbody : program.DrawsCode body) : statement.ids.Disjoint body.ids := by
  intro id hid hid'
  obtain ⟨head, hhead, hpath⟩ := hbody.descends hid'
  obtain ⟨place, hplace⟩ := List.mem_iff_getElem?.mp hhead
  have hlisted : program.Refers head (.listed ref place) := by
    refine .of_place place (fun found hfound => ?_) hlist hplace
    obtain rfl := Option.some.inj (howner.symm.trans hfound)
    exact hreachable
  cases hdraws with
  | @intro root node children hnode hchildren hbelow =>
    rw [Tree.ids_mk, List.mem_cons, List.mem_flatMap] at hid
    rcases hid with rfl | ⟨child, hchild, hid⟩
    · exact hforest.acyclic id hreachable (.head' (hlisted.leadsTo howner) hpath)
    · obtain ⟨place', hplace'⟩ := List.mem_iff_getElem?.mp hchild
      have hoperand : program.Refers child.id (.operand root place') := by
        refine ⟨fun found hfound => Option.some.inj hfound ▸ hreachable, .operand hnode ?_⟩
        rw [hchildren, List.getElem?_map, hplace', Option.map_some]
      exact hforest.apart hoperand hlisted howner.symm (by simp)
        ((hbelow child hchild).descends hid) hpath

/-- No node occurs twice in a code. -/
theorem nodup_code (hdraws : program.DrawsCode code) (ref : ListRef) (before : List NodeId)
    (howner : ∀ owner ∈ ref.owner?, program.Reachable owner)
    (hlist : program.list ref = .ok (before ++ code.heads)) : code.ids.Nodup := by
  induction hdraws generalizing ref before with
  | nil => exact List.nodup_nil
  | @step statement rest hstatement _ hrest ih =>
    have hreachable : program.Reachable statement.id :=
      (Refers.of_place before.length howner hlist (by simp [Code.heads])).target
    rw [Code.ids_step]
    refine List.nodup_append'.mpr ⟨hforest.nodup_tree hstatement hreachable,
      ih ref (before ++ [statement.id]) howner (by rw [hlist]; simp [Code.heads]), fun id hid => ?_⟩
    exact hforest.not_mem_ids_of_later howner hlist hrest (hstatement.descends hid)
  | @branch statement condition thenBody elseBody rest hstatement hnode hthen helse hrest ihthen
      ihelse ih =>
    have hreachable : program.Reachable statement.id :=
      (Refers.of_place before.length howner hlist (by simp [Code.heads])).target
    have hfound := hnode ▸ hstatement.node_eq
    have hown {ref : ListRef} (hbody : ref.owner? = some statement.id) :
        ∀ owner ∈ ref.owner?, program.Reachable owner := by
      rw [hbody]
      exact fun owner howner => Option.some.inj howner ▸ hreachable
    simp only [Code.ids_branch, List.nodup_append', List.disjoint_append_left,
      List.disjoint_append_right]
    exact ⟨hforest.nodup_tree hstatement hreachable,
      ⟨⟨ihthen (.thenBody statement.id) [] (hown rfl) (list_thenBody hfound),
          ihelse (.elseBody statement.id) [] (hown rfl) (list_elseBody hfound),
          hforest.disjoint_bodies rfl rfl (by simp) hreachable
            (list_thenBody hfound) (list_elseBody hfound) hthen helse⟩,
        ih ref (before ++ [statement.id]) howner (by rw [hlist]; simp [Code.heads]),
        hforest.disjoint_body_of_later howner hlist hrest rfl (list_thenBody hfound) hthen,
        hforest.disjoint_body_of_later howner hlist hrest rfl (list_elseBody hfound) helse⟩,
      ⟨hforest.disjoint_body hstatement hreachable rfl (list_thenBody hfound) hthen,
        hforest.disjoint_body hstatement hreachable rfl (list_elseBody hfound) helse⟩,
      fun id hid => hforest.not_mem_ids_of_later howner hlist hrest (hstatement.descends hid)⟩
  | @loop statement body rest hstatement hnode hbody hrest ihbody ih =>
    have hreachable : program.Reachable statement.id :=
      (Refers.of_place before.length howner hlist (by simp [Code.heads])).target
    have hbodyList := list_loopBody (hnode ▸ hstatement.node_eq)
    simp only [Code.ids_loop, List.nodup_append', List.disjoint_append_right]
    exact ⟨hforest.nodup_tree hstatement hreachable, ⟨ihbody (.loopBody statement.id)
        [] (fun owner howner => Option.some.inj howner ▸ hreachable) hbodyList,
        ih ref (before ++ [statement.id]) howner (by rw [hlist]; simp [Code.heads]),
        hforest.disjoint_body_of_later howner hlist hrest rfl hbodyList hbody⟩,
      hforest.disjoint_body hstatement hreachable rfl hbodyList hbody,
      fun id hid => hforest.not_mem_ids_of_later howner hlist hrest (hstatement.descends hid)⟩

end Forest

end Program

end ShaderIR
