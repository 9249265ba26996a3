import ShaderIR.Proofs.Interp.Sizes

/-!
What value numbers stand for. A `Meaning` gives numbers a `View`: the lanes that are found at a
place and behind it, all the way around the positions that 64 bits can count. A value stands for the
view of the last of its numbers (`Value.Stands`), for whatever has been written before is hidden by
it, and the number of a write to a part belongs to that write alone.

A view is not just a list of lanes, since a type may ask for more lanes than can be counted: an
operand of such a type has no lanes or too few of them, and its parts still have some.
`Program.Outlines.gives_of_head` says that a computation shows what its key makes of the views of
its operands.
-/

set_option autoImplicit false

namespace ShaderIR

/-! ### Views -/

/-- The lanes that are found so many positions behind a place. -/
abbrev View :=
  Nat → Lane

namespace View

/-- What a list of lanes shows. -/
def ofLanes (lanes : Lanes) : View :=
  fun place => lanes.getD place 0

/-- The lanes of a value of a type. -/
def lanes (view : View) (ty : Option Ty) : Lanes :=
  (List.range (ty.elim 0 Ty.flatLen)).map view

/-- What is found behind the beginning of a part. -/
def part (view : View) (selected : Option (Nat × Ty)) : View :=
  fun place => selected.elim 0 fun selected => view (Lanes.position selected.1 place)

/-- These lanes are found in the view. -/
def Covers (view : View) (lanes : Lanes) : Prop :=
  ∀ place lane, lanes[place]? = some lane → view place = lane

theorem covers_ofLanes (lanes : Lanes) : (ofLanes lanes).Covers lanes := by
  intro place lane hlane
  rw [ofLanes, List.getD_eq_getElem?_getD, hlane, Option.getD_some]

variable {view : View} {lanes : Lanes} {ty : Ty}

/-- Lanes that are as many as a type has are those of the type. -/
theorem Covers.eq_lanes (hcovers : view.Covers lanes) (hlength : lanes.length = ty.flatLen) :
    lanes = view.lanes (some ty) := by
  refine List.ext_getElem (by simp [View.lanes, hlength]) fun place hplace _ => ?_
  simp only [View.lanes, List.getElem_map, List.getElem_range]
  exact (hcovers place _ (List.getElem?_eq_getElem hplace)).symm

theorem lanes_ofLanes (hlength : lanes.length = ty.flatLen) :
    (ofLanes lanes).lanes (some ty) = lanes :=
  ((covers_ofLanes lanes).eq_lanes hlength).symm

end View

/-! ### Values -/

/-- The views that numbers stand for, as far as they are settled. -/
abbrev Meaning :=
  ValueNumber → Option View

/-- More is settled. -/
def Meaning.Extends (meaning' meaning : Meaning) : Prop :=
  ∀ number view, meaning number = some view → meaning' number = some view

theorem Meaning.Extends.refl (meaning : Meaning) : meaning.Extends meaning :=
  fun _ _ => id

theorem Meaning.Extends.trans {meaning meaning' meaning'' : Meaning}
    (hfirst : meaning'.Extends meaning) (hsecond : meaning''.Extends meaning') :
    meaning''.Extends meaning :=
  fun number view hview => hsecond number view (hfirst number view hview)

/-- A value stands for what its last number stands for. -/
def Value.Stands (meaning : Meaning) (value : Value) (view : View) : Prop :=
  ∃ number, value.getLast? = some number ∧ meaning number = some view

namespace Value.Stands

variable {meaning meaning' : Meaning} {value value' : Value} {view view' : View}
  {number : ValueNumber}

theorem mono (hstands : value.Stands meaning view) (hextends : meaning'.Extends meaning) :
    value.Stands meaning' view := by
  obtain ⟨number, hlast, hview⟩ := hstands
  exact ⟨number, hlast, hextends _ _ hview⟩

theorem unique (hstands : value.Stands meaning view) (hstands' : value.Stands meaning view') :
    view = view' := by
  obtain ⟨number, hlast, hview⟩ := hstands
  obtain ⟨_, hlast', hview'⟩ := hstands'
  obtain rfl := Option.some.inj (hlast.symm.trans hlast')
  exact Option.some.inj (hview.symm.trans hview')

theorem single (hview : meaning number = some view) : Stands meaning [number] view :=
  ⟨number, rfl, hview⟩

theorem of_single (hstands : Stands meaning [number] view) : meaning number = some view := by
  obtain ⟨_, hlast, hview⟩ := hstands
  obtain rfl := Option.some.inj hlast
  exact hview

/-- What is written later hides what has been written before. -/
theorem append (hstands : value'.Stands meaning view) : Stands meaning (value ++ value') view := by
  obtain ⟨number, hlast, hview⟩ := hstands
  exact ⟨number, by rw [List.getLast?_append, hlast, Option.some_or], hview⟩

/-- A variable reads as a value with the last number of its history. -/
theorem latest (hstands : value.Stands meaning view) {isPartial : ValueNumber → Bool} :
    Stands meaning (Numberer.latest isPartial value) view := by
  rcases Numberer.latest_cases isPartial value
    with hall | ⟨before, number, after, hsplit, -, hlatest⟩
  · rwa [hall]
  · obtain ⟨last, hlast, hview⟩ := hstands
    rw [hsplit, List.getLast?_append_of_ne_nil _ (List.cons_ne_nil _ _)] at hlast
    exact ⟨last, hlatest ▸ hlast, hview⟩

end Value.Stands

/-! ### Computations -/

/-- What a computation gives, from the type of its result and from the lanes of its operands. -/
def Head.lanes (head : Head) (ty : Option Ty) (operands : List Lanes) : Lanes :=
  match head, operands with
  | .constant value, _ => value.lanes.map Literal.lane
  | .swizzle mask, [lanes] => mask.lanes.map fun lane => lanes.lane lane.val
  | .apply op, operands => (op.apply operands).resize (max (ty.elim 0 Ty.flatLen) 1)
  | .texture op channel _, operands =>
    (Seed.texture op channel operands).lanes (ty.elim 0 Ty.flatLen)
  | .call callee, operands => (Seed.returned callee operands none).lanes (ty.elim 0 Ty.flatLen)
  | _, _ => []

/-- What a computation shows, from the types of its result and of its operands and from what these
show. -/
def Head.view (head : Head) (ty : Option Ty) (types : List (Option Ty))
    (views : List View) : View :=
  match head with
  | .index =>
    let position := ((views.getD 1 default).lanes (types.getD 1 none)).lane 0
    (views.getD 0 default).part ((types.getD 0 none).bind (·.elementAt? position))
  | .field number => (views.getD 0 default).part ((types.getD 0 none).bind (·.fieldAt? number))
  | head => .ofLanes (head.lanes ty (List.zipWith View.lanes views types))

/-- Whatever lanes an operand has are found in the view, and so are those that its place has around
it. -/
structure Tree.Gives (program : Program) (slots : Array Lanes) (tree : Tree) (view : View) :
    Prop where
  lanes : ∀ lanes, (tree.reading program.vars slots).lanes = some lanes → view.Covers lanes
  place : ∀ place, (tree.reading program.vars slots).place = some place → ∀ behind < UInt64.size,
    ∀ lane, (slots.getD place.root.index [])[Lanes.position place.offset behind]? = some lane →
      view behind = lane

namespace Tree.Gives

variable {program : Program} {slots : Array Lanes} {tree : Tree} {view : View}

/-- An operand that names no place gives what its lanes show. -/
theorem of_placeless (hplace : (tree.reading program.vars slots).place = none)
    (hlanes : ∀ lanes, (tree.reading program.vars slots).lanes = some lanes → view.Covers lanes) :
    tree.Gives program slots view :=
  ⟨hlanes, by simp [hplace]⟩

/-- The lanes of a place are among those around it. -/
theorem of_place (hderef : tree.node.kind = .deref) (hplace : ∀ place,
      (tree.reading program.vars slots).place = some place → ∀ behind < UInt64.size,
      ∀ lane, (slots.getD place.root.index [])[Lanes.position place.offset behind]? = some lane →
        view behind = lane) : tree.Gives program slots view where
  lanes := by
    intro lanes hlanes behind lane hlane
    rw [Tree.lanes_reading_of_deref hderef] at hlanes
    obtain ⟨place, hsome, hread⟩ := Option.bind_eq_some_iff.mp hlanes
    obtain ⟨hend, -, rfl⟩ := Program.readPlace?_eq_some_iff.mp hread
    have hbehind : behind < place.ty.flatLen := by
      have hlength := (List.getElem?_eq_some_iff.mp hlane).1
      rw [List.length_take] at hlength
      omega
    refine hplace place hsome behind (hbehind.trans place.ty.flatLen_lt) lane ?_
    rwa [List.getElem?_take_of_lt hbehind, List.getElem?_drop,
      ← Lanes.position_of_lt (by omega)] at hlane
  place := hplace

/-- A part of what the view shows is shown by the part of the view. -/
theorem place_part {place : Place} (hgives : tree.Gives program slots view)
    (hplace : (tree.reading program.vars slots).place = some place)
    (selected : Nat × Ty) {behind : Nat} {lane : Lane}
    (hlane : (slots.getD place.root.index [])[Lanes.position (place.part selected).offset behind]? =
      some lane) : view.part (some selected) behind = lane := by
  refine hgives.place place hplace _ (Lanes.position_lt _ _) lane ?_
  rwa [Lanes.position_position']

/-- A variable gives what shows the lanes that it holds. -/
theorem of_variable {read : VarId} (id : NodeId) (children : List Tree)
    (hcovers : view.Covers (slots.getD read.index [])) :
    Tree.Gives program slots ⟨id, .variable read, children⟩ view where
  lanes := by
    intro lanes hlanes
    rw [Tree.reading_mk] at hlanes
    have hslot : slots[read.index]? = some lanes := hlanes
    rwa [Array.getD_eq_getD_getElem?, hslot, Option.getD_some] at hcovers
  place := by
    intro place hplace behind hbehind lane hlane
    rw [Tree.reading_mk] at hplace
    obtain ⟨declared, -, rfl⟩ := Option.map_eq_some_iff.mp hplace
    have hposition : Lanes.position 0 behind = behind :=
      (Lanes.position_of_lt (by omega)).trans (Nat.zero_add behind)
    exact hcovers behind lane (hposition ▸ hlane)

end Tree.Gives

namespace Program.Outlines

variable {program : Program} {code : Code} {slots : Array Lanes} {tree : Tree}

variable (houtlines : program.Outlines code) (hconsistent : program.TypeConsistent)
  (hsized : program.Sized slots)

include houtlines hconsistent hsized

/-- The lanes of an operand are those that its type has in what it gives. -/
theorem eq_lanes_of_gives (hcontains : code.Contains tree) {view : View} {lanes : Lanes}
    (hgives : tree.Gives program slots view)
    (hlanes : (tree.reading program.vars slots).lanes = some lanes) :
    lanes = view.lanes (tree.ty? program) := by
  obtain ⟨ty, hty, -⟩ :=
    houtlines.exists_ty hconsistent hcontains (Tree.isStatement_of_lanes hlanes)
  rw [hty]
  exact (hgives.lanes lanes hlanes).eq_lanes
    (houtlines.length_of_lanes hconsistent hsized hcontains hlanes hty)

/-- The lanes of operands are those that their types have in what they give. -/
theorem eq_lanes_of_mapM {trees : List Tree} (hcontains : ∀ tree ∈ trees, code.Contains tree)
    {views : List View} {found : List Lanes}
    (hgive : List.Forall₂ (Tree.Gives program slots) trees views)
    (hfound : (trees.map (Tree.reading program.vars slots)).mapM Reading.lanes = some found) :
    found = List.zipWith View.lanes views (trees.map (Tree.ty? program)) := by
  induction hgive generalizing found with
  | nil => exact (Option.some.inj hfound).symm
  | cons hfirst _ ih =>
    obtain ⟨hcontainsFirst, hcontains⟩ := List.forall_mem_cons.mp hcontains
    simp only [List.map_cons, List.mapM_cons, Option.bind_eq_bind, Option.bind_eq_some_iff,
      Option.pure_def, Option.some.injEq] at hfound
    obtain ⟨lanes, hlanes, later, hlater, rfl⟩ := hfound
    rw [ih hcontains hlater,
      houtlines.eq_lanes_of_gives hconsistent hsized hcontainsFirst hfirst hlanes,
      List.map_cons, List.zipWith_cons_cons]

/-- A computation whose operands give these views gives what its head makes of them. -/
theorem gives_of_head (hcontains : code.Contains tree)
    {head : Head} (hhead : tree.node.head? = some head)
    (hoperand : tree.node.isStatement = false) {views : List View}
    (hgive : List.Forall₂ (Tree.Gives program slots) tree.children views) : tree.Gives program slots
      (head.view (tree.ty? program) (tree.children.map (Tree.ty? program)) views) := by
  obtain ⟨id, node, children⟩ := tree
  have hids := (houtlines.draws_of_contains hcontains).children_eq
  have hchildren : ∀ child ∈ children, code.Contains child := fun child => hcontains.child
  cases node with
  | constant value =>
    obtain rfl := Option.some.inj hhead
    refine .of_placeless (by rw [Tree.reading_mk]; rfl) fun found hfound => ?_
    rw [Tree.reading_mk] at hfound
    obtain rfl := Option.some.inj hfound
    exact View.covers_ofLanes _
  | index baseId positionId =>
    obtain rfl := Option.some.inj hhead
    obtain ⟨base, position, rfl, rfl, rfl⟩ := Tree.exists_pair_of_ids hids
    obtain _ | ⟨hbase, _ | ⟨hposition, ⟨⟩⟩⟩ := hgive
    refine .of_place rfl fun part hpart behind _ lane hlane => ?_
    rw [Tree.reading_mk] at hpart
    obtain ⟨place, hplace, hpart⟩ := Option.bind_eq_some_iff.mp hpart
    obtain ⟨lanes, hlanes, helement⟩ := Option.bind_eq_some_iff.mp hpart
    obtain ⟨selected, hselected, rfl⟩ := Option.map_eq_some_iff.mp helement
    have hindex := houtlines.eq_lanes_of_gives hconsistent hsized (hchildren position (by simp))
      hposition hlanes
    have hview := hbase.place_part hplace selected hlane
    have hselected : (base.ty? program).bind (·.elementAt? (lanes.lane 0)) = some selected := by
      rw [Tree.ty?_of_place hplace, Option.bind_some, hselected]
    rwa [← hselected, hindex] at hview
  | field recordId number =>
    obtain rfl := Option.some.inj hhead
    obtain ⟨record, rfl, rfl⟩ := Tree.exists_single_of_ids hids
    obtain _ | ⟨hrecord, ⟨⟩⟩ := hgive
    refine .of_place rfl fun part hpart behind _ lane hlane => ?_
    rw [Tree.reading_mk] at hpart
    obtain ⟨place, hplace, hfield⟩ := Option.bind_eq_some_iff.mp hpart
    obtain ⟨selected, hselected, rfl⟩ := Option.map_eq_some_iff.mp hfield
    have hview := hrecord.place_part hplace selected hlane
    have hselected : (record.ty? program).bind (·.fieldAt? number) = some selected := by
      rw [Tree.ty?_of_place hplace, Option.bind_some, hselected]
    rwa [← hselected] at hview
  | swizzle valueId mask =>
    obtain rfl := Option.some.inj hhead
    obtain ⟨value, rfl, rfl⟩ := Tree.exists_single_of_ids hids
    obtain _ | ⟨hvalue, ⟨⟩⟩ := hgive
    refine .of_placeless (by rw [Tree.reading_mk]; rfl) fun found hfound => ?_
    rw [Tree.reading_mk] at hfound
    obtain ⟨lanes, hlanes, rfl⟩ := Option.map_eq_some_iff.mp hfound
    rw [houtlines.eq_lanes_of_gives hconsistent hsized (hchildren value (by simp)) hvalue hlanes]
    exact View.covers_ofLanes _
  | apply op operandIds ty =>
    obtain rfl := Option.some.inj hhead
    refine .of_placeless (by rw [Tree.reading_mk]; rfl) fun found hfound => ?_
    rw [Tree.reading_mk] at hfound
    obtain ⟨values, hvalues, hlanes⟩ := Option.bind_eq_some_iff.mp hfound
    obtain rfl := houtlines.eq_lanes_of_mapM hconsistent hsized hchildren hgive hvalues
    split at hlanes
    · obtain rfl := Option.some.inj hlanes
      rw [Tree.ty?_mk]
      exact View.covers_ofLanes _
    · cases hlanes
  | texture op channel operandIds ty =>
    obtain rfl := Option.some.inj hhead
    refine .of_placeless (by rw [Tree.reading_mk]; rfl) fun found hfound => ?_
    rw [Tree.reading_mk] at hfound
    obtain ⟨values, hvalues, rfl⟩ := Option.map_eq_some_iff.mp hfound
    rw [houtlines.eq_lanes_of_mapM hconsistent hsized hchildren hgive hvalues, Tree.ty?_mk]
    exact View.covers_ofLanes _
  | «variable» => cases hhead
  | _ => cases hoperand

end Program.Outlines

end ShaderIR
