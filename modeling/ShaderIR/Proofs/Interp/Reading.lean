import ShaderIR.Interp.Run
import ShaderIR.Proofs.Answers
import ShaderIR.Proofs.Outline.Basic
import Mathlib.Algebra.GroupWithZero.Nat

/-!
Evaluation of operands as a function of trees. `Tree.reading` says which place an operand names and
which lanes it has when the variables hold given lanes, and `Tree.samples` counts the texture
operations in it. `Program.evaluates_evaluateWithin` and `Program.answers_placeVia` say that the
interpreter evaluates an operand to just these lanes and that place, and that it changes nothing but
the number of texture operations.
-/

set_option autoImplicit false

namespace ShaderIR

/-! ### Places and readings -/

/-- Where the element that a lane selects begins in a value of a type, and the type of the
element. -/
def Ty.elementAt? (ty : Ty) (lane : Lane) : Option (Nat × Ty) :=
  ty.element?.map fun element =>
    let length := match ty with
      | .array _ length => length.toNat
      | ty => ty.lanes.toNat
    (Program.clampIndex lane length * element.flatLen, element)

/-- Where a field begins in a value of a record type, and the type of the field. -/
def Ty.fieldAt? (ty : Ty) (number : Nat) : Option (Nat × Ty) :=
  match ty with
  | .record _ fields => fields[number]?.map fun (_, ty) => (Ty.fieldsLen (fields.take number), ty)
  | _ => none

namespace Place

/-- The part of a place that begins somewhere in it and has a type. -/
def part (place : Place) (selected : Nat × Ty) : Place :=
  ⟨place.root, Lanes.position place.offset selected.1, selected.2⟩

/-- The element that a lane selects. -/
def element? (place : Place) (lane : Lane) : Option Place :=
  (place.ty.elementAt? lane).map place.part

/-- A field of a record. -/
def field? (place : Place) (number : Nat) : Option Place :=
  (place.ty.fieldAt? number).map place.part

theorem root_of_element? {place element : Place} {lane : Lane}
    (helement : place.element? lane = some element) : element.root = place.root := by
  obtain ⟨selected, -, rfl⟩ := Option.map_eq_some_iff.mp helement
  rfl

theorem root_of_field? {place field : Place} {number : Nat}
    (hfield : place.field? number = some field) :
    field.root = place.root := by
  obtain ⟨selected, -, rfl⟩ := Option.map_eq_some_iff.mp hfield
  rfl

end Place

/-- What an operand is found to be: the place that it names and the lanes that it has. -/
structure Reading where
  place : Option Place := none
  lanes : Option Lanes := none

/-- The reading of a place. -/
def Reading.ofPlace (slots : Array Lanes) (place : Option Place) : Reading where
  place := place
  lanes := place.bind (Program.readPlace? slots)

@[simp] theorem Reading.ofPlace_place (slots : Array Lanes) (place : Option Place) :
    (ofPlace slots place).place = place :=
  rfl

/-- What a node makes of the readings of its children. -/
def Node.reading (vars : Array Variable) (slots : Array Lanes) (node : Node)
    (children : List Reading) : Reading :=
  match node, children with
  | .constant value, _ => { lanes := some (value.lanes.map Literal.lane) }
  | .variable read, _ =>
    { place := vars[read.index]?.map fun declared => ⟨read, 0, declared.ty⟩
      lanes := slots[read.index]? }
  | .index .., [base, position] => .ofPlace slots do
    let place ← base.place
    place.element? ((← position.lanes).lane 0)
  | .field _ number, [record] => .ofPlace slots do (← record.place).field? number
  | .swizzle _ mask, [value] =>
    { lanes := value.lanes.map fun value => mask.lanes.map fun lane => value.lane lane.val }
  | .apply op _ ty, operands =>
    { lanes := (operands.mapM Reading.lanes).bind fun values =>
        if values.length = op.arity then some
          ((op.apply values).resize (max ty.flatLen 1)) else none }
  | .texture op channel _ ty, operands =>
    { lanes := (operands.mapM Reading.lanes).map fun values =>
        (Seed.texture op channel values).lanes ty.flatLen }
  | _, _ => {}

/-- How many texture operations a node stands for, given those of its children. -/
def Node.samples (node : Node) (children : List Nat) : Nat :=
  match node with
  | .texture .. => children.sum + 1
  | _ => children.sum

namespace Tree

/-- What an operand is found to be. -/
def reading (vars : Array Variable) (slots : Array Lanes) : Tree → Reading :=
  fold (Node.reading vars slots)

/-- The number of texture operations in an operand. -/
def samples : Tree → Nat :=
  fold Node.samples

theorem reading_mk (vars : Array Variable) (slots : Array Lanes) (id : NodeId) (node : Node)
    (children : List Tree) : reading vars slots ⟨id, node, children⟩ =
      node.reading vars slots (children.map (reading vars slots)) :=
  fold_mk _ id node children

theorem lanes_reading_of_deref {vars : Array Variable} {slots : Array Lanes} {tree : Tree}
    (hderef : tree.node.kind = .deref) : (tree.reading vars slots).lanes =
      (tree.reading vars slots).place.bind (Program.readPlace? slots) := by
  obtain ⟨id, node, children⟩ := tree
  rw [reading_mk]
  unfold Node.reading
  split <;> simp_all [Reading.ofPlace, Node.kind]

theorem reading_index (vars : Array Variable) (slots : Array Lanes) (id baseId positionId : NodeId)
    (base position : Tree) : reading vars slots ⟨id, .index baseId positionId, [base, position]⟩ =
      .ofPlace slots ((base.reading vars slots).place.bind fun place =>
        (position.reading vars slots).lanes.bind fun lanes => place.element? (lanes.lane 0)) := by
  rw [reading_mk]
  rfl

theorem reading_field (vars : Array Variable) (slots : Array Lanes) (id recordId : NodeId)
    (number : Nat) (record : Tree) : reading vars slots ⟨id, .field recordId number, [record]⟩ =
      .ofPlace slots ((record.reading vars slots).place.bind fun place => place.field? number) := by
  rw [reading_mk]
  rfl

theorem samples_mk (id : NodeId) (node : Node) (children : List Tree) :
    samples ⟨id, node, children⟩ = node.samples (children.map samples) :=
  fold_mk _ id node children

end Tree

/-- The machine after so many more texture operations. -/
def Machine.sampled (machine : Machine) (count : Nat) : Machine :=
  { machine with trace.textureSamples := machine.trace.textureSamples + count }

namespace Machine

@[simp] theorem sampled_slots (machine : Machine) (count : Nat) :
    (machine.sampled count).slots = machine.slots :=
  rfl

@[simp] theorem sampled_zero (machine : Machine) : machine.sampled 0 = machine :=
  rfl

@[simp] theorem sampled_sampled (machine : Machine) (first second : Nat) :
    (machine.sampled first).sampled second = machine.sampled (first + second) := by
  simp [sampled, Nat.add_assoc]

end Machine

/-! ### The interpreter -/

namespace Program

variable {program : Program}

/-- An evaluator finds the lanes of a tree. -/
def Evaluates (program : Program) (evaluate : NodeId → Execution Lanes) (tree : Tree) : Prop :=
  ∀ machine lanes machine', Walk.Answers (evaluate tree.id) machine lanes machine' ↔
    (tree.reading program.vars machine.slots).lanes = some lanes ∧
      machine' = machine.sampled tree.samples

theorem answers_mapM_evaluate {evaluate : NodeId → Execution Lanes} {trees : List Tree}
    (hevaluates : ∀ tree ∈ trees, program.Evaluates evaluate tree) {machine machine' : Machine}
    {values : List Lanes} :
    Walk.Answers ((trees.map Tree.id).mapM evaluate) machine values machine' ↔
      (trees.map (Tree.reading program.vars machine.slots)).mapM Reading.lanes = some values ∧
        machine' = machine.sampled (trees.map Tree.samples).sum := by
  induction trees generalizing machine values with
  | nil =>
    simp [eq_comm]
  | cons first rest ih =>
    have hfirst := hevaluates first List.mem_cons_self machine
    have hrest := fun machine values => @ih (fun tree htree =>
      hevaluates tree (List.mem_cons_of_mem _ htree)) machine values
    rw [List.map_cons, Walk.answers_mapM_cons]
    simp only [hfirst, hrest, List.map_cons, List.mapM_cons, List.sum_cons]
    constructor
    · rintro ⟨lanes, later, _, ⟨hlanes, rfl⟩, ⟨hlater, rfl⟩, rfl⟩
      rw [Machine.sampled_slots] at hlater
      simp [hlanes, hlater]
    · rintro ⟨hvalues, rfl⟩
      simp only [Option.bind_eq_bind, Option.bind_eq_some_iff, Option.pure_def, Option.some.injEq]
        at hvalues
      obtain ⟨lanes, hlanes, later, hlater, rfl⟩ := hvalues
      exact ⟨lanes, later, _, ⟨hlanes, rfl⟩, ⟨hlater, by simp⟩, rfl⟩

private theorem answers_element {place answer : Place} {lane : Lane} {id : NodeId}
    {machine machine' : Machine} : Walk.Answers (match place.ty.element? with
      | none => throw (RunError.malformed id)
      | some element =>
        let length := match place.ty with
          | .array _ length => length.toNat
          | ty => ty.lanes.toNat
        pure ⟨place.root, Lanes.position place.offset (clampIndex lane length * element.flatLen),
          element⟩ : Execution Place) machine answer machine' ↔
      place.element? lane = some answer ∧ machine = machine' := by
  unfold Place.element? Ty.elementAt?
  cases place.ty.element? with
  | none => simp
  | some element => simp [Place.part]

private theorem answers_field {place answer : Place} {number : Nat} {id : NodeId}
    {machine machine' : Machine} : Walk.Answers (match place.ty with
      | .record _ fields =>
        match fields[number]? with
        | none => throw (RunError.malformed id)
        | some (_, ty) =>
          pure ⟨place.root, Lanes.position place.offset (Ty.fieldsLen (fields.take number)), ty⟩
      | _ => throw (RunError.malformed id) : Execution Place) machine answer machine' ↔
      place.field? number = some answer ∧ machine = machine' := by
  unfold Place.field? Ty.fieldAt?
  cases place.ty with
  | record name fields =>
    dsimp only
    cases fields[number]? with
    | none => simp
    | some field => simp [Place.part]
  | _ => simp

section

variable {evaluate : NodeId → Execution Lanes} {steps : Nat} {id : NodeId}
  {machine machine' : Machine} {place : Place}

/-- A variable is resolved to all of its lanes. -/
theorem answers_placeVia_of_variable {root : VarId}
    (hnode : program.node id = .ok (.variable root)) :
    Walk.Answers (program.placeVia evaluate (steps + 1) id) machine place machine' ↔
      ∃ declared, program.variableOf root = .ok declared ∧ ⟨root, 0, declared.ty⟩ = place ∧
        machine = machine' := by
  rw [placeVia, Walk.answers_liftCrash_bind hnode]
  simp only [Walk.answers_bind, Walk.answers_liftCrash, Walk.answers_pure]
  constructor
  · rintro ⟨declared, _, ⟨hdeclared, rfl⟩, hplace, rfl⟩
    exact ⟨declared, hdeclared, hplace, rfl⟩
  · rintro ⟨declared, hdeclared, hplace, rfl⟩
    exact ⟨declared, _, ⟨hdeclared, rfl⟩, hplace, rfl⟩

/-- An index is resolved after what it indexes. -/
theorem answers_placeVia_of_index {base position : NodeId}
    (hnode : program.node id = .ok (.index base position)) :
    Walk.Answers (program.placeVia evaluate (steps + 1) id) machine place machine' ↔
      ∃ whole between lanes,
        Walk.Answers (program.placeVia evaluate steps base) machine whole between ∧
        Walk.Answers (evaluate position) between lanes machine' ∧
        whole.element? (lanes.lane 0) = some place := by
  rw [placeVia, Walk.answers_liftCrash_bind hnode]
  simp only [Walk.answers_bind]
  constructor
  · rintro ⟨whole, between, hwhole, lanes, _, hlanes, hselect⟩
    obtain ⟨helement, rfl⟩ := answers_element.mp hselect
    exact ⟨whole, between, lanes, hwhole, hlanes, helement⟩
  · rintro ⟨whole, between, lanes, hwhole, hlanes, helement⟩
    exact ⟨whole, between, hwhole, lanes, _, hlanes, answers_element.mpr ⟨helement, rfl⟩⟩

/-- A field is resolved after its record. -/
theorem answers_placeVia_of_field {record : NodeId} {number : Nat}
    (hnode : program.node id = .ok (.field record number)) :
    Walk.Answers (program.placeVia evaluate (steps + 1) id) machine place machine' ↔
      ∃ whole, Walk.Answers (program.placeVia evaluate steps record) machine whole machine' ∧
        whole.field? number = some place := by
  rw [placeVia, Walk.answers_liftCrash_bind hnode]
  simp only [Walk.answers_bind]
  constructor
  · rintro ⟨whole, _, hwhole, hselect⟩
    obtain ⟨hfield, rfl⟩ := answers_field.mp hselect
    exact ⟨whole, hwhole, hfield⟩
  · rintro ⟨whole, hwhole, hfield⟩
    exact ⟨whole, _, hwhole, answers_field.mpr ⟨hfield, rfl⟩⟩

end

/-- The interpreter resolves an operand to the place that it names. -/
theorem answers_placeVia {evaluate : NodeId → Execution Lanes} {tree : Tree} {steps : Nat}
    (hdraws : program.Draws tree) (hsteps : tree.height ≤ steps)
    (hevaluates : ∀ below, program.Draws below → below.height < tree.height →
      program.Evaluates evaluate below) {machine machine' : Machine} {place : Place} :
    Walk.Answers (program.placeVia evaluate steps tree.id) machine place machine' ↔
      (tree.reading program.vars machine.slots).place = some place ∧
        machine' = machine.sampled tree.samples := by
  induction steps generalizing tree machine machine' place with
  | zero => exact absurd hsteps (Nat.not_le.mpr tree.height_pos)
  | succ steps ih =>
    obtain ⟨id, node, children⟩ := tree
    have hchildren := hdraws.children_eq
    have hbelow := fun child hchild below hdraws' hheight =>
      hevaluates below hdraws' (Nat.lt_of_lt_of_le hheight
        (show Tree.height child ≤ Tree.height ⟨id, node, children⟩ from
          Nat.le_of_lt (Tree.height_lt_of_mem_children hchild)))
    have hchild := fun child hchild {machine machine' place} =>
      @ih child (hdraws.child hchild) (Tree.height_le_of_mem_children hchild hsteps)
        (hbelow child hchild) machine machine' place
    rw [Tree.reading_mk, Tree.samples_mk]
    cases node with
    | «variable» root =>
      obtain rfl := Tree.eq_nil_of_ids hchildren
      simp only [answers_placeVia_of_variable hdraws.node_eq, variableOf_eq_ok_iff, Node.reading,
        Node.samples, List.map_nil, List.sum_nil, Machine.sampled_zero, Option.map_eq_some_iff]
      constructor
      · rintro ⟨declared, hdeclared, hplace, rfl⟩
        exact ⟨⟨declared, hdeclared, hplace⟩, rfl⟩
      · rintro ⟨⟨declared, hdeclared, hplace⟩, rfl⟩
        exact ⟨declared, hdeclared, hplace, rfl⟩
    | index base position =>
      obtain ⟨base, position, rfl, rfl, rfl⟩ := Tree.exists_pair_of_ids hchildren
      have hposition := hevaluates position (hdraws.child (by simp))
        (Tree.height_lt_of_mem_children (by simp))
      simp only [answers_placeVia_of_index hdraws.node_eq, hchild base (by simp), hposition _ _ _,
        Node.reading, Node.samples, List.map_cons, List.map_nil, List.sum_cons, List.sum_nil,
        Nat.add_zero, Reading.ofPlace_place, Option.bind_eq_bind, Option.bind_eq_some_iff]
      constructor
      · rintro ⟨whole, _, lanes, ⟨hbase, rfl⟩, ⟨hlanes, rfl⟩, helement⟩
        exact ⟨⟨whole, hbase, lanes, hlanes, helement⟩, by simp⟩
      · rintro ⟨⟨whole, hbase, lanes, hlanes, helement⟩, rfl⟩
        exact ⟨whole, _, lanes, ⟨hbase, rfl⟩, ⟨hlanes, by simp⟩, helement⟩
    | field record number =>
      obtain ⟨record, rfl, rfl⟩ := Tree.exists_single_of_ids hchildren
      simp only [answers_placeVia_of_field hdraws.node_eq, hchild record (by simp), Node.reading,
        Node.samples, List.map_cons, List.map_nil, List.sum_cons, List.sum_nil, Nat.add_zero,
        Reading.ofPlace_place, Option.bind_eq_bind, Option.bind_eq_some_iff]
      constructor
      · rintro ⟨whole, ⟨hrecord, rfl⟩, hfield⟩
        exact ⟨⟨whole, hrecord, hfield⟩, rfl⟩
      · rintro ⟨⟨whole, hrecord, hfield⟩, rfl⟩
        exact ⟨whole, ⟨hrecord, rfl⟩, hfield⟩
    | swizzle value mask =>
      obtain ⟨value, rfl, rfl⟩ := Tree.exists_single_of_ids hchildren
      rw [placeVia, Walk.answers_liftCrash_bind hdraws.node_eq]
      simp [Node.reading]
    | _ =>
      rw [placeVia, Walk.answers_liftCrash_bind hdraws.node_eq]
      simp [Node.reading]

private theorem answers_readResolved {resolve : Execution Place} {machine machine' : Machine}
    {resolved : Option Place} {count : Nat} {lanes : Lanes} {id : NodeId}
    (hresolve : ∀ place between, Walk.Answers resolve machine place between ↔
      resolved = some place ∧ between = machine.sampled count) :
    Walk.Answers (do
      let place ← resolve
      match readPlace? (← get).slots place with
      | some lanes => return lanes
      | none => throw (RunError.malformed id) : Execution Lanes) machine lanes machine' ↔
      resolved.bind (readPlace? machine.slots) = some lanes ∧ machine' = machine.sampled count := by
  simp only [Walk.answers_bind, hresolve, Walk.answers_get, Option.bind_eq_some_iff]
  constructor
  · rintro ⟨place, _, ⟨rfl, rfl⟩, _, _, ⟨rfl, rfl⟩, hread⟩
    rw [Machine.sampled_slots] at hread
    split at hread
    · next hlanes =>
      obtain ⟨rfl, rfl⟩ := Walk.answers_pure.mp hread
      exact ⟨⟨place, rfl, hlanes⟩, rfl⟩
    · simp at hread
  · rintro ⟨⟨place, rfl, hlanes⟩, rfl⟩
    exact ⟨place, _, ⟨rfl, rfl⟩, _, _, ⟨rfl, rfl⟩, by simp [hlanes]⟩

/-- The interpreter evaluates an operand to the lanes that it has. -/
theorem evaluates_evaluateWithin {tree : Tree} {steps : Nat} (hdraws : program.Draws tree)
    (hsteps : tree.height ≤ steps) (hbound : tree.height ≤ program.chainBound) :
    program.Evaluates (program.evaluateWithin steps) tree := by
  induction steps generalizing tree with
  | zero => exact absurd hsteps (Nat.not_le.mpr tree.height_pos)
  | succ steps ih =>
    intro machine lanes machine'
    obtain ⟨id, node, children⟩ := tree
    have hchildren := hdraws.children_eq
    have hbelow : ∀ below, program.Draws below → below.height < Tree.height ⟨id, node, children⟩ →
        program.Evaluates (program.evaluateWithin steps) below := fun below hdraws' hheight =>
      ih hdraws' (Nat.le_of_lt_succ (hheight.trans_le hsteps)) (hheight.le.trans hbound)
    have hevaluates : ∀ child ∈ children, program.Evaluates (program.evaluateWithin steps) child :=
      fun child hchild => hbelow child (hdraws.child hchild) (Tree.height_lt_of_mem_children hchild)
    have hplace := fun place between =>
      @answers_placeVia _ _ _ _ hdraws hbound hbelow machine between place
    rw [evaluateWithin, Walk.answers_liftCrash_bind hdraws.node_eq]
    cases node with
    | constant value =>
      obtain rfl := Tree.eq_nil_of_ids hchildren
      simp [Tree.reading_mk, Tree.samples_mk, Node.reading, Node.samples, eq_comm]
    | «variable» read =>
      obtain rfl := Tree.eq_nil_of_ids hchildren
      simp only [Walk.answers_bind, Walk.answers_get, Walk.answers_liftCrash, fetch_eq_ok_iff,
        Tree.reading_mk, Tree.samples_mk, Node.reading, Node.samples, List.map_nil, List.sum_nil,
        Machine.sampled_zero]
      constructor
      · rintro ⟨_, _, ⟨rfl, rfl⟩, hlanes, rfl⟩
        exact ⟨hlanes, rfl⟩
      · rintro ⟨hlanes, rfl⟩
        exact ⟨_, _, ⟨rfl, rfl⟩, hlanes, rfl⟩
    | index | field =>
      rw [Tree.lanes_reading_of_deref rfl]
      exact answers_readResolved hplace
    | swizzle value mask =>
      obtain ⟨value, rfl, rfl⟩ := Tree.exists_single_of_ids hchildren
      simp only [Walk.answers_bind, hevaluates value (by simp) _ _ _, Walk.answers_pure,
        Tree.reading_mk, Tree.samples_mk, Node.reading, Node.samples, List.map_cons, List.map_nil,
        List.sum_cons, List.sum_nil, Nat.add_zero, Option.map_eq_some_iff]
      constructor
      · rintro ⟨values, _, ⟨hvalues, rfl⟩, hlanes, rfl⟩
        exact ⟨⟨values, hvalues, hlanes⟩, rfl⟩
      · rintro ⟨⟨values, hvalues, hlanes⟩, rfl⟩
        exact ⟨values, _, ⟨hvalues, rfl⟩, hlanes, rfl⟩
    | apply op operands ty =>
      obtain rfl : operands = children.map Tree.id := hchildren
      simp only [Walk.answers_bind, answers_mapM_evaluate hevaluates, Tree.reading_mk,
        Tree.samples_mk, Node.reading, Node.samples, Option.bind_eq_some_iff]
      constructor
      · rintro ⟨values, _, ⟨hvalues, rfl⟩, hlanes⟩
        split at hlanes
        · simp at hlanes
        · next harity =>
          obtain ⟨hvalue, rfl⟩ := Walk.answers_pure.mp hlanes
          refine ⟨⟨values, hvalues, ?_⟩, rfl⟩
          rw [if_pos (not_not.mp harity), hvalue]
      · rintro ⟨⟨values, hvalues, hlanes⟩, rfl⟩
        split at hlanes
        · next harity =>
          refine ⟨values, _, ⟨hvalues, rfl⟩, ?_⟩
          simpa [harity] using hlanes
        · simp at hlanes
    | texture op channel operands ty =>
      have hoperands : operands.toList = children.map Tree.id := hchildren
      simp only [hoperands, Walk.answers_bind,
        answers_mapM_evaluate hevaluates, Walk.answers_modify,
        Walk.answers_pure, Tree.reading_mk, Tree.samples_mk, Node.reading, Node.samples,
        Option.map_eq_some_iff]
      constructor
      · rintro ⟨values, _, ⟨hvalues, rfl⟩, _, _, rfl, hlanes, rfl⟩
        exact ⟨⟨values, hvalues, hlanes⟩, Machine.sampled_sampled ..⟩
      · rintro ⟨⟨values, hvalues, hlanes⟩, rfl⟩
        exact ⟨values, _, ⟨hvalues, rfl⟩, ⟨⟩, _, rfl, hlanes, Machine.sampled_sampled ..⟩
    | _ => simp [Tree.reading_mk, Node.reading]

end Program

end ShaderIR
