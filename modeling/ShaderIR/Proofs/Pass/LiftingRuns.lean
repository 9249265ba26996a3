import ShaderIR.Proofs.Interp.Agreement
import ShaderIR.Proofs.Interp.Execution
import ShaderIR.Proofs.Interp.Writes
import ShaderIR.Proofs.Pass.Lifting

/-!
Runs of what has been lifted. `Lifted.runs` says that the rows in front of a statement can be
executed, that they change nothing but their own temporaries, and that the edited operands are then
found to be what the old ones are found to be in the old program, also later on while the lifted
computations would still give what they gave (`Role.Steady`).
-/

set_option autoImplicit false

namespace ShaderIR

/-! ### Defined operands -/

/-- An operand has lanes or names a place. -/
def Reading.Defined (reading : Reading) : Prop :=
  reading.lanes.isSome ∨ reading.place.isSome

private theorem defined_of_mapM {readings : List Reading} {values : List Lanes}
    (hvalues : readings.mapM Reading.lanes = some values) :
    ∀ reading ∈ readings, reading.Defined := by
  induction readings generalizing values with
  | nil => simp
  | cons first rest ih =>
    simp only [List.mapM_cons, Option.bind_eq_bind, Option.bind_eq_some_iff] at hvalues
    obtain ⟨lanes, hlanes, later, hlater, -⟩ := hvalues
    rintro reading (_ | ⟨_, hmem⟩)
    · exact Or.inl (by rw [hlanes]; rfl)
    · exact ih hlater reading hmem

/-- All operands of a defined operand are defined. -/
theorem Tree.defined_of_mem_children {vars : Array Variable} {slots : Array Lanes} {tree : Tree}
    (hlinked : tree.Linked) (hdefined : (tree.reading vars slots).Defined) :
    ∀ child ∈ tree.children, (child.reading vars slots).Defined := by
  obtain ⟨id, node, children⟩ := tree
  have hchildren := hlinked _ (mem_subtrees_self _)
  rw [reading_mk] at hdefined
  suffices hreadings : ∀ found ∈ children.map (Tree.reading vars slots), found.Defined from
    fun child hchild => hreadings _ (List.mem_map_of_mem hchild)
  cases node with
  | constant | «variable» =>
    obtain rfl : children = [] := eq_nil_of_ids hchildren
    simp
  | index base position =>
    obtain ⟨base, position, rfl, rfl, rfl⟩ := exists_pair_of_ids hchildren
    obtain ⟨place, hplace⟩ : ∃ place, (Node.reading vars slots (.index base.id position.id)
        [base.reading vars slots, position.reading vars slots]).place = some place := by
      rcases hdefined with hlanes | hplace
      · obtain ⟨lanes, hlanes⟩ := Option.isSome_iff_exists.mp hlanes
        obtain ⟨place, hplace, -⟩ := Option.bind_eq_some_iff.mp hlanes
        exact ⟨place, hplace⟩
      · exact Option.isSome_iff_exists.mp hplace
    obtain ⟨basePlace, hbase, hplace⟩ := Option.bind_eq_some_iff.mp hplace
    obtain ⟨lanes, hposition, -⟩ := Option.bind_eq_some_iff.mp hplace
    simp only [List.map_cons, List.map_nil, List.forall_mem_cons]
    exact ⟨Or.inr (by rw [hbase]; rfl), Or.inl (by rw [hposition]; rfl), by simp⟩
  | field record number =>
    obtain ⟨record, rfl, rfl⟩ := exists_single_of_ids hchildren
    obtain ⟨place, hplace⟩ : ∃ place, (Node.reading vars slots (.field record.id number)
        [record.reading vars slots]).place = some place := by
      rcases hdefined with hlanes | hplace
      · obtain ⟨lanes, hlanes⟩ := Option.isSome_iff_exists.mp hlanes
        obtain ⟨place, hplace, -⟩ := Option.bind_eq_some_iff.mp hlanes
        exact ⟨place, hplace⟩
      · exact Option.isSome_iff_exists.mp hplace
    obtain ⟨recordPlace, hrecord, -⟩ := Option.bind_eq_some_iff.mp hplace
    simp only [List.map_cons, List.map_nil, List.forall_mem_cons]
    exact ⟨Or.inr (by rw [hrecord]; rfl), by simp⟩
  | swizzle value mask =>
    obtain ⟨value, rfl, rfl⟩ := exists_single_of_ids hchildren
    rcases hdefined with hlanes | hplace
    · obtain ⟨lanes, hlanes⟩ := Option.isSome_iff_exists.mp hlanes
      obtain ⟨operand, hoperand, -⟩ := Option.map_eq_some_iff.mp hlanes
      simp only [List.map_cons, List.map_nil, List.forall_mem_cons]
      exact ⟨Or.inl (by rw [hoperand]; rfl), by simp⟩
    · cases hplace
  | apply op operands ty =>
    rcases hdefined with hlanes | hplace
    · obtain ⟨lanes, hlanes⟩ := Option.isSome_iff_exists.mp hlanes
      obtain ⟨values, hvalues, -⟩ := Option.bind_eq_some_iff.mp hlanes
      exact defined_of_mapM hvalues
    · cases hplace
  | texture op channel operands ty =>
    rcases hdefined with hlanes | hplace
    · obtain ⟨lanes, hlanes⟩ := Option.isSome_iff_exists.mp hlanes
      obtain ⟨values, hvalues, -⟩ := Option.map_eq_some_iff.mp hlanes
      exact defined_of_mapM hvalues
    · cases hplace
  | _ => rcases hdefined with hnone | hnone <;> cases hnone

/-! ### Rows that run -/

/-- Statements are executed one after the other, and none of them sends control elsewhere. -/
inductive Program.PerformsAll (program : Program) : List Tree → Machine → Machine → Prop
  | nil (machine : Machine) : PerformsAll program [] machine machine
  | cons {first : Tree} {rest : List Tree} {machine between machine' : Machine}
    (hfirst : program.Performs first machine .onward between)
    (hrest : PerformsAll program rest between machine') :
    PerformsAll program (first :: rest) machine machine'

namespace Program

variable {program : Program}

theorem PerformsAll.append {first second : List Tree} {machine between machine' : Machine}
    (hfirst : program.PerformsAll first machine between)
    (hsecond : program.PerformsAll second between machine') :
    program.PerformsAll (first ++ second) machine machine' := by
  induction hfirst with
  | nil => exact hsecond
  | cons hperforms _ ih => exact .cons hperforms (ih hsecond)

theorem Runs.prepend {statements : List Tree} {code : Code} {machine between machine' : Machine}
    {stopped : Bool} (hstatements : program.PerformsAll statements machine between)
    (hruns : program.Runs code between stopped machine') :
    program.Runs (Code.prepend statements code) machine stopped machine' := by
  induction hstatements with
  | nil => exact hruns
  | cons hperforms _ ih => exact .step hperforms (ih hruns)

end Program

/-! ### Two runs -/

/-- A run of a program with more variables mirrors a run of the old program: the old variables hold
the same lanes, and each new one holds as many lanes as its type has. -/
structure Program.Mirrors (program : Program) (bound : Nat) (slots slots' : Array Lanes) :
    Prop where
  same : ∀ index < bound, slots'[index]? = slots[index]?
  sized : ∀ (index : Nat) declared, bound ≤ index → program.vars[index]? = some declared →
    ∃ lanes, slots'[index]? = some lanes ∧ lanes.length = declared.ty.flatLen

theorem Program.size_le_of_getElem? {program program' : Program}
    (hvars : ∀ (index : Nat) declared, program.vars[index]? = some declared →
      program'.vars[index]? = some declared) : program.vars.size ≤ program'.vars.size := by
  rcases Nat.lt_or_ge program'.vars.size program.vars.size with hlt | hle
  · have hlast := hvars _ _ (Array.getElem?_eq_getElem hlt)
    simp at hlast
  · exact hle

/-- The types and lanes that numbers stand for. -/
abbrev Expected :=
  ValueNumber → Option (Ty × Lanes)

/-- The temporaries in a memory hold what their numbers stand for. -/
def Program.Holds (program : Program) (bound : Nat) (expected : Expected) (memory : Temporaries)
    (next : Nat) (slots : Array Lanes) : Prop :=
  ∀ number temporary, memory.lookup number = some temporary →
    bound ≤ temporary.index ∧ temporary.index < next ∧
      ∃ lanes declared, expected number = some (declared.ty, lanes) ∧
        program.vars[temporary.index]? = some declared ∧ slots[temporary.index]? = some lanes

section Store

variable {program : Program} {bound next : Nat} {expected : Expected} {memory : Temporaries}
  {slots after : Array Lanes} {declared : Variable} {lanes old : Lanes} (temporary : VarId)
  (hdeclared : program.vars[temporary.index]? = some declared)
  (hold : after[temporary.index]? = some old)

include hdeclared hold

/-- A new variable in which a value of its type is stored has as many lanes as before. -/
theorem Program.Mirrors.store (hmirrors : program.Mirrors bound slots after)
    (hbound : bound ≤ temporary.index) (hlength : lanes.length = declared.ty.flatLen) :
    program.Mirrors bound slots (after.setIfInBounds temporary.index lanes) where
  same index hlt := by
    rw [Array.getElem?_setIfInBounds_ne (Nat.ne_of_gt (hlt.trans_le hbound)),
      hmirrors.same index hlt]
  sized index other hle hfound := by
    by_cases hsame : index = temporary.index
    · subst hsame
      obtain rfl := Option.some.inj (hdeclared.symm.trans hfound)
      exact ⟨lanes,
        Array.getElem?_setIfInBounds_self_of_lt (Array.getElem?_eq_some_iff.mp hold).1, hlength⟩
    · rw [Array.getElem?_setIfInBounds_ne (Ne.symm hsame)]
      exact hmirrors.sized index other hle hfound

/-- The next temporary holds what has been stored in it, and may be remembered for its number. -/
theorem Program.Holds.store (shared : Option ValueNumber)
    (hholds : program.Holds bound expected memory next after) (hindex : temporary.index = next)
    (hbound : bound ≤ next) (hexpected : ∀ number ∈ shared,
      expected number = some (declared.ty, lanes)) :
    program.Holds bound expected (shared.toList.map (·, temporary) ++ memory) (next + 1)
      (after.setIfInBounds temporary.index lanes) := by
  intro number held hlookup
  rcases Lifted.lookup_remembered hlookup with ⟨hnumber, rfl⟩ | hlookup
  · exact ⟨by omega, by omega, lanes, declared, hexpected number hnumber, hdeclared,
      Array.getElem?_setIfInBounds_self_of_lt (Array.getElem?_eq_some_iff.mp hold).1⟩
  · obtain ⟨hle, hlt, found, declared, hfound, hdeclared, hslot⟩ := hholds number held hlookup
    refine ⟨hle, by omega, found, declared, hfound, hdeclared, ?_⟩
    rw [Array.getElem?_setIfInBounds_ne (by omega), hslot]

end Store

/-- A computation may be put into a temporary: it has a type and as many lanes as the type, and its
number stands for both. -/
structure Tree.Movable (program : Program) (Solid : Prop) (expected : Expected)
    (slots : Array Lanes) (shared : Option ValueNumber) (tree : Tree) : Prop where
  found : ∃ ty lanes, tree.ty? program = some ty ∧
    (tree.reading program.vars slots).lanes = some lanes ∧ lanes.length = ty.flatLen ∧
      ∀ number ∈ shared, expected number = some (ty, lanes)
  solid : ∀ place, (tree.reading program.vars slots).place = some place →
    Solid ∧ tree.node.kind = .deref ∧ tree.ty? program = some place.ty

/-- All computations in an operand that are to be taken out may be put into temporaries. -/
structure Role.Liftable (program : Program) (verdict : Verdict) (Solid : Prop) (expected : Expected)
    (slots : Array Lanes) (role : Role) (tree : Tree) : Prop where
  linked : tree.Linked
  inRange : ∀ below ∈ tree.subtrees, ∀ read, below.node = .variable read →
    read.index < program.vars.size
  movable : ∀ below ∈ role.loose tree, ∀ shared, verdict below = some shared →
    below.Movable program Solid expected slots shared
  filled : Solid → ∀ below ∈ tree.subtrees, ∀ slots, (below.reading program.vars slots).Filled

/-- All computations that are taken out of an operand give in later slots what they gave before. -/
def Role.Steady (program : Program) (verdict : Verdict) (slots later : Array Lanes) (role : Role)
    (tree : Tree) : Prop :=
  ∀ below ∈ role.loose tree, verdict below ≠ none →
    below.reading program.vars later = below.reading program.vars slots

/-- An edited operand is found to be what the old one is found to be; a place that is written to
stays the same place. -/
def Tree.AgreesAs (program program' : Program) (Solid : Prop) (slots slots' : Array Lanes)
    (item : Role × Tree) (tree' : Tree) : Prop :=
  Reading.Agrees (item.1 ≠ .place ∧ Solid) slots slots' (item.2.reading program.vars slots)
    (tree'.reading program'.vars slots')

theorem Tree.agreesAs_iff {program program' : Program} {Solid : Prop} {slots slots' : Array Lanes}
    {item : Role × Tree} {tree' : Tree} (hrole : item.1 ≠ .place) :
    Tree.AgreesAs program program' Solid slots slots' item tree' ↔
      Reading.Agrees Solid slots slots' (item.2.reading program.vars slots)
        (tree'.reading program'.vars slots') := by
  simp only [AgreesAs, hrole, ne_eq, not_false_eq_true, true_and]

namespace Role

variable {program : Program} {verdict : Verdict} {Solid : Prop} {expected : Expected}
  {slots later : Array Lanes} {role role' : Role} {tree operand : Tree}

theorem Liftable.child (hliftable : role.Liftable program verdict Solid expected slots tree)
    (hchild : operand ∈ tree.children) (hloose : role'.loose operand ⊆ role.loose tree) :
    role'.Liftable program verdict Solid expected slots operand where
  linked := hliftable.linked.child hchild
  inRange below hbelow := hliftable.inRange below (Tree.mem_subtrees_of_mem_children hchild hbelow)
  movable below hbelow := hliftable.movable below (hloose hbelow)
  filled hsolid below hbelow :=
    hliftable.filled hsolid below (Tree.mem_subtrees_of_mem_children hchild hbelow)

theorem Liftable.forall_children
    (hliftable : role.Liftable program verdict Solid expected slots tree)
    (hrole : role ≠ .place) : ∀ item ∈ tree.children.map (Role.value, ·),
      item.1.Liftable program verdict Solid expected slots item.2 :=
  List.forall_mem_map.mpr fun _ hchild =>
    hliftable.child hchild (Role.loose_subset_of_mem_children hrole hchild)

theorem Steady.mono (hsteady : role.Steady program verdict slots later tree)
    (hloose : role'.loose operand ⊆ role.loose tree) :
    role'.Steady program verdict slots later operand :=
  fun below hbelow => hsteady below (hloose hbelow)

end Role

namespace Lifted

variable {verdict : Verdict} {memory memory' : Temporaries} {next next' : Nat}
  {forest : List (Role × Tree)} {forest' : List Tree} {rows : List Row} {program program' : Program}

/-- An edited operand stands for the old one as long as the old variables hold the same lanes in
both runs, the temporaries hold what they held after the rows, and what has been taken out would
give the same. -/
def StandsFor (program program' : Program) (verdict : Verdict) (Solid : Prop)
    (slots after : Array Lanes) (next : Nat) (item : Role × Tree) (tree' : Tree) : Prop :=
  ∀ later later' : Array Lanes, (∀ index < program.vars.size, later'[index]? = later[index]?) →
    (∀ index < next, program.vars.size ≤ index → later'[index]? = after[index]?) →
    item.1.Steady program verdict slots later item.2 →
    Tree.AgreesAs program program' Solid later later' item tree'

/-- Rows run from a machine and leave these slots, and the edited operands are then found to be what
the old ones are found to be in the old program. -/
structure Reproduces (program program' : Program) (verdict : Verdict) (Solid : Prop)
    (expected : Expected) (slots : Array Lanes) (next next' : Nat) (memory' : Temporaries)
    (forest : List (Role × Tree)) (forest' : List Tree) (rows : List Row) (start : Machine)
    (after : Array Lanes) : Prop where
  performs : program'.PerformsAll (rows.map Row.statement) start
    { start.sampled (rows.map fun row => row.value.samples).sum with slots := after }
  same : ∀ index < next, after[index]? = start.slots[index]?
  mirrors : program'.Mirrors program.vars.size slots after
  holds : program'.Holds program.vars.size expected memory' next' after
  types : List.Forall₂ (fun item tree' => ∀ ty, item.1 ≠ .place → item.2.ty? program = some ty →
    tree'.ty? program' = some ty) forest forest'
  agrees : List.Forall₂ (StandsFor program program' verdict Solid slots after next') forest forest'

variable {Solid : Prop} {expected : Expected} {slots after after' : Array Lanes} {start : Machine}

/-- Two liftings one after the other. -/
theorem Reproduces.append {next₁ next₂ : Nat} {memory₁ memory₂ : Temporaries}
    {more : List (Role × Tree)} {more' : List Tree} {rows' : List Row} (hnext : next ≤ next₁)
    (hnext' : next₁ ≤ next₂)
    (hfirst : Reproduces program program' verdict Solid expected slots next next₁ memory₁ forest
      forest' rows start after)
    (hsecond : Reproduces program program' verdict Solid expected slots next₁ next₂ memory₂ more
      more' rows'
      { start.sampled (rows.map fun row => row.value.samples).sum with slots := after } after') :
    Reproduces program program' verdict Solid expected slots next next₂ memory₂ (forest ++ more)
      (forest' ++ more') (rows ++ rows') start after' where
  performs := by
    have hall := hfirst.performs.append hsecond.performs
    simpa [Machine.sampled, Nat.add_assoc] using hall
  same index hindex :=
    (hsecond.same index (hindex.trans_le hnext)).trans (hfirst.same index hindex)
  mirrors := hsecond.mirrors
  holds := hsecond.holds
  types := List.rel_append hfirst.types hsecond.types
  agrees := by
    refine List.rel_append (hfirst.agrees.imp
      fun item tree' hagree later later' hold htemporaries =>
        hagree later later' hold fun index hindex hbound => ?_) hsecond.agrees
    rw [htemporaries index (hindex.trans_le hnext') hbound, hsecond.same index hindex]

theorem Reproduces.kept {role : Role} {tree : Tree} {children : List Tree} {memory₁ : Temporaries}
    {next₁ : Nat} (hrole : role ≠ .place)
    (hliftable : role.Liftable program verdict Solid expected slots tree)
    (hvars : ∀ (index : Nat) declared, program.vars[index]? = some declared →
      program'.vars[index]? = some declared)
    (hsignatures : program'.signatures = program.signatures)
    (hoperands : Reproduces program program' verdict Solid expected slots next next₁ memory₁
      (tree.children.map (Role.value, ·)) children rows start after) :
    Reproduces program program' verdict Solid expected slots next next₁ memory₁ [(role, tree)]
      [tree.withChildren children] rows start after where
  performs := hoperands.performs
  same := hoperands.same
  mirrors := hoperands.mirrors
  holds := hoperands.holds
  types := by
    refine .cons (fun ty _ hty => ?_) .nil
    obtain ⟨id, node, operands⟩ := tree
    have htypes := hoperands.types
    have halike := Tree.alike_withChildren hliftable.linked _ (by simpa using htypes.length_eq.symm)
    rw [List.forall₂_map_left_iff] at htypes
    unfold Tree.withChildren
    rw [Tree.ty?_mk] at hty ⊢
    refine Node.ty?_mono halike ?_ hvars hsignatures hty
    rw [List.forall₂_map_left_iff, List.forall₂_map_right_iff]
    exact htypes.imp fun _ _ hkeeps ty hty => hkeeps ty (by simp) hty
  agrees := by
    refine .cons (fun later later' hold htemporaries hsteady => ?_) .nil
    have hagrees := hoperands.agrees
    obtain ⟨id, node, operands⟩ := tree
    have halike :=
      Tree.alike_withChildren hliftable.linked _ (by simpa using hagrees.length_eq.symm)
    rw [List.forall₂_map_left_iff] at hagrees
    have hloose : ∀ child ∈ operands, Role.value.loose child ⊆ role.loose ⟨id, node, operands⟩ :=
      fun child hchild => Role.loose_subset_of_mem_children hrole hchild
    have hboth := (List.forall₂_and_left _ _).mpr
      ⟨fun child hchild => hsteady.mono (hloose child hchild), hagrees⟩
    have hnode : Reading.Agrees Solid later later'
        (Tree.reading program.vars later ⟨id, node, operands⟩)
        (Tree.reading program'.vars later' (Tree.withChildren ⟨id, node, operands⟩ children)) := by
      unfold Tree.withChildren
      rw [Tree.reading_mk, Tree.reading_mk]
      refine Node.reading_agrees halike ?_ hvars hold ?_ ?_ ?_
      · rw [List.forall₂_map_left_iff, List.forall₂_map_right_iff]
        exact hboth.imp fun _ _ hagree => (Tree.agreesAs_iff (by simp)).mp
          (hagree.2 later later' hold htemporaries hagree.1)
      · exact hliftable.inRange _ (Tree.mem_subtrees_self _)
      · simp only [List.forall_mem_map]
        exact fun operand _ place hplace => Tree.root_lt_of_place hplace
      · simp only [List.forall_mem_map]
        intro hsolid operand hoperand
        exact hliftable.filled hsolid operand
          (Tree.mem_subtrees_of_mem_children hoperand operand.mem_subtrees_self) later
    exact (Tree.agreesAs_iff hrole).mpr hnode

/-- A read of a temporary that holds the lanes of a computation stands for it. -/
theorem Reproduces.leaf
    (hmoves : Reproduces program program' verdict Solid expected slots next next' memory' [] []
      rows start after) {tree : Tree} {shared : Option ValueNumber} {temporary : VarId}
    (leaf : NodeId) {lanes : Lanes} {declared : Variable} (htaken : verdict tree = some shared)
    (hmovable : tree.Movable program Solid expected slots shared)
    (hdeclared : program'.vars[temporary.index]? = some declared)
    (hlanes : (tree.reading program.vars slots).lanes = some lanes)
    (hty : tree.ty? program = some declared.ty) (hbound : program.vars.size ≤ temporary.index)
    (hnext : temporary.index < next') (hafter : after[temporary.index]? = some lanes) :
    Reproduces program program' verdict Solid expected slots next next' memory' [(.value, tree)]
      [⟨leaf, .variable temporary, []⟩] rows start after where
  performs := hmoves.performs
  same := hmoves.same
  mirrors := hmoves.mirrors
  holds := hmoves.holds
  types := by
    refine .cons (fun ty _ hty' => ?_) .nil
    obtain rfl : declared.ty = ty := Option.some.inj (hty.symm.trans hty')
    rw [Tree.ty?_mk, List.map_nil, Node.ty?, hdeclared, Option.map_some]
  agrees := by
    refine .cons (fun later later' hold htemporaries hsteady =>
      (Tree.agreesAs_iff (by simp)).mpr ?_) .nil
    have hsteady := hsteady tree tree.mem_subtrees_self (by rw [htaken]; simp)
    have hlater : later'[temporary.index]? = some lanes :=
      (htemporaries _ hnext hbound).trans hafter
    constructor
    · intro found hfound
      rw [hsteady, hlanes] at hfound
      rw [Tree.reading_mk, Node.reading, ← hfound, hlater]
    · intro place hplace
      obtain ⟨hsolid, hderef, hplaceTy⟩ := hmovable.solid place (by rw [← hsteady, hplace])
      have hread : Program.readPlace? later place = some lanes := by
        rw [← hlanes, ← hsteady, Tree.lanes_reading_of_deref hderef, hplace, Option.bind_some]
      have hplaceTy : declared.ty = place.ty := Option.some.inj (hty.symm.trans hplaceTy)
      refine ⟨⟨temporary, 0, declared.ty⟩, ?_, hplaceTy, Or.inr ⟨hsolid, ?_⟩⟩
      · rw [Tree.reading_mk, Node.reading, hdeclared, Option.map_some]
      · rw [hplaceTy]
        exact Place.matches_of_lanes hread hlater

/-- A temporary holds what has been stored in it. -/
theorem stores_temporary {temporary : VarId} {declared : Variable} (place : NodeId)
    (machine : Machine)
    {lanes old : Lanes} (hdeclared : program.vars[temporary.index]? = some declared)
    (hmode : declared.mode = .temporary) (hlength : lanes.length = declared.ty.flatLen)
    (hold : machine.slots[temporary.index]? = some old)
    (hsized : old.length = declared.ty.flatLen) :
    program.Stores ⟨place, .variable temporary, []⟩ lanes 0 machine
      { machine with slots := machine.slots.setIfInBounds temporary.index lanes } := by
  refine ⟨⟨temporary, 0, declared.ty⟩, ?_, ?_⟩
  · rw [Tree.reading_mk, Node.reading, hdeclared]
    rfl
  · have hslot :
        (machine.slots[temporary.index]?.getD []).write 0 declared.ty.flatLen 0 lanes = lanes := by
      rw [hold, Option.getD_some]
      exact Lanes.write_whole declared.ty.flatLen_lt.le (fun place _ => Lanes.covers_zero place)
        hsized hlength
    simp [Machine.stored, Machine.sampled, Tree.samples_mk, Node.samples, hdeclared, hmode, hslot]

/-- A row stores its value in its temporary. -/
theorem performs_row {row : Row} (machine : Machine) {lanes old : Lanes}
    (hdeclared : program.vars[row.temporary.index]? = some row.declared)
    (hlanes : (row.value.reading program.vars machine.slots).lanes = some lanes)
    (hlength : lanes.length = row.ty.flatLen)
    (hold : machine.slots[row.temporary.index]? = some old) (hsized : old.length = row.ty.flatLen) :
    program.Performs row.statement machine .onward
      { machine.sampled row.value.samples with
        slots := machine.slots.setIfInBounds row.temporary.index lanes } :=
  ⟨rfl, lanes, hlanes, stores_temporary row.place (machine.sampled row.value.samples) hdeclared rfl
    hlength hold hsized⟩

/-- A row behind others stores its value, of which a number may be remembered. -/
theorem Reproduces.store {operands : List (Role × Tree)}
    {operands' : List Tree} {next₁ : Nat} {memory₁ : Temporaries}
    {row : Row} {shared : Option ValueNumber} {lanes : Lanes} (hbound : program.vars.size ≤ next)
    (hnext : next ≤ next₁) (hoperands : Reproduces program program' verdict Solid expected slots
      next next₁ memory₁ operands operands' rows start after) (htemporary : row.temporary = ⟨next₁⟩)
    (hdeclared : program'.vars[row.temporary.index]? = some row.declared)
    (hlanes : (row.value.reading program'.vars after).lanes = some lanes)
    (hlength : lanes.length = row.ty.flatLen)
    (hexpected : ∀ number ∈ shared, expected number = some (row.ty, lanes)) :
    ∃ after', Reproduces program program' verdict Solid expected slots next (next₁ + 1)
      (shared.toList.map (·, row.temporary) ++ memory₁) [] [] (rows ++ [row]) start after' ∧
      after'[row.temporary.index]? = some lanes := by
  have hindex : row.temporary.index = next₁ := by rw [htemporary]
  obtain ⟨old, hold, hsized⟩ := hoperands.mirrors.sized _ _ (by omega) hdeclared
  refine ⟨after.setIfInBounds row.temporary.index lanes,
    ⟨?performs, ?same, hoperands.mirrors.store _ hdeclared hold (by omega) hlength,
      hoperands.holds.store _ hdeclared hold shared hindex (by omega) hexpected, .nil, .nil⟩,
    Array.getElem?_setIfInBounds_self_of_lt (Array.getElem?_eq_some_iff.mp hold).1⟩
  case performs =>
    have hstep := performs_row { start.sampled (rows.map fun row => row.value.samples).sum
      with slots := after } hdeclared hlanes hlength hold hsized
    simpa [Machine.sampled, Nat.add_assoc] using hoperands.performs.append (.cons hstep (.nil _))
  case same =>
    intro index hlt
    rw [Array.getElem?_setIfInBounds_ne (by omega), hoperands.same index hlt]

/-- A computation that is taken out is stored by the row behind the rows of its operands, and a read
of the temporary stands for it. -/
theorem Reproduces.stored {tree : Tree} {children : List Tree} {memory₁ : Temporaries} {next₁ : Nat}
    {shared : Option ValueNumber} {row : Row} (hbound : program.vars.size ≤ next)
    (hnext : next ≤ next₁) (hoperands : Reproduces program program' verdict Solid expected slots
      next next₁ memory₁ (tree.children.map (Role.value, ·)) children rows start after)
    (hliftable : Role.value.Liftable program verdict Solid expected slots tree)
    (hvars : ∀ (index : Nat) declared, program.vars[index]? = some declared →
      program'.vars[index]? = some declared)
    (hsignatures : program'.signatures = program.signatures) (htaken : verdict tree = some shared)
    (htemporary : row.temporary = ⟨next₁⟩) (hvalue : row.value = tree.withChildren children)
    (hrow : program'.vars[row.temporary.index]? = some row.declared ∧
      row.value.ty? program' = some row.ty) (leaf : NodeId) :
    ∃ after', Reproduces program program' verdict Solid expected slots next (next₁ + 1)
      (shared.toList.map (·, row.temporary) ++ memory₁) [(.value, tree)]
      [⟨leaf, .variable row.temporary, []⟩] (rows ++ [row]) start after' := by
  have hmovable := hliftable.movable tree tree.mem_subtrees_self _ htaken
  obtain ⟨ty, lanes, hty, hlanes, hlength, hexpected⟩ := hmovable.found
  have hkept := hoperands.kept (by simp) hliftable hvars hsignatures
  have hindex : row.temporary.index = next₁ := by rw [htemporary]
  -- the row computes in the new program what the tree computes in the old one
  have hvalueTy : row.value.ty? program' = some ty := by
    rw [hvalue]
    exact (List.forall₂_cons.mp hkept.types).1 ty (by simp) hty
  obtain rfl : ty = row.ty := Option.some.inj (hvalueTy.symm.trans hrow.2)
  have hvalueLanes : (row.value.reading program'.vars after).lanes = some lanes := by
    rw [hvalue]
    exact ((List.forall₂_cons.mp hkept.agrees).1 slots after hoperands.mirrors.same
      (fun _ _ _ => rfl) fun _ _ _ => rfl).lanes lanes hlanes
  obtain ⟨after', hmoves, hself⟩ :=
    hoperands.store hbound hnext htemporary hrow.1 hvalueLanes hlength hexpected
  exact ⟨after',
    hmoves.leaf leaf htaken hmovable hrow.1 hlanes hty (by omega) (by omega) hself⟩

/-! ### Places that are written to -/

/-- A whole variable is the same place in both runs. -/
theorem StandsFor.whole {id : NodeId} {written : VarId}
    (hwritten : written.index < program.vars.size) (hvars : ∀ (index : Nat) declared,
      program.vars[index]? = some declared → program'.vars[index]? = some declared) :
    StandsFor program program' verdict Solid slots after next (.place, ⟨id, .variable written, []⟩)
      ⟨id, .variable written, []⟩ := by
  refine fun later later' hold _ _ => ⟨fun lanes hlanes => ?_, fun place hplace => ?_⟩
  · dsimp only at hlanes
    rw [Tree.reading_mk, Node.reading] at hlanes ⊢
    exact (hold _ hwritten).trans hlanes
  · dsimp only at hplace
    rw [Tree.reading_mk, Node.reading] at hplace
    obtain ⟨declared, hdeclared, rfl⟩ := Option.map_eq_some_iff.mp hplace
    refine ⟨_, ?_, rfl, Or.inl rfl⟩
    rw [Tree.reading_mk, Node.reading, hvars _ _ hdeclared, Option.map_some]

/-- A field of an edited place stands for the field of the old one. -/
theorem StandsFor.field {tree record record' : Tree}
    {number : Nat} (hnode : tree.node = .field record.id number) (htree : tree.children = [record])
    (hrecord : StandsFor program program' verdict Solid slots after next (.place, record) record') :
    StandsFor program program' verdict Solid slots after next (.place, tree)
      (tree.withChildren [record']) := by
  intro later later' hold htemporaries hsteady
  have hagrees := hrecord later later' hold htemporaries
    (hsteady.mono (Role.loose_field hnode htree ▸ List.Subset.refl _))
  obtain ⟨id, rfl⟩ := Tree.exists_eq_mk hnode htree
  change Reading.Agrees
    _ later later' (Tree.reading program.vars later ⟨id, .field record.id number, [record]⟩)
    (Tree.reading program'.vars later' ⟨id, .field record'.id number, [record']⟩)
  rw [Tree.reading_field, Tree.reading_field]
  exact Reading.Agrees.part (fun ty => ty.fieldAt? number) hagrees.place
    (fun place hplace => hold _ (Tree.root_lt_of_place hplace)) (fun hsolid => absurd rfl hsolid.1)

/-- An element of an edited place stands for the element of the old one. -/
theorem StandsFor.index
    {tree base position base' position' : Tree} (hnode : tree.node = .index base.id position.id)
    (htree : tree.children = [base, position]) (hposition : StandsFor
      program program' verdict Solid slots after next (.value, position) position')
    (hbase : StandsFor program program' verdict Solid slots after next (.place, base) base') :
    StandsFor program program' verdict Solid slots after next (.place, tree)
      (tree.withChildren [base', position']) := by
  intro later later' hold htemporaries hsteady
  have hloose := Role.loose_index hnode htree
  have hposition :=
    hposition later later' hold htemporaries (hsteady.mono (hloose ▸ List.subset_append_left _ _))
  have hbase :=
    hbase later later' hold htemporaries (hsteady.mono (hloose ▸ List.subset_append_right _ _))
  obtain ⟨id, rfl⟩ := Tree.exists_eq_mk hnode htree
  change Reading.Agrees _ later
    later' (Tree.reading program.vars later ⟨id, .index base.id position.id, [base, position]⟩)
    (Tree.reading program'.vars later' ⟨id, .index base'.id position'.id, [base', position']⟩)
  rw [Tree.reading_index, Tree.reading_index]
  cases hlanes : (position.reading program.vars later).lanes with
  | none => constructor <;> simp [Reading.ofPlace]
  | some lanes =>
    rw [hposition.lanes lanes hlanes]
    exact Reading.Agrees.part (fun ty => ty.elementAt? (lanes.lane 0)) hbase.place
      (fun place hplace => hold _ (Tree.root_lt_of_place hplace))
        (fun hsolid => absurd rfl hsolid.1)

/-- The rows that edit what is in a place edit the place. -/
theorem Reproduces.place {tree tree' : Tree} {inner : List (Role × Tree)} {inner' : List Tree}
    (hinner : Reproduces program
      program' verdict Solid expected slots next next' memory' inner inner' rows start after)
    (hstands : StandsFor program program' verdict Solid slots after next' (.place, tree) tree') :
    Reproduces program program' verdict Solid expected slots next next' memory' [(.place, tree)]
      [tree'] rows start after :=
  ⟨hinner.performs, hinner.same, hinner.mirrors, hinner.holds,
    .cons (fun _ hrole => absurd rfl hrole) .nil, .cons hstands .nil⟩

/-! ### Runs -/

theorem Reproduces.nil (hmirrors : program'.Mirrors program.vars.size slots start.slots)
    (hholds : program'.Holds program.vars.size expected memory next start.slots) :
    Reproduces program program' verdict Solid expected slots next next memory [] []
      [] start start.slots :=
  ⟨.nil _, fun _ _ => rfl, hmirrors, hholds, .nil, .nil⟩

/-- The rows of a lifting run, and the edited operands are found to be what the old ones are. -/
theorem runs (hlifted : Lifted verdict memory next forest forest' rows memory' next')
    (hvars : ∀ (index : Nat) declared, program.vars[index]? = some declared →
      program'.vars[index]? = some declared)
    (hsignatures : program'.signatures = program.signatures) (hbound : program.vars.size ≤ next)
    (hdeclares : Declares program' rows)
    (hliftable : ∀ item ∈ forest, item.1.Liftable program verdict Solid expected slots item.2)
    (start : Machine) (hmirrors : program'.Mirrors program.vars.size slots start.slots)
    (hholds : program'.Holds program.vars.size expected memory next start.slots) :
    ∃ after, Reproduces program program' verdict Solid expected slots next next' memory' forest
      forest' rows start after := by
  induction hlifted generalizing start with
  | nil => exact ⟨start.slots, .nil hmirrors hholds⟩
  | @kept memory memory₁ memory₂ next next₁ next₂ role tree rest children rest' rows rows' hkeeps
      hchildren hrest ih ih' =>
    obtain ⟨hliftable, hrestLiftable⟩ := List.forall_mem_cons.mp hliftable
    obtain ⟨hdeclares, hrestDeclares⟩ := List.forall_mem_append.mp hdeclares
    have hrole : role ≠ .place := by rcases hkeeps with rfl | ⟨rfl, -⟩ <;> simp
    obtain ⟨after, hoperands⟩ :=
      ih hbound hdeclares (hliftable.forall_children hrole) start hmirrors hholds
    have hnext := hchildren.next_eq
    have hnext' := hrest.next_eq
    have hfirst := hoperands.kept hrole hliftable hvars hsignatures
    obtain ⟨after', hsecond⟩ := ih' (by omega) hrestDeclares hrestLiftable
      { start.sampled (rows.map fun row => row.value.samples).sum with slots := after }
      hfirst.mirrors hfirst.holds
    exact ⟨after', hfirst.append (by omega) (by omega) hsecond⟩
  | @reused memory memory₁ next next₁ tree number temporary leaf rest rest' rows htaken hheld
      hrest ih =>
    obtain ⟨hliftable, hrestLiftable⟩ := List.forall_mem_cons.mp hliftable
    have hmovable := hliftable.movable tree tree.mem_subtrees_self _ htaken
    obtain ⟨ty, lanes, hty, hlanes, -, hexpected⟩ := hmovable.found
    obtain ⟨hbound', htemporary, held, declared, hheldExpected, hdeclared, hslot⟩ :=
      hholds number temporary hheld
    obtain ⟨rfl, rfl⟩ :=
      Prod.mk.inj (Option.some.inj (hheldExpected.symm.trans (hexpected number rfl)))
    have hnext := hrest.next_eq
    have hfirst := (Reproduces.nil hmirrors hholds).leaf leaf htaken hmovable hdeclared hlanes hty
      hbound' htemporary hslot
    obtain ⟨after', hsecond⟩ := ih hbound hdeclares hrestLiftable start hmirrors hholds
    exact ⟨after', hfirst.append le_rfl (by omega) hsecond⟩
  | @stored memory memory₁ memory₂ next next₁ next₂ tree shared row leaf rest children rest' rows
      rows' htaken hfresh hchildren htemporary hvalue hrest ih ih' =>
    obtain ⟨hliftable, hrestLiftable⟩ := List.forall_mem_cons.mp hliftable
    obtain ⟨hdeclares, hrowDeclares⟩ := List.forall_mem_append.mp hdeclares
    obtain ⟨hrow, hrestDeclares⟩ := List.forall_mem_cons.mp hrowDeclares
    obtain ⟨after, hoperands⟩ :=
      ih hbound hdeclares (hliftable.forall_children (by simp)) start hmirrors hholds
    have hnext := hchildren.next_eq
    have hnext' := hrest.next_eq
    obtain ⟨after₁, hfirst⟩ := hoperands.stored hbound (by omega) hliftable hvars hsignatures htaken
      htemporary hvalue hrow leaf
    obtain ⟨after', hsecond⟩ := ih' (by omega) hrestDeclares hrestLiftable
      { start.sampled ((rows ++ [row]).map fun row => row.value.samples).sum with
        slots := after₁ } hfirst.mirrors hfirst.holds
    have hall := hfirst.append (by omega) (by omega) hsecond
    rw [List.append_assoc] at hall
    exact ⟨after', hall⟩
  | @whole memory memory₁ next next₁ id written rest rest' rows hrest ih =>
    obtain ⟨hliftable, hrestLiftable⟩ := List.forall_mem_cons.mp hliftable
    have hnext := hrest.next_eq
    have hwritten := hliftable.inRange _ (Tree.mem_subtrees_self _) written rfl
    have hfirst : Reproduces program program' verdict Solid expected slots next next memory
        [(.place, ⟨id, .variable written, []⟩)]
          [⟨id, .variable written, []⟩] [] start start.slots :=
      (Reproduces.nil hmirrors hholds).place (.whole hwritten hvars)
    obtain ⟨after', hsecond⟩ := ih hbound hdeclares hrestLiftable start hmirrors hholds
    exact ⟨after', hfirst.append le_rfl (by omega) hsecond⟩
  | @field memory memory₁ memory₂ next next₁ next₂ tree record record' number rest rest' rows rows'
      hnode htree hrecord hrest ih ih' =>
    obtain ⟨hliftable, hrestLiftable⟩ := List.forall_mem_cons.mp hliftable
    obtain ⟨hdeclares, hrestDeclares⟩ := List.forall_mem_append.mp hdeclares
    have hloose : Role.place.loose record ⊆ Role.place.loose tree :=
      Role.loose_field hnode htree ▸ List.Subset.refl _
    obtain ⟨after, hparts⟩ := ih hbound hdeclares
      (List.forall_mem_singleton.mpr (hliftable.child (by simp [htree]) hloose)) start
        hmirrors hholds
    have hnext := hrecord.next_eq
    have hnext' := hrest.next_eq
    have hfirst := hparts.place (.field hnode htree (List.forall₂_cons.mp hparts.agrees).1)
    obtain ⟨after', hsecond⟩ := ih' (by omega) hrestDeclares hrestLiftable
      { start.sampled (rows.map fun row => row.value.samples).sum with slots := after }
      hfirst.mirrors hfirst.holds
    exact ⟨after', hfirst.append (by omega) (by omega) hsecond⟩
  | @index memory memory₁ memory₂ next next₁ next₂ tree base position base' position' rest rest'
      rows rows' hnode htree hparts hrest ih ih' =>
    obtain ⟨hliftable, hrestLiftable⟩ := List.forall_mem_cons.mp hliftable
    obtain ⟨hdeclares, hrestDeclares⟩ := List.forall_mem_append.mp hdeclares
    have hloose := Role.loose_index hnode htree
    obtain ⟨after, hoperands⟩ := ih hbound hdeclares (List.forall_mem_cons.mpr
      ⟨hliftable.child (by simp [htree]) (hloose ▸ List.subset_append_left _ _),
        List.forall_mem_singleton.mpr
        (hliftable.child (by simp [htree]) (hloose ▸ List.subset_append_right _ _))⟩) start
        hmirrors hholds
    have hnext := hparts.next_eq
    have hnext' := hrest.next_eq
    obtain ⟨hposition, hbase⟩ := List.forall₂_cons.mp hoperands.agrees
    have hfirst := hoperands.place (.index hnode htree hposition (List.forall₂_cons.mp hbase).1)
    obtain ⟨after', hsecond⟩ := ih' (by omega) hrestDeclares hrestLiftable
      { start.sampled (rows.map fun row => row.value.samples).sum with slots := after }
      hfirst.mirrors hfirst.holds
    exact ⟨after', hfirst.append (by omega) (by omega) hsecond⟩

/-! ### Texture operations -/

private theorem samples_of_alike
    {node node' : Node} (halike : node.Alike node') (first second : List Nat) :
    node'.samples first + second.sum = node.samples second + first.sum := by
  cases halike <;> simp only [Node.samples] <;> omega

private theorem samples_withChildren {tree : Tree} (hlinked : tree.Linked) (children : List Tree)
    (hlength : children.length = tree.children.length) :
    (tree.withChildren children).samples + (tree.children.map fun child => child.samples).sum =
      tree.samples + (children.map Tree.samples).sum := by
  have halike := Tree.alike_withChildren hlinked _ hlength
  obtain ⟨id, node, operands⟩ := tree
  unfold Tree.withChildren at halike ⊢
  rw [Tree.samples_mk, Tree.samples_mk]
  exact samples_of_alike halike _ _

/-- Lifting repeats no texture operation, and it loses none unless it reuses a temporary. -/
theorem samples_le (hlifted : Lifted verdict memory next forest forest' rows memory' next')
    (hlinked : ∀ item ∈ forest, item.2.Linked) :
    List.Forall₂ (fun item tree' => tree'.samples ≤ item.2.samples) forest forest' ∧
      (rows.map fun row => row.value.samples).sum + (forest'.map Tree.samples).sum ≤
        (forest.map fun item => item.2.samples).sum ∧
      ((∀ tree number, verdict tree ≠ some (some number)) →
        (rows.map fun row => row.value.samples).sum + (forest'.map Tree.samples).sum =
          (forest.map fun item => item.2.samples).sum) := by
  induction hlifted with
  | nil => exact ⟨.nil, le_rfl, fun _ => rfl⟩
  | @kept memory memory₁ memory₂ next next₁ next₂ role tree rest children rest' rows rows' hkeeps
      hchildren hrest ih ih' =>
    obtain ⟨htree, hrestLinked⟩ := List.forall_mem_cons.mp hlinked
    dsimp only at htree
    obtain ⟨-, hle, heq⟩ := ih (by simpa using fun child hchild => htree.child hchild)
    obtain ⟨hall, hle', heq'⟩ := ih' hrestLinked
    have hsamples := samples_withChildren htree _ (by simpa using hchildren.length_eq)
    simp only [List.map_map, Function.comp_def] at hle heq
    simp only [List.map_append, List.map_cons, List.sum_append, List.sum_cons]
    refine ⟨.cons ?_ hall, ?_, fun hnever => ?_⟩
    · dsimp only
      omega
    · omega
    · have := heq hnever
      have := heq' hnever
      omega
  | reused htaken _ _ ih =>
    obtain ⟨hall, hle, -⟩ := ih (List.forall_mem_cons.mp hlinked).2
    have hleaf : ∀ id read, Tree.samples ⟨id, .variable read, []⟩ = 0 :=
      fun _ _ => Tree.samples_mk ..
    simp only [List.map_cons, List.sum_cons, hleaf]
    refine ⟨.cons ?_ hall, ?_, fun hnever => absurd htaken (hnever _ _)⟩
    · rw [hleaf]
      exact Nat.zero_le _
    · omega
  | @stored memory memory₁ memory₂ next next₁ next₂ tree shared row leaf rest children rest' rows
      rows' htaken hfresh hchildren htemporary hvalue hrest ih ih' =>
    obtain ⟨htree, hrestLinked⟩ := List.forall_mem_cons.mp hlinked
    dsimp only at htree
    obtain ⟨-, hle, heq⟩ := ih (by simpa using fun child hchild => htree.child hchild)
    obtain ⟨hall, hle', heq'⟩ := ih' hrestLinked
    have hsamples := samples_withChildren htree _ (by simpa using hchildren.length_eq)
    have hleaf : ∀ id read, Tree.samples ⟨id, .variable read, []⟩ = 0 :=
      fun _ _ => Tree.samples_mk ..
    rw [← hvalue] at hsamples
    simp only [List.map_map, Function.comp_def] at hle heq
    simp only [List.map_append, List.map_cons, List.sum_append, List.sum_cons, hleaf]
    refine ⟨.cons ?_ hall, ?_, fun hnever => ?_⟩
    · rw [hleaf]
      exact Nat.zero_le _
    · omega
    · have := heq hnever
      have := heq' hnever
      omega
  | whole _ ih =>
    obtain ⟨hall, hle, heq⟩ := ih (List.forall_mem_cons.mp hlinked).2
    simp only [List.map_cons, List.sum_cons]
    refine ⟨.cons le_rfl hall, ?_, fun hnever => ?_⟩
    · omega
    · have := heq hnever
      omega
  | @field memory memory₁ memory₂ next next₁ next₂ tree record record' number rest rest' rows rows'
      hnode htree hrecord hrest ih ih' =>
    obtain ⟨hlinkedTree, hrestLinked⟩ := List.forall_mem_cons.mp hlinked
    obtain ⟨-, hle, heq⟩ := ih (by simpa using hlinkedTree.child (by simp [htree]))
    obtain ⟨hall, hle', heq'⟩ := ih' hrestLinked
    have hsamples := samples_withChildren hlinkedTree [record'] (by simp [htree])
    simp only [htree, List.map_cons, List.map_nil, List.sum_cons, List.sum_nil] at hle heq hsamples
    simp only [List.map_append, List.map_cons, List.sum_append, List.sum_cons]
    refine ⟨.cons ?_ hall, ?_, fun hnever => ?_⟩
    · dsimp only
      omega
    · omega
    · have := heq hnever
      have := heq' hnever
      omega
  | @index memory memory₁ memory₂ next next₁ next₂ tree base position base' position' rest rest'
      rows rows' hnode htree hparts hrest ih ih' =>
    obtain ⟨hlinkedTree, hrestLinked⟩ := List.forall_mem_cons.mp hlinked
    obtain ⟨-, hle, heq⟩ := ih (by
      simpa using ⟨hlinkedTree.child (by simp [htree]), hlinkedTree.child (by simp [htree])⟩)
    obtain ⟨hall, hle', heq'⟩ := ih' hrestLinked
    have hsamples := samples_withChildren hlinkedTree [base', position']
      (by simp [htree])
    simp only [htree, List.map_cons, List.map_nil, List.sum_cons, List.sum_nil] at hle heq hsamples
    simp only [List.map_append, List.map_cons, List.sum_append, List.sum_cons]
    refine ⟨.cons ?_ hall, ?_, fun hnever => ?_⟩
    · dsimp only
      omega
    · omega
    · have := heq hnever
      have := heq' hnever
      omega

end Lifted

end ShaderIR
