import ShaderIR.Proofs.Interp.Reading

/-!
What an operand depends on. `Tree.reads` lists the variables that occur in an operand: it is found
to be the same whenever these hold the same lanes (`Tree.reading_congr`). `Tree.root?` is the
variable of the place that an lvalue names, whatever the variables hold.
-/

set_option autoImplicit false

namespace ShaderIR

theorem Reading.ofPlace_congr {slots later : Array Lanes} {place? : Option Place}
    (hsame : ∀ place, place? = some place →
      Program.readPlace? later place = Program.readPlace? slots place) :
    ofPlace later place? = ofPlace slots place? := by
  cases place? with
  | none => rfl
  | some place =>
    unfold ofPlace
    rw [Option.bind_some, Option.bind_some, hsame place rfl]

namespace Tree

/-- The variables that occur in a tree. -/
def reads (tree : Tree) : List VarId :=
  tree.subtrees.filterMap fun below =>
    match below.node with
    | .variable read => some read
    | _ => none

/-- The variable that an lvalue is a part of. -/
def root? : Tree → Option VarId :=
  fold fun node children =>
    match node, children with
    | .variable root, _ => some root
    | .index .., base :: _ => base
    | .field .., record :: _ => record
    | _, _ => none

variable {vars : Array Variable} {slots later : Array Lanes}

theorem reads_subset_of_mem_children {tree child : Tree} (hchild : child ∈ tree.children) :
    child.reads ⊆ tree.reads := by
  intro read hread
  obtain ⟨below, hbelow, hread⟩ := List.mem_filterMap.mp hread
  exact List.mem_filterMap.mpr ⟨below, mem_subtrees_of_mem_children hchild hbelow, hread⟩

theorem root?_eq_of_place {tree : Tree} {place : Place}
    (hplace : (tree.reading vars slots).place = some place) : tree.root? = some place.root := by
  induction tree using Tree.induction generalizing place with
  | step id node children ih =>
    rw [reading_mk] at hplace
    rw [root?, fold_mk, ← root?]
    unfold Node.reading at hplace
    split at hplace
    · simp at hplace
    · obtain ⟨declared, -, rfl⟩ := Option.map_eq_some_iff.mp hplace
      rfl
    · next hchildren =>
      obtain ⟨baseTree, rest, rfl, rfl, -⟩ := List.map_eq_cons_iff.mp hchildren
      obtain ⟨basePlace, hbase, hplace⟩ := Option.bind_eq_some_iff.mp hplace
      obtain ⟨lanes, -, helement⟩ := Option.bind_eq_some_iff.mp hplace
      rw [Place.root_of_element? helement]
      exact ih baseTree List.mem_cons_self hbase
    · next hchildren =>
      obtain ⟨recordTree, rest, rfl, rfl, -⟩ := List.map_eq_cons_iff.mp hchildren
      obtain ⟨recordPlace, hrecord, hfield⟩ := Option.bind_eq_some_iff.mp hplace
      rw [Place.root_of_field? hfield]
      exact ih recordTree List.mem_cons_self hrecord
    all_goals simp at hplace

theorem root_mem_reads {tree : Tree} {root : VarId} (hroot : tree.root? = some root) :
    root ∈ tree.reads := by
  induction tree using Tree.induction with
  | step id node children ih =>
    rw [root?, fold_mk, ← root?] at hroot
    split at hroot
    · obtain rfl := Option.some.inj hroot
      exact List.mem_filterMap.mpr ⟨_, mem_subtrees_self _, rfl⟩
    · next hchildren =>
      obtain ⟨baseTree, rest, rfl, rfl, -⟩ := List.map_eq_cons_iff.mp hchildren
      exact reads_subset_of_mem_children List.mem_cons_self (ih baseTree List.mem_cons_self hroot)
    · next hchildren =>
      obtain ⟨recordTree, rest, rfl, rfl, -⟩ := List.map_eq_cons_iff.mp hchildren
      exact reads_subset_of_mem_children List.mem_cons_self (ih recordTree List.mem_cons_self hroot)
    · cases hroot

/-- What an operand is found to be depends on the variables in it only. -/
theorem reading_congr {tree : Tree}
    (hsame : ∀ read ∈ tree.reads, later[read.index]? = slots[read.index]?) :
    tree.reading vars later = tree.reading vars slots := by
  induction tree using Tree.induction with
  | step id node children ih =>
    have hchildren : children.map (reading vars later) = children.map (reading vars slots) :=
      List.map_congr_left fun child hchild => ih child hchild fun read hread =>
        hsame read (reads_subset_of_mem_children
          (show child ∈ (⟨id, node, children⟩ : Tree).children from hchild) hread)
    have hread : ∀ place, (reading vars slots ⟨id, node, children⟩).place = some place →
        Program.readPlace? later place = Program.readPlace? slots place := by
      intro place hplace
      have hroot := hsame place.root (root_mem_reads (root?_eq_of_place hplace))
      simp only [Program.readPlace?, Array.getD_eq_getD_getElem?, hroot]
    rw [reading_mk] at hread
    rw [reading_mk, reading_mk, hchildren]
    unfold Node.reading at hread ⊢
    split
    · rfl
    · next read =>
      have hslot := hsame read (List.mem_filterMap.mpr ⟨_, mem_subtrees_self _, rfl⟩)
      simp only [hslot]
    · next hpair =>
      rw [hpair] at hread
      exact Reading.ofPlace_congr hread
    · next hsingle =>
      rw [hsingle] at hread
      exact Reading.ofPlace_congr hread
    all_goals rfl

end Tree

end ShaderIR
