import ShaderIR.Proofs.Outline.Order

/-!
How deep lists and nodes stand. `Program.ListAt` and `Program.NodeAt` follow references from the
root list: a list that a statement owns stands one level below the list with the statement, a
statement on the level of its list, and a child one level below its parent. Nothing is said about
the program, so a list or a node may stand on several levels, and without end on a cycle
(`Program.NodeAt.exists_lt_of_cycle`, `Program.ListAt.exists_lt_of_cycle`). The lists of a code
stand as deep as its bodies nest (`Program.Frames.le_depth_of_listAt`,
`Program.FramesCode.exists_listAt`).
-/

set_option autoImplicit false

namespace ShaderIR.Program

/-- The list can be reached from the root list and stands on this level. -/
inductive ListAt (program : Program) : ListRef → Nat → Prop
  | root : ListAt program .root 0
  | nested {outer inner : ListRef} {level : Nat} {statements : List NodeId}
    {owner : NodeId} {node : Node} (houter : ListAt program outer level)
    (hlist : program.list outer = .ok statements) (howner : owner ∈ statements)
    (hnode : program.node owner = .ok node) (hinner : inner ∈ node.lists owner) :
    ListAt program inner (level + 1)

/-- The node can be reached from the root list and stands on this level. -/
inductive NodeAt (program : Program) : NodeId → Nat → Prop
  | statement {ref : ListRef} {level : Nat} {statements : List NodeId}
    {id : NodeId} (hlevel : ListAt program ref level)
    (hlist : program.list ref = .ok statements) (hid : id ∈ statements) : NodeAt program id level
  | child {parent id : NodeId} {level : Nat} {node : Node} (hparent : NodeAt program parent level)
    (hnode : program.node parent = .ok node) (hid : id ∈ node.children) :
    NodeAt program id (level + 1)

/-- A statement of the outer list owns the inner one. -/
def Nests (program : Program) (outer inner : ListRef) : Prop :=
  ∃ statements owner node, program.list outer = .ok statements ∧ owner ∈ statements ∧
    program.node owner = .ok node ∧ inner ∈ node.lists owner

/-- The parent has the node as a child. -/
def HasChild (program : Program) (parent id : NodeId) : Prop :=
  ∃ node, program.node parent = .ok node ∧ id ∈ node.children

variable {program : Program} {code : Code} {ref inner : ListRef} {level : Nat}

/-! ### Levels on a cycle -/

/-- If each step of a relation leads one level down, then its cycles lead below every limit. -/
theorem exists_lt_of_transGen {α : Type} {stands : α → Nat → Prop} {leads : α → α → Prop}
    (hleads : ∀ first second level, leads first second → stands first level →
      stands second (level + 1)) {place : α} (hcycle : Relation.TransGen leads place place)
    {level : Nat} (hlevel : stands place level) (limit : Nat) :
    ∃ deeper, stands place deeper ∧ limit < deeper := by
  have hround {second : α} (hpath : Relation.TransGen leads place second)
      {level : Nat} (hlevel : stands place level) :
      ∃ deeper, stands second deeper ∧ level < deeper := by
    induction hpath with
    | single hstep => exact ⟨level + 1, hleads _ _ _ hstep hlevel, Nat.lt_succ_self level⟩
    | tail _ hstep ih =>
      obtain ⟨deeper, hdeeper, hless⟩ := ih
      exact ⟨deeper + 1, hleads _ _ _ hstep hdeeper, hless.trans (Nat.lt_succ_self deeper)⟩
  induction limit with
  | zero =>
    obtain ⟨deeper, hdeeper, hless⟩ := hround hcycle hlevel
    exact ⟨deeper, hdeeper, Nat.zero_lt_of_lt hless⟩
  | succ limit ih =>
    obtain ⟨reached, hreached, hlimit⟩ := ih
    obtain ⟨deeper, hdeeper, hless⟩ := hround hcycle hreached
    exact ⟨deeper, hdeeper, Nat.lt_of_le_of_lt hlimit hless⟩

theorem ListAt.exists_lt_of_cycle (hlevel : program.ListAt ref level)
    (hcycle : Relation.TransGen program.Nests ref ref) (limit : Nat) :
    ∃ deeper, program.ListAt ref deeper ∧ limit < deeper := by
  refine exists_lt_of_transGen (fun outer inner level hnests houter => ?_) hcycle hlevel limit
  obtain ⟨statements, owner, node, hlist, howner, hnode, hinner⟩ := hnests
  exact .nested houter hlist howner hnode hinner

theorem NodeAt.exists_lt_of_cycle {id : NodeId} (hlevel : program.NodeAt id level)
    (hcycle : Relation.TransGen program.HasChild id id) (limit : Nat) :
    ∃ deeper, program.NodeAt id deeper ∧ limit < deeper := by
  refine exists_lt_of_transGen (fun parent child level hchild hparent => ?_) hcycle hlevel limit
  obtain ⟨node, hnode, hmem⟩ := hchild
  exact .child hparent hnode hmem

/-! ### Levels in a code -/

/-- A body that a statement of a list owns is a code of its own, and bodies nest less deep in it. -/
theorem FramesCode.exists_body (hframed : program.FramesCode code)
    {owner : NodeId} (howner : owner ∈ code.heads)
    {node : Node} (hnode : program.node owner = .ok node) (hinner : inner ∈ node.lists owner) :
    ∃ body, program.FramesCode body ∧ program.list inner = .ok body.heads ∧
      body.depth < code.depth := by
  induction hframed with
  | nil => cases howner
  | step hstatement hlists _ ih =>
    rcases List.mem_cons.mp howner with rfl | howner
    · obtain rfl := Except.ok.inj (hnode.symm.trans hstatement)
      rw [hlists] at hinner
      cases hinner
    · exact ih howner
  | branch hstatement hbranch hthen helse _ _ _ ih =>
    simp only [Code.depth, lt_max_iff]
    rcases List.mem_cons.mp howner with rfl | howner
    · obtain rfl := Except.ok.inj (hnode.symm.trans (hbranch ▸ hstatement))
      simp only [Node.lists, List.mem_cons, List.not_mem_nil, or_false] at hinner
      rcases hinner with rfl | rfl
      · exact ⟨_, hthen, list_thenBody hnode, Or.inl (Nat.lt_succ_of_le (le_max_left _ _))⟩
      · exact ⟨_, helse, list_elseBody hnode, Or.inl (Nat.lt_succ_of_le (le_max_right _ _))⟩
    · obtain ⟨body, hbody, hlist, hdepth⟩ := ih howner
      exact ⟨body, hbody, hlist, Or.inr hdepth⟩
  | loop hstatement hloop hbody _ _ ih =>
    simp only [Code.depth, lt_max_iff]
    rcases List.mem_cons.mp howner with rfl | howner
    · obtain rfl := Except.ok.inj (hnode.symm.trans (hloop ▸ hstatement))
      obtain rfl := List.mem_singleton.mp hinner
      exact ⟨_, hbody, list_loopBody hnode, Or.inl (Nat.lt_succ_self _)⟩
    · obtain ⟨body, hbody, hlist, hdepth⟩ := ih howner
      exact ⟨body, hbody, hlist, Or.inr hdepth⟩

/-- No list of a code stands deeper than its bodies nest. -/
theorem Frames.le_depth_of_listAt (hframes : program.Frames code)
    (hlevel : program.ListAt ref level) :
    level ≤ code.depth := by
  suffices hbody : ∃ body, program.FramesCode body ∧ program.list ref = .ok body.heads ∧
      level + body.depth ≤ code.depth by
    obtain ⟨body, -, -, hdepth⟩ := hbody
    exact (Nat.le_add_right _ _).trans hdepth
  induction hlevel with
  | root => exact ⟨code, hframes.framed, congrArg Except.ok hframes.body, by simp⟩
  | nested _ hlist howner hnode hinner ih =>
    obtain ⟨outer, houter, hheads, hdepth⟩ := ih
    obtain rfl := Except.ok.inj (hlist.symm.trans hheads)
    obtain ⟨body, hbody, hlist', hless⟩ := houter.exists_body howner hnode hinner
    exact ⟨body, hbody, hlist', by omega⟩

/-- Some list stands as deep as the bodies of a code nest. -/
theorem FramesCode.exists_listAt (hframed : program.FramesCode code) (before : List NodeId)
    (hlevel : program.ListAt ref level) (hlist : program.list ref = .ok (before ++ code.heads)) :
    ∃ inner, program.ListAt inner (level + code.depth) := by
  induction hframed generalizing ref level before with
  | nil => exact ⟨ref, hlevel⟩
  | step _ _ _ ih => exact ih (before ++ [_]) hlevel (by rw [hlist, List.append_assoc]; rfl)
  | @branch statement condition thenBody elseBody rest hstatement hbranch _ _ _ ihthen ihelse ih =>
    have hnode := hbranch ▸ hstatement
    have howner : statement.id ∈ before ++
        (Code.branch statement thenBody elseBody rest).heads := by simp [Code.heads]
    obtain ⟨later, hrest⟩ := ih (before ++ [_]) hlevel (by rw [hlist, List.append_assoc]; rfl)
    obtain ⟨first, hthen⟩ := ihthen []
      (.nested hlevel hlist howner hnode (by simp [Node.lists])) (list_thenBody hnode)
    obtain ⟨second, helse⟩ := ihelse []
      (.nested hlevel hlist howner hnode (by simp [Node.lists])) (list_elseBody hnode)
    rw [Code.depth]
    rcases max_choice (max thenBody.depth elseBody.depth + 1) rest.depth
      with hmax | hmax <;> rw [hmax]
    · rcases max_choice thenBody.depth elseBody.depth with hbody | hbody <;> rw [hbody]
      · exact ⟨first, by rwa [Nat.add_right_comm] at hthen⟩
      · exact ⟨second, by rwa [Nat.add_right_comm] at helse⟩
    · exact ⟨later, hrest⟩
  | @loop statement body rest hstatement hloop _ _ ihbody ih =>
    have hnode := hloop ▸ hstatement
    have howner :
        statement.id ∈ before ++ (Code.loop statement body rest).heads := by simp [Code.heads]
    obtain ⟨later, hrest⟩ := ih (before ++ [_]) hlevel (by rw [hlist, List.append_assoc]; rfl)
    obtain ⟨deepest, hbody⟩ := ihbody []
      (.nested hlevel hlist howner hnode (List.mem_singleton_self _)) (list_loopBody hnode)
    rw [Code.depth]
    rcases max_choice (body.depth + 1) rest.depth with hmax | hmax <;> rw [hmax]
    · exact ⟨deepest, by rwa [Nat.add_right_comm] at hbody⟩
    · exact ⟨later, hrest⟩

end ShaderIR.Program
