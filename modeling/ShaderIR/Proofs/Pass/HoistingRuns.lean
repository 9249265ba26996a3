import ShaderIR.Proofs.Pass.Conditions
import ShaderIR.Proofs.Pass.Hoisting

/-!
Runs of programs in three-address form. `Program.Hoisted.runs` says that a code whose statements
have been brought into three-address form does what the old code does, and
`Program.run_hoistSubexpressions` that the whole pass keeps the runs of a program.
-/

set_option autoImplicit false

namespace ShaderIR

/-- What three-address form needs of a statement: it is sound, all operations in it have lanes, and
none of its stores changes what is taken out of a later place. -/
structure Program.Hoistable (program : Program) (statement : Tree) : Prop where
  sound : program.Sound statement
  operands : ∀ operand ∈ statement.children, program.SoundOperand operand
  linked : statement.Linked
  wide : ∀ below ∈ statement.subtrees, ∀ op operands ty, below.node = .apply op operands ty →
    1 ≤ ty.flatLen
  undisturbed : program.Undisturbed ThreeAddress.verdict statement

namespace Program

variable {program program' : Program} {Exact : Prop}

/-- A compound operand that is defined has as many lanes as its type. -/
theorem movable_of_defined {slots : Array Lanes} {tree : Tree} {shared : Option ValueNumber}
    (hwide : ∀ op operands ty, tree.node = .apply op operands ty → 1 ≤ ty.flatLen)
    (htaken : ThreeAddress.verdict tree = some shared)
    (hdefined : (tree.reading program.vars slots).Defined) :
    tree.Movable program False (fun _ => none) slots shared := by
  obtain ⟨id, node, children⟩ := tree
  unfold ThreeAddress.verdict at htaken
  cases node with
  | apply op operands ty =>
    rw [Tree.reading_mk] at hdefined
    split at htaken
    · obtain rfl := Option.some.inj htaken
      rcases hdefined with hlanes | hplace
      · obtain ⟨lanes, hlanes⟩ := Option.isSome_iff_exists.mp hlanes
        have hlength : lanes.length = ty.flatLen := by
          obtain ⟨values, -, hvalue⟩ := Option.bind_eq_some_iff.mp hlanes
          split at hvalue
          · obtain rfl := Option.some.inj hvalue
            rw [Lanes.length_resize, Nat.max_eq_left (hwide op operands ty rfl)]
          · cases hvalue
        exact ⟨⟨ty, lanes, by rw [Tree.ty?_mk]; rfl, by rw [Tree.reading_mk, hlanes],
            hlength, by simp⟩, fun place hplace => by rw [Tree.reading_mk] at hplace; cases hplace⟩
      · cases hplace
    · cases htaken
  | _ => simp [Node.isCompound] at htaken

/-- What is taken out of a statement that can be performed may be put into temporaries. -/
theorem Hoistable.liftable {statement : Tree} {machine machine₁ : Machine} {outcome : Outcome}
    (hhoistable : program.Hoistable statement)
    (hperforms : program.Performs statement machine outcome machine₁) {valueRole : Role} :
    ∀ item ∈ program.parts valueRole statement, item.1.Liftable program ThreeAddress.verdict False
      (fun _ => none) machine.slots item.2 := by
  intro item hitem
  have hchild : item.2 ∈ statement.children :=
    map_snd_parts hhoistable.sound valueRole ▸ List.mem_map_of_mem hitem
  have hready := hperforms.ready hhoistable.sound (fun _ => hhoistable.linked.child)
    hhoistable.undisturbed item hitem
  refine ⟨hhoistable.linked.child hchild, fun below hbelow read hread =>
    (hhoistable.operands _ hchild below hbelow).variable_lt read hread,
    fun below hbelow shared htaken => ?_, False.elim⟩
  have hwide := hhoistable.wide below
    (Tree.mem_subtrees_of_mem_children hchild (Role.loose_subset_subtrees hbelow))
  exact movable_of_defined hwide htaken (hready below hbelow (by rw [htaken]; simp))

/-- One statement: its rows and what is left of it do what it does. -/
theorem Performs.hoisted {statement : Tree} {machine machine₁ start : Machine} {outcome : Outcome}
    {next next' : Nat} {parts' : List Tree} {rows : List Row}
    (hperforms : program.Performs statement machine outcome machine₁)
    (hhoistable : program.Hoistable statement)
    (hlifted : Lifted ThreeAddress.verdict [] next (program.parts .root statement) parts' rows
      [] next') (hvars : ∀ (index : Nat) declared, program.vars[index]? = some declared →
      program'.vars[index]? = some declared)
    (hsignatures : program'.signatures = program.signatures) (hbound : program.vars.size ≤ next)
    (hdeclares : Lifted.Declares program' rows)
    (hexact : Exact → ∀ tree ∈ program.updated statement, tree.samples = 0)
    (hshadows : Machine.Shadows program.vars.size Exact machine start)
    (hmirrors : program'.Mirrors program.vars.size machine.slots start.slots) :
    ∃ between machine₁', program'.PerformsAll (rows.map Row.statement) start between ∧
      program'.Performs (statement.withChildren parts') between outcome machine₁' ∧
      Machine.Shadows program.vars.size Exact machine₁ machine₁' ∧
      program'.Mirrors program.vars.size machine₁.slots machine₁'.slots := by
  have hnever : ∀ tree number, ThreeAddress.verdict tree ≠ some (some number) := by
    intro tree number
    unfold ThreeAddress.verdict
    split <;> simp
  obtain ⟨between, machine₁', hrows, hperforms', hshadows', hmirrors', -⟩ :=
    hperforms.edited hhoistable.sound hhoistable.linked hlifted hvars hsignatures hbound hdeclares
      hhoistable.undisturbed (hhoistable.liftable hperforms)
      (fun hexactly => ⟨hnever, hexact hexactly⟩) hshadows hmirrors nofun
  exact ⟨between, machine₁', hrows, hperforms', hshadows', hmirrors'⟩

theorem Hoisted.next_le {next next' : Nat} {code code' : Code}
    (hhoisted : program.Hoisted program' next code code' next') : next ≤ next' := by
  induction hhoisted with
  | nil => exact le_rfl
  | step _ hlifted _ _ ih =>
    have := hlifted.next_eq
    omega
  | branch hlifted _ _ _ _ ihthen ihelse ih =>
    have := hlifted.next_eq
    omega
  | loop _ _ ihbody ih => omega

/-- A code in three-address form does what the old code does. -/
theorem Hoisted.runs {next next' : Nat} {code code' : Code}
    (hhoisted : program.Hoisted program' next code code' next')
    (hvars : ∀ (index : Nat) declared, program.vars[index]? = some declared →
      program'.vars[index]? = some declared)
    (hsignatures : program'.signatures = program.signatures) (hbound : program.vars.size ≤ next)
    (hhoistable : ∀ statement ∈ code.statements, program.Hoistable statement)
    (hexact : Exact → ∀ statement ∈ code.statements, ∀ tree ∈ program.updated statement,
      tree.samples = 0) {machine machine₁ start : Machine} {stopped : Bool}
    (hruns : program.Runs code machine stopped machine₁)
    (hshadows : Machine.Shadows program.vars.size Exact machine start)
    (hmirrors : program'.Mirrors program.vars.size machine.slots start.slots) :
    ∃ machine₁', program'.Runs code' start stopped machine₁' ∧
      Machine.Shadows program.vars.size Exact machine₁ machine₁' ∧
      program'.Mirrors program.vars.size machine₁.slots machine₁'.slots := by
  induction hhoisted generalizing machine machine₁ start stopped with
  | nil =>
    cases hruns
    exact ⟨start, .nil _, hshadows, hmirrors⟩
  | @step next between next' statement rest rest' parts' rows hlists hlifted hdeclares hrest ih =>
    simp only [Code.statements, List.forall_mem_cons] at hhoistable hexact
    have hnext := hlifted.next_eq
    cases hruns with
    | step hperforms hruns =>
      obtain ⟨between, middle, hrows, hperforms', hshadows', hmirrors'⟩ :=
        hperforms.hoisted hhoistable.1 hlifted hvars hsignatures hbound hdeclares
          (fun h => (hexact h).1) hshadows hmirrors
      obtain ⟨machine₁', hruns', hend⟩ := ih (by omega) hhoistable.2 (fun h => (hexact h).2) hruns
        hshadows' hmirrors'
      exact ⟨machine₁', .prepend hrows (.step hperforms' hruns'), hend⟩
    | stepStop hperforms =>
      obtain ⟨between, machine₁', hrows, hperforms', hend⟩ := hperforms.hoisted hhoistable.1 hlifted
          hvars hsignatures hbound hdeclares (fun h => (hexact h).1) hshadows hmirrors
      exact ⟨machine₁', .prepend hrows (.stepStop hperforms'), hend⟩
  | @branch next next₁ next₂ next₃ next' id condition condition' thenBody thenBody' elseBody
      elseBody' rest rest' rows hlifted hdeclares hthen helse hrest ihthen ihelse ih =>
    simp only [Code.statements, List.forall_mem_cons, List.forall_mem_append] at hhoistable hexact
    obtain ⟨hstatement, ⟨hthenHoistable, helseHoistable⟩, hrestHoistable⟩ := hhoistable
    have hnext₁ := hlifted.next_eq
    have hnext₂ := hthen.next_le
    have hnext₃ := helse.next_le
    -- A statement that chooses between bodies does so whatever the lists are that it refers to.
    have hchooses :
        ∀ {machine between start : Machine} {first : Bool},
        program.Performs ⟨id, .branch condition.id thenBody.heads elseBody.heads, [condition]⟩
          machine (.chose first) between → Machine.Shadows program.vars.size Exact machine start →
        program'.Mirrors program.vars.size machine.slots start.slots →
        ∃ middle between', program'.PerformsAll (rows.map Row.statement) start middle ∧
          program'.Performs ⟨id, .branch condition'.id thenBody'.heads elseBody'.heads,
            [condition']⟩ middle (.chose first) between' ∧
          Machine.Shadows program.vars.size Exact between between' ∧
          program'.Mirrors program.vars.size between.slots between'.slots :=
      fun hperforms hshadows hmirrors => hperforms.hoisted hstatement hlifted hvars hsignatures
        hbound hdeclares (fun h => (hexact h).1) hshadows hmirrors
    cases hruns with
    | @branch _ _ _ _ _ between inside _ first _ hperforms hbody hruns =>
      obtain ⟨middle, between', hrows, hperforms', hshadows', hmirrors'⟩ :=
        hchooses hperforms hshadows hmirrors
      have hinside :
          ∃ inside', program'.Runs (if first then thenBody' else elseBody') between' false inside' ∧
          Machine.Shadows program.vars.size Exact inside inside' ∧
            program'.Mirrors program.vars.size inside.slots inside'.slots := by
        cases first with
        | true =>
          exact ihthen (by omega) hthenHoistable
            (fun h => (hexact h).2.1.1) hbody hshadows' hmirrors'
        | false =>
          exact ihelse (by omega) helseHoistable
            (fun h => (hexact h).2.1.2) hbody hshadows' hmirrors'
      obtain ⟨inside', hbody', hshadowsInside, hmirrorsInside⟩ := hinside
      obtain ⟨machine₁', hruns', hend⟩ :=
        ih (by omega) hrestHoistable (fun h => (hexact h).2.2) hruns hshadowsInside hmirrorsInside
      exact ⟨machine₁', .prepend hrows (.branch hperforms' hbody' hruns'), hend⟩
    | @branchStop _ _ _ _ _ between _ first hperforms hbody =>
      obtain ⟨middle, between', hrows, hperforms', hshadows', hmirrors'⟩ :=
        hchooses hperforms hshadows hmirrors
      have hinside :
          ∃ machine₁', program'.Runs (if first then thenBody' else elseBody') between' true
          machine₁' ∧ Machine.Shadows program.vars.size Exact machine₁ machine₁' ∧
            program'.Mirrors program.vars.size machine₁.slots machine₁'.slots := by
        cases first with
        | true =>
          exact ihthen (by omega) hthenHoistable
            (fun h => (hexact h).2.1.1) hbody hshadows' hmirrors'
        | false =>
          exact ihelse (by omega) helseHoistable
            (fun h => (hexact h).2.1.2) hbody hshadows' hmirrors'
      obtain ⟨machine₁', hbody', hend⟩ := hinside
      exact ⟨machine₁', .prepend hrows (.branchStop hperforms' hbody'), hend⟩
  | loop => cases hruns

/-- A code in three-address form is as sound as the old code. -/
theorem Hoisted.sound {next next' : Nat} {code code' : Code}
    (hhoisted : program.Hoisted program' next code code' next')
    (hvars : program.vars.size ≤ program'.vars.size)
    (hsignatures : program'.signatures = program.signatures) (hnext : next' ≤ program'.vars.size)
    (hlinked : ∀ statement ∈ code.statements, statement.Linked)
    (hsound : ∀ statement ∈ code.statements, program.SoundStatement statement) :
    ∀ statement ∈ code'.statements, program'.SoundStatement statement := by
  induction hhoisted with
  | nil => simp [Code.statements]
  | step hlists hlifted hdeclares hrest ih =>
    obtain ⟨hlinkedFirst, hlinkedRest⟩ := List.forall_mem_cons.mp hlinked
    obtain ⟨hfirst, hrestSound⟩ := List.forall_mem_cons.mp hsound
    have hle := hrest.next_le
    obtain ⟨hedited, -⟩ := hfirst.edited hlinkedFirst hlifted hsignatures hvars (by omega) (by simp)
    obtain ⟨hrows, hstatement⟩ := List.forall_mem_append.mp hedited
    rw [Code.statements_prepend, Code.statements]
    exact List.forall_mem_append.mpr ⟨hrows, List.forall_mem_cons.mpr
      ⟨hstatement _ List.mem_cons_self, ih hnext hlinkedRest hrestSound⟩⟩
  | @branch next next₁ next₂ next₃ next' id condition condition' thenBody thenBody' elseBody
      elseBody' rest rest' rows hlifted hdeclares hthen helse hrest ihthen ihelse ih =>
    simp only [Code.statements, List.forall_mem_cons, List.forall_mem_append] at hlinked hsound
    obtain ⟨hlinked, ⟨hthenLinked, helseLinked⟩, hrestLinked⟩ := hlinked
    obtain ⟨hfirst, ⟨hthenSound, helseSound⟩, hrestSound⟩ := hsound
    have hnext₁ := hlifted.next_eq
    have hnext₂ := hthen.next_le
    have hnext₃ := helse.next_le
    have hnext' := hrest.next_le
    have hparts : program.parts .root ⟨id, .branch condition.id thenBody.heads elseBody.heads,
        [condition]⟩ = [(.value, condition)] := rfl
    rw [← hparts] at hlifted
    obtain ⟨hedited, -⟩ := hfirst.edited hlinked hlifted hsignatures hvars (by omega) (by simp)
    obtain ⟨hrows, hstatement⟩ := List.forall_mem_append.mp hedited
    rw [Code.statements_prepend, Code.statements]
    simp only [List.forall_mem_append, List.forall_mem_cons]
    exact ⟨hrows, ⟨.branch id condition' _ _, (hstatement _ List.mem_cons_self).operands⟩,
      ⟨ihthen (by omega) hthenLinked hthenSound, ihelse (by omega) helseLinked helseSound⟩,
      ih hnext hrestLinked hrestSound⟩
  | @loop next between next' id body body' rest rest' hbody hrest ihbody ih =>
    simp only [Code.statements, List.forall_mem_cons, List.forall_mem_append] at hlinked hsound ⊢
    have hle := hrest.next_le
    exact ⟨⟨.loop id _, by simp⟩, ihbody (by omega) hlinked.2.1 hsound.2.1,
      ih hnext hlinked.2.2 hsound.2.2⟩

/-! ### The whole pass -/

/-- Bringing a program into three-address form hoists its code. -/
theorem Outlines.exists_hoisted {code : Code} (houtlines : program.Outlines code) {limit : Nat}
    {changed : Bool} (hhoist : Walk.Answers (hoistSubexpressions limit) program changed program') :
    ∃ code', program'.Outlines code' ∧
      program.Hoisted program' program.vars.size code code' program'.vars.size ∧
      (∀ (index : Nat) declared, program.vars[index]? = some declared →
        program'.vars[index]? = some declared) ∧
      program'.signatures = program.signatures := by
  unfold hoistSubexpressions at hhoist
  simp only [Walk.answers_bind, Walk.answers_get, Walk.answers_attempt] at hhoist
  obtain ⟨_, _, ⟨rfl, rfl⟩, outcome, _, hdepth, hhoist⟩ := hhoist
  cases outcome with
  | error failure => simp at hhoist
  | ok =>
    simp only [Walk.answers_bind, Walk.answers_liftCrash, Walk.answers_set, Walk.answers_liftExcept,
      Walk.answers_pure] at hhoist
    obtain ⟨⟨_, draft⟩, _, ⟨hlist, rfl⟩, ⟨⟩, _, rfl, ⟨⟩, _, ⟨rfl, rfl⟩, -, rfl⟩ := hhoist
    obtain ⟨hoisted, code', rows, edited, hhoisted, hregrows, hbody, -⟩ :=
      ThreeAddress.hoistsLists limit (limit + 1) .root code { program, memory := () } draft
        (congrArg Except.ok houtlines.body) houtlines.draws.shaped houtlines.sound
        ⟨houtlines.draws.statement, houtlines.nodup⟩ rfl hlist
    obtain hbody := Except.ok.inj hbody
    have hgrows := hregrows.grows
    have hvars : ∀ (index : Nat) declared, program.vars[index]? = some declared →
        draft.program.vars[index]? = some declared := fun _ _ hdeclared => by
      rw [← hbody]
      exact hgrows.getElem?_vars hdeclared
    have hsignatures : draft.program.signatures = program.signatures := by
      rw [← hbody]
      exact hgrows.signatures
    have hhoisted' :
        program.Hoisted draft.program program.vars.size code code' draft.program.vars.size := by
      rw [← hbody]
      exact hhoisted.mono (fun _ _ hdeclared => hdeclared) rfl
    have hsound := hhoisted'.sound (size_le_of_getElem? hvars) hsignatures le_rfl
      (fun statement hstatement => (houtlines.draws.statement statement hstatement).linked)
      (fun statement hstatement => ⟨houtlines.sound statement hstatement,
        houtlines.operands statement hstatement⟩)
    refine ⟨code', ⟨⟨?_, fun statement hstatement => (hsound statement hstatement).sound,
      fun statement hstatement => (hsound statement hstatement).operands⟩, ?_, ?_⟩, hhoisted',
      hvars, hsignatures⟩
    · refine .of_shaped hregrows.shaped fun statement hstatement => ?_
      rw [← hbody]
      exact (hgrows.draws statement (hregrows.perm.subset hstatement)).congr fun _ _ => rfl
    · rw [← hbody]
    · exact (hregrows.perm.flatMap_right Tree.ids).nodup_iff.mpr hgrows.nodup

/-- A call that updates its first argument comes after an assignment, and both have nested
operands. -/
def nestedOperands : Program where
  nodes := #[.variable ⟨0⟩, .variable ⟨1⟩, .apply .add [⟨0⟩, ⟨1⟩] (.vector .float 1), .variable ⟨1⟩,
    .apply .mul [⟨2⟩, ⟨3⟩] (.vector .float 1), .variable ⟨0⟩, .assign ⟨5⟩ ⟨4⟩ 0, .variable ⟨0⟩,
    .variable ⟨1⟩, .variable ⟨1⟩, .apply .sub [⟨8⟩, ⟨9⟩] (.vector .float 1),
    .call ⟨0⟩ [⟨7⟩, ⟨10⟩] none]
  vars := #[⟨"x", .vector .float 1, .auto⟩, ⟨"y", .vector .float 1, .input⟩]
  signatures := #[⟨"f", [⟨.vector .float 1, .inout⟩, ⟨.vector .float 1, .input⟩], .void⟩]
  body := [⟨6⟩, ⟨11⟩]

theorem exists_hoistSubexpressions_nestedOperands : ∃ program',
    (hoistSubexpressions 4).runFrom nestedOperands = .ok (.ok true, program') := by
  have hchanged : ((hoistSubexpressions 4).runFrom nestedOperands).map Prod.fst =
      .ok (.ok true) := by decide +kernel
  obtain ⟨⟨_, program'⟩, hhoist, rfl⟩ := map_eq_ok_iff.mp hchanged
  exact ⟨program', hhoist⟩

end Program

end ShaderIR
