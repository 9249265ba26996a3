import ShaderIR.Proofs.Pass.Settling

/-!
New variables are written before they are read. A row of statements is `Program.Scoped` if every
variable from some index on that occurs in a statement is the one that the statement writes, or has
been written by a statement before it. What comes up while statements are shared is such a row
(`SharingPlan.EditedAll.scoped`), since temporaries are read only once they are in memory.
-/

set_option autoImplicit false

namespace ShaderIR

/-! ### Variables of trees -/

namespace Tree

variable {bound : Nat} {known known' : List VarId} {tree : Tree} {children : List Tree}
  {read : VarId}

theorem mem_reads_iff :
    read ∈ tree.reads ↔ ∃ below ∈ tree.subtrees, below.node = .variable read := by
  unfold reads
  rw [List.mem_filterMap]
  refine exists_congr fun below => and_congr_right fun _ => ?_
  cases below.node <;> simp

theorem mem_reads_mk {id : NodeId} {node : Node} :
    read ∈ reads ⟨id, node, children⟩ ↔ node = .variable read ∨ ∃ child ∈ children,
      read ∈ child.reads := by
  simp only [mem_reads_iff, subtrees_mk, List.mem_cons, List.mem_flatMap, exists_eq_or_imp]
  refine or_congr_right ⟨?_, ?_⟩
  · rintro ⟨below, ⟨child, hchild, hbelow⟩, hnode⟩
    exact ⟨child, hchild, below, hbelow, hnode⟩
  · rintro ⟨child, hchild, below, hbelow, hnode⟩
    exact ⟨below, ⟨child, hchild, hbelow⟩, hnode⟩

theorem root?_field {id recordId : NodeId} {number : Nat} {record : Tree} :
    root? ⟨id, .field recordId number, [record]⟩ = record.root? := by
  rw [root?, fold_mk]
  rfl

theorem root?_index {id baseId positionId : NodeId} {base position : Tree} :
    root? ⟨id, .index baseId positionId, [base, position]⟩ = base.root? := by
  rw [root?, fold_mk]
  rfl

/-- The variables from an index on that occur in a tree are among these. -/
def Within (bound : Nat) (known : List VarId) (tree : Tree) : Prop :=
  ∀ read ∈ tree.reads, bound ≤ read.index → read ∈ known

theorem Within.mono (hwithin : tree.Within bound known) (hknown : known ⊆ known') :
    tree.Within bound known' :=
  fun read hread hbound => hknown (hwithin read hread hbound)

theorem within_of_lt (hlt : ∀ read ∈ tree.reads, read.index < bound) (known : List VarId) :
    tree.Within bound known :=
  fun read hread hbound => absurd (hlt read hread) (Nat.not_lt.mpr hbound)

theorem within_leaf (id : NodeId) (hread : read ∈ known) :
    Within bound known ⟨id, .variable read, []⟩ := by
  intro other hother _
  rcases mem_reads_mk.mp hother with hsame | ⟨_, hchild, _⟩
  · exact Node.variable.inj hsame ▸ hread
  · cases hchild

theorem Within.withChildren (htree : tree.Within bound known) (hlinked : tree.Linked)
    (hlength : children.length = tree.children.length)
    (hchildren : ∀ child ∈ children, child.Within bound known) :
    (tree.withChildren children).Within bound known := by
  intro read hread hbound
  rcases mem_reads_mk.mp hread with hnode | ⟨child, hchild, hread⟩
  · have halike := alike_withChildren hlinked children hlength
    rw [Tree.withChildren, hnode] at halike
    refine htree read (mem_reads_iff.mpr ⟨tree, tree.mem_subtrees_self, ?_⟩) hbound
    generalize tree.node = node at halike
    cases halike
    rfl
  · exact hchildren child hchild read hread hbound

end Tree

/-! ### Rows of statements -/

namespace Program

/-- The variables from an index on that a statement writes to. -/
def introduced (program : Program) (bound : Nat) (statement : Tree) : List VarId :=
  ((program.writtenBy statement).filterMap Tree.root?).filter fun root => bound ≤ root.index

/-- Variables from an index on are written by statements of this row one after the other, each as a
whole by one that does not read it, and statements read those only that have been written. -/
inductive Scoped (program : Program) (bound : Nat) : List VarId → List Tree → List VarId → Prop
  | nil (known : List VarId) : Scoped program bound known [] known
  | define {known known' : List VarId} {statement : Tree}
    {operands rest : List Tree} {place : NodeId} {temporary : VarId}
    (hchildren : statement.children = operands ++ [⟨place, .variable temporary, []⟩])
    (hintroduced : program.introduced bound statement = [temporary])
    (hoperands : ∀ operand ∈ operands, operand.Within bound known)
    (hrest : Scoped program bound (temporary :: known) rest known') :
    Scoped program bound known (statement :: rest) known'
  | use {known known' : List VarId} {statement : Tree} {rest : List Tree}
    (hintroduced : program.introduced bound statement = []) (hwithin : statement.Within bound known)
    (hrest : Scoped program bound known rest known') :
    Scoped program bound known (statement :: rest) known'

variable {program : Program} {bound : Nat} {known known₁ known' : List VarId}
  {before later : List Tree} {statement : Tree} {children : List Tree}

namespace Scoped

theorem append (hfirst : program.Scoped bound known before known₁)
    (hsecond : program.Scoped bound known₁ later known') :
    program.Scoped bound known (before ++ later) known' := by
  induction hfirst with
  | nil => exact hsecond
  | define hchildren hintroduced hoperands _ ih =>
    exact .define hchildren hintroduced hoperands (ih hsecond)
  | use hintroduced hwithin _ ih => exact .use hintroduced hwithin (ih hsecond)

theorem known_eq (hscoped : program.Scoped bound known before known') :
    known' = (before.flatMap (program.introduced bound)).reverse ++ known := by
  induction hscoped with
  | nil => rfl
  | define _ hintroduced _ _ ih => simp [ih, hintroduced]
  | use hintroduced _ _ ih => simp [ih, hintroduced]

theorem subset (hscoped : program.Scoped bound known before known') : known ⊆ known' := by
  rw [hscoped.known_eq]
  exact List.subset_append_right _ _

theorem split (hscoped : program.Scoped bound known (before ++ later) known') :
    ∃ known₁, program.Scoped bound known before known₁ ∧
      program.Scoped bound known₁ later known' := by
  induction before generalizing known with
  | nil => exact ⟨known, .nil known, hscoped⟩
  | cons statement before ih =>
    cases hscoped with
    | define hchildren hintroduced hoperands hrest =>
      obtain ⟨known₁, hbefore, hlater⟩ := ih hrest
      exact ⟨known₁, .define hchildren hintroduced hoperands hbefore, hlater⟩
    | use hintroduced hwithin hrest =>
      obtain ⟨known₁, hbefore, hlater⟩ := ih hrest
      exact ⟨known₁, .use hintroduced hwithin hbefore, hlater⟩

end Scoped

theorem introduced_eq_nil
    (hold : ∀ place ∈ program.writtenBy statement, ∀ root ∈ place.root?, root.index < bound) :
    program.introduced bound statement = [] := by
  refine List.filter_eq_nil_iff.mpr fun root hroot => ?_
  obtain ⟨place, hplace, hroot⟩ := List.mem_filterMap.mp hroot
  simpa using hold place hplace root hroot

theorem mem_children_of_writtenBy (hsound : program.Sound statement) {place : Tree}
    (hplace : place ∈ program.writtenBy statement) : place ∈ statement.children := by
  obtain ⟨item, hitem, rfl⟩ := List.mem_map.mp hplace
  exact map_snd_parts hsound .value ▸ List.mem_map_of_mem (List.mem_of_mem_filter hitem)

/-- A statement of the old program introduces nothing. -/
theorem Sound.introduced_eq_nil (hsound : program.Sound statement)
    (hold : ∀ operand ∈ statement.children, ∀ read ∈ operand.reads, read.index < bound) :
    program.introduced bound statement = [] :=
  Program.introduced_eq_nil fun place hplace root hroot =>
    hold place (mem_children_of_writtenBy hsound hplace) root (Tree.root_mem_reads hroot)

theorem introduced_statement (row : Row) (hbound : bound ≤ row.temporary.index) :
    program.introduced bound row.statement = [row.temporary] := by
  have hroot : row.target.root? = some row.temporary := by rw [Row.target, Tree.root?, Tree.fold_mk]
  simp [introduced, writtenBy, parts, Row.statement, hroot, hbound]

private theorem forall₂_zip {α β γ : Type} {R : α × β → γ → Prop} {firsts : List α}
    {seconds : List β} {thirds : List γ} (hall : List.Forall₂ R (firsts.zip seconds) thirds) :
    List.Forall₂ (fun item item' => item'.1 = item.1 ∧ R item item'.2) (firsts.zip seconds)
      (firsts.zip thirds) := by
  induction firsts generalizing seconds thirds with
  | nil => exact .nil
  | cons first firsts ih =>
    cases seconds with
    | nil => cases hall; exact .nil
    | cons second seconds =>
      cases hall with
      | cons hfirst hrest => exact .cons ⟨rfl, hfirst⟩ (ih hrest)

/-- The operands of an edited statement have their old roles. -/
theorem Sound.forall₂_parts {R : Role × Tree → Tree → Prop} {valueRole : Role} {parts' : List Tree}
    (hsound : program.Sound statement)
    (hparts : List.Forall₂ R (program.parts valueRole statement) parts') :
    List.Forall₂ (fun item item' => item'.1 = item.1 ∧ R item item'.2)
      (program.parts valueRole statement)
      (program.parts valueRole (statement.withChildren parts')) := by
  cases hsound with
  | assign id target value mask hplace =>
    obtain ⟨value', others, hvalue, hothers, rfl⟩ := List.forall₂_cons_left_iff.mp hparts
    obtain ⟨target', none', htarget, hnone, rfl⟩ := List.forall₂_cons_left_iff.mp hothers
    cases hnone
    exact .cons ⟨rfl, hvalue⟩ (.cons ⟨rfl, htarget⟩ .nil)
  | call id callee arguments result signature hsignature hlength hwritten hresult =>
    obtain ⟨arguments', result', rfl, hcount, hsome, hitems, hplace, hnode⟩ :=
      exists_withChildren_call hsignature hlength hparts
    rw [hnode, parts_call hsignature hlength, parts_call hsignature (hlength.trans hcount.symm)]
    refine List.rel_append (forall₂_zip hitems) ?_
    rw [List.forall₂_map_left_iff] at hplace ⊢
    rw [List.forall₂_map_right_iff]
    exact hplace.imp fun _ _ hrelated => ⟨rfl, hrelated⟩
  | branch id condition thenBody elseBody =>
    obtain ⟨condition', none', hcondition, hnone, rfl⟩ := List.forall₂_cons_left_iff.mp hparts
    cases hnone
    exact .cons ⟨rfl, hcondition⟩ .nil
  | loop id body =>
    cases hparts
    exact .nil
  | ret id value =>
    cases value with
    | none => cases hparts; exact .nil
    | some value =>
      obtain ⟨value', none', hvalue, hnone, rfl⟩ := List.forall₂_cons_left_iff.mp hparts
      cases hnone
      exact .cons ⟨rfl, hvalue⟩ .nil
  | discard id condition =>
    cases condition with
    | none => cases hparts; exact .nil
    | some condition =>
      obtain ⟨condition', none', hcondition, hnone, rfl⟩ := List.forall₂_cons_left_iff.mp hparts
      cases hnone
      exact .cons ⟨rfl, hcondition⟩ .nil

end Program

/-! ### Operands -/

namespace SharingPlan

open Program

variable {plan : SharingPlan} {program program' : Program} {bound : Nat}
  {memory memory' : Temporaries} {next next' : Nat}

/-- A written place stays a part of the same variable. -/
theorem root?_eq_of_lifted {verdict : Verdict} {forest : List (Role × Tree)} {forest' : List Tree}
    {rows : List Row} (hlifted : Lifted verdict memory next forest forest' rows memory' next') :
    List.Forall₂ (fun item tree' => item.1 = .place → tree'.root? = item.2.root?) forest
      forest' := by
  induction hlifted with
  | nil => exact .nil
  | kept hkeeps _ _ _ ih =>
    refine .cons (fun hplace => ?_) ih
    rcases hkeeps with hrole | ⟨hrole, -⟩ <;> cases hrole.symm.trans hplace
  | reused _ _ _ ih | stored _ _ _ _ _ _ _ ih => exact .cons nofun ih
  | whole _ ih => exact .cons (fun _ => rfl) ih
  | @field _ _ _ _ _ _ tree record record' number _ _ _ _ hnode htree _ _ ih ih' =>
    obtain ⟨id, rfl⟩ := Tree.exists_eq_mk hnode htree
    refine .cons (fun _ => ?_) ih'
    have hrecord := (List.forall₂_cons.mp ih).1 rfl
    exact Tree.root?_field.trans (hrecord.trans Tree.root?_field.symm)
  | @index _ _ _ _ _ _ tree base position base' position' _ _ _ _ hnode htree _ _ ih ih' =>
    obtain ⟨id, rfl⟩ := Tree.exists_eq_mk hnode htree
    refine .cons (fun _ => ?_) ih'
    have hbase := (List.forall₂_cons.mp (List.forall₂_cons.mp ih).2).1 rfl
    exact Tree.root?_index.trans (hbase.trans Tree.root?_index.symm)

/-- What is taken out of operands without new variables is written before it is read. -/
theorem scoped_of_lifted {forest : List (Role × Tree)} {forest' : List Tree} {rows : List Row}
    (hlifted : Lifted plan.verdict memory next forest forest' rows memory' next')
    (hbound : bound ≤ next) (hlinked : ∀ item ∈ forest, item.2.Linked)
    (hold : ∀ item ∈ forest, ∀ read ∈ item.2.reads, read.index < bound) :
    program.Scoped bound (memory.map Prod.snd) (rows.map Row.statement) (memory'.map Prod.snd) ∧
      ∀ tree' ∈ forest', tree'.Within bound (memory'.map Prod.snd) := by
  have hchildren {tree : Tree} (hlinked : tree.Linked)
      (hold : ∀ read ∈ tree.reads, read.index < bound) :
      (∀ item ∈ tree.children.map (Role.value, ·), item.2.Linked) ∧
        ∀ item ∈ tree.children.map (Role.value, ·), ∀ read ∈ item.2.reads, read.index < bound := by
    simp only [List.forall_mem_map]
    exact ⟨fun child hchild => hlinked.child hchild,
      fun child hchild read hread => hold read (Tree.reads_subset_of_mem_children hchild hread)⟩
  induction hlifted with
  | nil memory => exact ⟨.nil _, by simp⟩
  | @kept memory memory₁ memory₂ next next₁ next₂ role tree rest children rest' rows rows' hkeeps
      hbelow hrest ih ih' =>
    rw [List.forall_mem_cons] at hlinked hold
    obtain ⟨hlinkedBelow, holdBelow⟩ := hchildren hlinked.1 hold.1
    obtain ⟨hfirst, hwithin⟩ := ih hbound hlinkedBelow holdBelow
    obtain ⟨hsecond, hwithin'⟩ :=
      ih' (hbound.trans (hbelow.next_eq ▸ Nat.le_add_right _ _)) hlinked.2 hold.2
    rw [List.map_append]
    refine ⟨hfirst.append hsecond, List.forall_mem_cons.mpr ⟨?_, hwithin'⟩⟩
    exact (Tree.within_of_lt hold.1 _).withChildren hlinked.1 (by simpa using hbelow.length_eq)
      fun child hchild => (hwithin child hchild).mono hsecond.subset
  | @reused memory memory₁ next next₁ tree number temporary leaf rest rest' rows htaken hheld
      hrest ih =>
    rw [List.forall_mem_cons] at hlinked hold
    obtain ⟨hscoped, hwithin⟩ := ih hbound hlinked.2 hold.2
    refine ⟨hscoped, List.forall_mem_cons.mpr ⟨Tree.within_leaf leaf (hscoped.subset ?_), hwithin⟩⟩
    obtain ⟨before, after, rfl, -⟩ := List.lookup_eq_some_iff.mp hheld
    simp
  | @stored memory memory₁ memory₂ next next₁ next₂ tree shared row leaf rest children rest' rows
      rows' htaken hfresh hbelow htemporary hvalue hrest ih ih' =>
    rw [List.forall_mem_cons] at hlinked hold
    obtain ⟨number, hlookup, rfl⟩ := Option.map_eq_some_iff.mp htaken
    obtain ⟨hlinkedBelow, holdBelow⟩ := hchildren hlinked.1 hold.1
    obtain ⟨hfirst, hwithin⟩ := ih hbound hlinkedBelow holdBelow
    have hnext : bound ≤ next₁ := hbound.trans (hbelow.next_eq ▸ Nat.le_add_right _ _)
    obtain ⟨hsecond, hwithin'⟩ := ih' (hnext.trans (Nat.le_succ _)) hlinked.2 hold.2
    have hrow : row.value.Within bound (memory₁.map Prod.snd) := hvalue ▸
      (Tree.within_of_lt hold.1 _).withChildren hlinked.1 (by simpa using hbelow.length_eq) hwithin
    have hdefined : program.Scoped bound (memory₁.map Prod.snd)
        (row.statement :: rows'.map Row.statement) (memory₂.map Prod.snd) :=
          .define (show row.statement.children = [row.value] ++ [_] from rfl)
      (introduced_statement row (htemporary ▸ hnext)) (by simpa using hrow) hsecond
    rw [List.map_append]
    exact ⟨hfirst.append hdefined,
      List.forall_mem_cons.mpr ⟨Tree.within_leaf leaf (hsecond.subset (by simp)), hwithin'⟩⟩
  | @whole memory memory₁ next next₁ id written rest rest' rows hrest ih =>
    rw [List.forall_mem_cons] at hlinked hold
    obtain ⟨hscoped, hwithin⟩ := ih hbound hlinked.2 hold.2
    exact ⟨hscoped, List.forall_mem_cons.mpr ⟨Tree.within_of_lt hold.1 _, hwithin⟩⟩
  | @field memory memory₁ memory₂ next next₁ next₂ tree record record' number rest rest' rows rows'
      hnode htree hrecord hrest ih ih' =>
    rw [List.forall_mem_cons] at hlinked hold
    have hmem : record ∈ tree.children := by simp [htree]
    obtain ⟨hfirst, hwithin⟩ := ih hbound (List.forall_mem_singleton.mpr (hlinked.1.child hmem))
      (List.forall_mem_singleton.mpr fun read hread =>
        hold.1 read (Tree.reads_subset_of_mem_children hmem hread))
    obtain ⟨hsecond, hwithin'⟩ :=
      ih' (hbound.trans (hrecord.next_eq ▸ Nat.le_add_right _ _)) hlinked.2 hold.2
    rw [List.map_append]
    refine ⟨hfirst.append hsecond, List.forall_mem_cons.mpr ⟨?_, hwithin'⟩⟩
    exact (Tree.within_of_lt hold.1 _).withChildren hlinked.1 (by simp [htree])
      fun child hchild => (hwithin child hchild).mono hsecond.subset
  | @index memory memory₁ memory₂ next next₁ next₂ tree base position base' position' rest rest'
      rows rows' hnode htree hparts hrest ih ih' =>
    rw [List.forall_mem_cons] at hlinked hold
    have hmem : base ∈ tree.children ∧ position ∈ tree.children := by simp [htree]
    obtain ⟨hfirst, hwithin⟩ :=
      ih hbound (by simpa using ⟨hlinked.1.child hmem.2, hlinked.1.child hmem.1⟩)
      (by simpa using ⟨fun read hread =>
          hold.1 read (Tree.reads_subset_of_mem_children hmem.2 hread),
        fun read hread => hold.1 read (Tree.reads_subset_of_mem_children hmem.1 hread)⟩)
    obtain ⟨hsecond, hwithin'⟩ :=
      ih' (hbound.trans (hparts.next_eq ▸ Nat.le_add_right _ _)) hlinked.2 hold.2
    rw [List.map_append]
    refine ⟨hfirst.append hsecond, List.forall_mem_cons.mpr ⟨?_, hwithin'⟩⟩
    refine (Tree.within_of_lt hold.1 _).withChildren hlinked.1 (by simp [htree])
      fun child hchild => ?_
    exact (hwithin child (List.mem_pair.mpr (List.mem_pair.mp hchild).symm)).mono hsecond.subset

/-! ### Statements -/

variable {statement : Tree} {rows : List Row} {trees : List Tree}

theorem introduced_copyTree {copy leaf : NodeId} {temporary : VarId} {target : Tree}
    (hold : ∀ root ∈ target.root?, root.index < bound) :
    program.introduced bound (copyTree copy leaf temporary target) = [] :=
  introduced_eq_nil (by simpa [writtenBy, parts] using hold)

theorem within_copyTree {known : List VarId} {copy leaf : NodeId} {temporary : VarId}
    {target : Tree} (htemporary : temporary ∈ known) (htarget : target.Within bound known) :
    (copyTree copy leaf temporary target).Within bound known := by
  intro read hread hbound
  rcases Tree.mem_reads_mk.mp hread with hnode | ⟨child, hchild, hbelow⟩
  · cases hnode
  · rcases List.mem_pair.mp hchild with rfl | rfl
    · exact Tree.within_leaf leaf htemporary read hbelow hbound
    · exact htarget read hbelow hbound

/-- A call without written arguments introduces its result. -/
theorem introduced_callTree {id place : NodeId} {callee : SignatureId}
    {arguments : List Tree} {temporary : VarId} {signature : Signature}
    (hsignature : program.signature callee = .ok signature) (hpure : signature.isPure = true)
    (hlength : signature.params.length = arguments.length) (hbound : bound ≤ temporary.index) :
    program.introduced bound (callTree id callee arguments (readTree place temporary)) =
      [temporary] := by
  have hparts : program.parts .value (callTree id callee arguments (readTree place temporary)) =
      arguments.map (Role.value, ·) ++ [(Role.place, readTree place temporary)] :=
    parts_of_isPure id (some (readTree place temporary)) hsignature hpure hlength
  have hwritten : program.writtenBy (callTree id callee arguments (readTree place temporary)) =
      [readTree place temporary] := by
    rw [writtenBy, hparts, List.filter_append, List.filter_eq_nil_iff.mpr (by simp)]
    rfl
  have hroot : (readTree place temporary).root? = some temporary := by rw [Tree.root?, Tree.fold_mk]
  simp [introduced, hwritten, hroot, hbound]

/-- What stands for a shared statement without new variables writes them before it reads them. -/
theorem Edited.scoped
    (hedited : plan.Edited program program' memory next statement rows trees memory' next')
    (hbound : bound ≤ next) (hsound : program.Sound statement) (hlinked : statement.Linked)
    (hpurely : plan.SharesPurely program statement)
    (hold : ∀ read ∈ statement.reads, read.index < bound) :
    program.Scoped bound (memory.map Prod.snd) (rows.map Row.statement ++ trees)
      (memory'.map Prod.snd) := by
  have hchild {item : Role × Tree} (hitem : item ∈ program.parts .value statement) :
      item.2 ∈ statement.children :=
    Program.map_snd_parts hsound .value ▸ List.mem_map_of_mem hitem
  have hbelow {child : Tree} (hmem : child ∈ statement.children) :
      ∀ read ∈ child.reads, read.index < bound :=
    fun read hread => hold read (Tree.reads_subset_of_mem_children hmem hread)
  have hscoped {forest : List (Role × Tree)} {forest' : List Tree}
      {rows : List Row} {memory₁ : Temporaries}
      {next₁ : Nat} (hlifted : Lifted plan.verdict memory next forest forest' rows memory₁ next₁)
      (hforest : ∀ item ∈ forest, item ∈ program.parts .value statement) :
      program.Scoped bound (memory.map Prod.snd) (rows.map Row.statement) (memory₁.map Prod.snd) ∧
        ∀ tree' ∈ forest', tree'.Within bound (memory₁.map Prod.snd) :=
    scoped_of_lifted hlifted hbound (fun item hitem => hlinked.child (hchild (hforest item hitem)))
      (fun item hitem => hbelow (hchild (hforest item hitem)))
  cases hedited with
  | @operands _ _ _ _ parts' _ hnumber hlifted hdeclares =>
    obtain ⟨hrows, hwithin⟩ := hscoped hlifted fun _ hitem => hitem
    refine hrows.append (.use (introduced_eq_nil fun place hplace root hroot => ?_) ?_ (.nil _))
    · obtain ⟨item', hitem', rfl⟩ := List.mem_map.mp hplace
      obtain ⟨hmem, hrole⟩ := List.mem_filter.mp hitem'
      obtain ⟨item, hitem, hsame, hroots⟩ :=
        exists_of_forall₂ (hsound.forall₂_parts (root?_eq_of_lifted hlifted)).flip hmem
      rw [hroots (hsame.symm.trans (by simpa using hrole))] at hroot
      exact hbelow (hchild hitem) root (Tree.root_mem_reads hroot)
    · refine (Tree.within_of_lt hold _).withChildren hlinked ?_ hwithin
      rw [hlifted.length_eq, ← map_snd_parts hsound .value, List.length_map]
  | dropped hnumber =>
    exact .use (hsound.introduced_eq_nil fun child hmem => hbelow hmem)
      (Tree.within_of_lt hold _) (.nil _)
  | @first memory₁ _ next₁ id place copy leaf callee arguments arguments' target target' _ number
      signature name hnumber hfresh hsignature hlifted hdeclares hdeclared =>
    obtain ⟨found, hfound, hpure⟩ := hpurely _ _ _ rfl (hnumber ▸ rfl)
    obtain rfl := Except.ok.inj (hsignature.symm.trans hfound)
    have hparts := parts_callTree hsound hsignature hpure
    obtain ⟨hrows, hwithin⟩ := hscoped hlifted fun _ hitem => hparts ▸ hitem
    have hlength : arguments'.length = arguments.length := by simpa using hlifted.length_eq
    have hroots := (forall₂_of_append (root?_eq_of_lifted hlifted) (by simpa using hlength.symm)).2
    have htarget : target'.root? = target.root? := (List.forall₂_cons.mp hroots).1 rfl
    have hnext : bound ≤ next₁ := hbound.trans (hlifted.next_eq ▸ Nat.le_add_right _ _)
    have hmemory : memory₁.map Prod.snd ⊆ ⟨next₁⟩ :: memory₁.map Prod.snd :=
      List.subset_cons_self _ _
    refine hrows.append (.define rfl (introduced_callTree hsignature hpure ?_ hnext)
      (fun operand hoperand => hwithin operand (List.mem_append_left _ hoperand))
      (.use (introduced_copyTree fun root hroot => ?_) (within_copyTree List.mem_cons_self ?_)
        (.nil _)))
    · rw [(of_callTree hsound hsignature).1, hlength]
    · exact hbelow (by simp) root (Tree.root_mem_reads (htarget ▸ hroot))
    · exact (hwithin target' (by simp)).mono hmemory
  | @again _ _ _ id copy leaf callee arguments target target' _ number temporary hnumber hheld
      hlifted hdeclares =>
    obtain ⟨signature, hsignature, hpure⟩ := hpurely _ _ _ rfl (hnumber ▸ rfl)
    have hparts := parts_callTree hsound hsignature hpure
    obtain ⟨hrows, hwithin⟩ := hscoped hlifted (by simp [hparts])
    have htarget : target'.root? = target.root? :=
      (List.forall₂_cons.mp (root?_eq_of_lifted hlifted)).1 rfl
    have hmem : temporary ∈ memory.map Prod.snd := by
      obtain ⟨before, after, rfl, -⟩ := List.lookup_eq_some_iff.mp hheld
      simp
    refine hrows.append (.use (introduced_copyTree fun root hroot => ?_)
      (within_copyTree (hrows.subset hmem) (hwithin target' (List.mem_singleton_self _))) (.nil _))
    exact hbelow (by simp) root (Tree.root_mem_reads (htarget ▸ hroot))

/-- What stands for shared statements without new variables writes them before it reads them. -/
theorem EditedAll.scoped {statements : List Tree} {replaced : List Replacement}
    (hedited : plan.EditedAll program program' memory next statements replaced memory' next')
    (hbound : bound ≤ next) (hsound : ∀ statement ∈ statements, program.Sound statement)
    (hlinked : ∀ statement ∈ statements, statement.Linked)
    (hpurely : ∀ statement ∈ statements, plan.SharesPurely program statement)
    (hold : ∀ statement ∈ statements, ∀ read ∈ statement.reads, read.index < bound) :
    program.Scoped bound (memory.map Prod.snd) (replaced.flatMap Replacement.trees)
      (memory'.map Prod.snd) := by
  induction hedited with
  | nil => exact .nil _
  | cons hfirst _ ih =>
    rw [List.forall_mem_cons] at hsound hlinked hpurely hold
    exact (hfirst.scoped hbound hsound.1 hlinked.1 hpurely.1 hold.1).append
      (ih (hbound.trans hfirst.next_le) hsound.2 hlinked.2 hpurely.2 hold.2)

end SharingPlan

end ShaderIR
