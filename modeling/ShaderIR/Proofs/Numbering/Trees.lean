import ShaderIR.Proofs.Interp.Locality
import ShaderIR.Proofs.Numbering.Tables
import ShaderIR.Proofs.Pass.Lifting

/-!
What numbering does, as relations on trees. `Numbers` numbers operands one after the other, each
from its children up; `NumbersStatement` numbers the operands of a statement, and then changes what
the variables that it writes to read as. A `Key` is made of a `Head`, which a node decides by
itself, and of the values of its operands. `Program.numbersStatements_of_forM` says that the walks
of numbering are such steps.
-/

set_option autoImplicit false

namespace ShaderIR

/-! ### Keys -/

/-- What a computation does with its operands. -/
inductive Head
  | constant (value : Constant)
  | index
  | field (number : Nat)
  | swizzle (mask : Swizzle)
  | apply (op : Operator)
  | texture (op : TextureOp) (channel : Option UInt8) (shape : UInt8)
  | call (callee : SignatureId)

/-- What a node computes from its children, if it computes anything. -/
def Node.head? : Node → Option Head
  | .constant value => some (.constant value)
  | .index .. => some .index
  | .field _ number => some (.field number)
  | .swizzle _ mask => some (.swizzle mask)
  | .apply op _ _ => some (.apply op)
  | .texture op channel operands _ => some (.texture op channel operands.packedShape)
  | .call callee _ _ => some (.call callee)
  | _ => none

theorem Node.isStatement_eq_of_head? {node node' : Node} (hhead : node.head? = node'.head?)
    {head : Head} (hsome : node.head? = some head) : node.isStatement = node'.isStatement := by
  cases node <;> cases node' <;> simp_all [head?, isStatement]

namespace Key

/-- What a key says besides its operands. -/
def head : Key → Head
  | .constant value => .constant value
  | .index .. => .index
  | .field _ number => .field number
  | .swizzle _ mask => .swizzle mask
  | .apply op _ => .apply op
  | .texture key => .texture key.op key.channel key.shape
  | .call callee _ => .call callee

/-- The operands of a key. -/
def operands : Key → List Value
  | .constant _ => []
  | .index base place => [base, place]
  | .field record _ => [record]
  | .swizzle value _ => [value]
  | .apply _ operands => operands
  | .texture key => key.operands
  | .call _ arguments => arguments

/-- A key is known from what it says and from its operands. -/
theorem eq_of_head {key key' : Key} (hhead : key.head = key'.head)
    (hoperands : key.operands = key'.operands) : key = key' := by
  cases key <;> cases key' <;> simp only [head, operands, reduceCtorEq, Head.constant.injEq,
    Head.field.injEq, Head.swizzle.injEq, Head.apply.injEq, Head.texture.injEq, Head.call.injEq,
    List.cons.injEq, and_true] at hhead hoperands
  case texture =>
    obtain ⟨hop, hchannel, hshape⟩ := hhead
    exact congrArg Key.texture (TextureKey.ext hop hchannel hshape hoperands)
  all_goals simp [hhead, hoperands]

end Key

/-! ### Operands -/

namespace Numberer

/-- Remembers the number of a node, and notes the node if those of its kind may be shared. -/
def noted (numberer : Numberer) (eligible : NodeKinds) (tree : Tree) (number : ValueNumber) :
    Numberer :=
  (if eligible.contains tree.node.kind then numberer.addOccurrence tree.id number
    else numberer).setValue tree.id [number]

/-- Writes a part of a variable or all of it. -/
def write (numberer : Numberer) (part : Bool) (root : VarId) (value : Value) : Numberer :=
  if part then numberer.writePart root value else numberer.writeWhole root value

end Numberer

/-- Numbering the operands in order gives these values. -/
inductive Numbers (eligible : NodeKinds) : Numberer → List Tree → List Value → Numberer → Prop
  | nil (state : Numberer) : Numbers eligible state [] [] state
  /-- A variable reads as what was written to it. -/
  | read {state stop : Numberer} {id : NodeId} {read : VarId} {children rest : List Tree}
    {values : List Value} (hrest : Numbers eligible
      ((state.read read).2.setValue id (state.read read).1) rest values stop) :
    Numbers eligible state (⟨id, .variable read, children⟩ :: rest)
      ((state.read read).1 :: values) stop
  /-- A computation has the number of its key. -/
  | compute {state between stop : Numberer} {tree : Tree} {rest : List Tree} {values : List Value}
    (key : Key) (hhead : tree.node.head? = some key.head) (hoperand : tree.node.isStatement = false)
    (hchildren : Numbers eligible state tree.children key.operands between)
    (hrest : Numbers eligible
      ((between.numberOf key).2.noted eligible tree (between.numberOf key).1) rest values stop) :
    Numbers eligible state (tree :: rest) ([(between.numberOf key).1] :: values) stop

/-- Storing new values, each of its own, through places in order. -/
inductive Overwrites (program : Program) (eligible : NodeKinds) :
    Numberer → List Tree → Numberer → Prop
  | nil (state : Numberer) : Overwrites program eligible state [] state
  | cons {state between stop : Numberer} {target : Tree} {rest : List Tree} {values : List Value}
    {root : VarId} {part : Bool}
    (hindices : Numbers eligible state.fresh.2 target.indices values between)
    (hroot : target.root? = some root) (hpart : program.isPartialWrite target.id 0 = .ok part)
    (hrest : Overwrites program eligible (between.write part root [state.fresh.1]) rest stop) :
    Overwrites program eligible state (target :: rest) stop

/-- Numbering a statement: its operands are numbered, and what it writes to changes. -/
inductive NumbersStatement (program : Program) (eligible : NodeKinds) :
    Numberer → Tree → Numberer → Prop
  | assign {state valued stop : Numberer} {id : NodeId} {target value : Tree} {mask : UInt8}
    {stored : Value} {indices : List Value} {root : VarId} {part : Bool}
    (hvalue : Numbers eligible state [value] [stored] valued)
    (hindices : Numbers eligible valued target.indices indices stop)
    (hroot : target.root? = some root) (hpart : program.isPartialWrite target.id mask = .ok part) :
    NumbersStatement program eligible state ⟨id, .assign target.id value.id mask, [value, target]⟩
        (stop.write part root stored)
  /-- A call that leaves its arguments alone, whose result is used. -/
  | stored {state called stop : Numberer} {id : NodeId} {callee : SignatureId}
    {signature : Signature} {arguments : List Tree} {target : Tree} {values indices : List Value}
    {root : VarId} {part : Bool} (hsignature : program.signature callee = .ok signature)
    (hpure : signature.isPure = true) (harguments : Numbers eligible state arguments values called)
    (hindices : Numbers eligible ((called.numberOf (.call callee values)).2.noted eligible
        ⟨id, .call callee (arguments.map Tree.id) (some target.id), arguments ++ [target]⟩
        (called.numberOf (.call callee values)).1) target.indices indices stop)
    (hroot : target.root? = some root) (hpart : program.isPartialWrite target.id 0 = .ok part) :
    NumbersStatement program eligible state
        ⟨id, .call callee (arguments.map Tree.id) (some target.id), arguments ++ [target]⟩
        (stop.write part root [(called.numberOf (.call callee values)).1])
  /-- A call that leaves its arguments alone, whose result is not used. -/
  | dropped {state called : Numberer} {id : NodeId} {callee : SignatureId} {signature : Signature}
    {arguments : List Tree} {values : List Value}
    (hsignature : program.signature callee = .ok signature) (hpure : signature.isPure = true)
    (harguments : Numbers eligible state arguments values called) :
    NumbersStatement program eligible state
      ⟨id, .call callee (arguments.map Tree.id) none, arguments⟩
        ((called.numberOf (.call callee values)).2.setValue id
        [(called.numberOf (.call callee values)).1])
  /-- A call that writes some of its arguments. -/
  | effectful {state called overwritten stop : Numberer} {id : NodeId} {callee : SignatureId}
    {signature : Signature} {arguments : List Tree} {result : Option Tree} {values : List Value}
    (hsignature : program.signature callee = .ok signature) (hpure : signature.isPure = false)
    (hinputs : Numbers eligible state (((signature.params.zip arguments).filter
          fun passed => passed.1.mode = .input).map Prod.snd) values called)
    (hwritten : Overwrites program eligible called (((signature.params.zip arguments).filter
          fun passed => passed.1.mode.writes).map Prod.snd) overwritten)
    (hresult : Overwrites program eligible (overwritten.fresh.2.setValue id [overwritten.fresh.1])
      result.toList stop) :
    NumbersStatement program eligible state ⟨id,
        .call callee (arguments.map Tree.id) (result.map Tree.id), arguments ++ result.toList⟩ stop
  /-- A statement that only reads. -/
  | operands {state stop : Numberer} {statement : Tree} {values : List Value}
    (hwrites : statement.node.kind ≠ .assign ∧ statement.node.kind ≠ .call)
    (hoperands : Numbers eligible state statement.children values stop) :
    NumbersStatement program eligible state statement stop

/-- Numbering statements in order. -/
inductive NumbersStatements (program : Program) (eligible : NodeKinds) :
    Numberer → List Tree → Numberer → Prop
  | nil (state : Numberer) : NumbersStatements program eligible state [] state
  | cons {state between stop : Numberer} {statement : Tree} {rest : List Tree}
    (hfirst : NumbersStatement program eligible state statement between)
    (hrest : NumbersStatements program eligible between rest stop) :
    NumbersStatements program eligible state (statement :: rest) stop

namespace Numbers

variable {eligible : NodeKinds} {state between stop : Numberer} {trees more : List Tree}
  {values moreValues : List Value}

theorem append (hfirst : Numbers eligible state trees values between)
    (hmore : Numbers eligible between more moreValues stop) :
    Numbers eligible state (trees ++ more) (values ++ moreValues) stop := by
  induction hfirst with
  | nil => exact hmore
  | read _ ih => exact .read (ih hmore)
  | compute key hhead hoperand hchildren _ _ ih =>
    exact .compute key hhead hoperand hchildren (ih hmore)

end Numbers

/-! ### What the numbering walks do -/

namespace Program

variable {program : Program} {config : Config} {eligible : NodeKinds} {start stop : Numberer}

/-- Giving a node its number notes it and remembers the number. -/
theorem answers_recordNumber (tree : Tree) {number : ValueNumber} {value : Value} :
    Walk.Answers (recordNumber eligible tree.id tree.node number) start value stop ↔
      value = [number] ∧ stop = start.noted eligible tree number := by
  unfold recordNumber Numberer.noted
  split
  · simp only [Walk.answers_bind, Walk.answers_modify, Walk.answers_pure, exists_and_left,
      exists_eq_left', exists_const]
    exact and_congr eq_comm eq_comm
  · simp only [Walk.answers_bind, Walk.answers_modify, Walk.answers_pure, exists_eq_left',
      exists_const]
    exact and_congr eq_comm eq_comm

theorem numbers_of_mapM {step : NodeId → NumberingWalk Value} {trees : List Tree}
    (hstep : ∀ tree ∈ trees, ∀ state value after, Walk.Answers (step tree.id) state value after →
      Numbers eligible state [tree] [value] after) {values : List Value}
    (hanswers : Walk.Answers ((trees.map Tree.id).mapM step) start values stop) :
    Numbers eligible start trees values stop := by
  induction trees generalizing start values with
  | nil =>
    obtain ⟨rfl, rfl⟩ := Walk.answers_mapM_nil.mp hanswers
    exact .nil _
  | cons tree trees ih =>
    obtain ⟨hfirst, hrest⟩ := List.forall_mem_cons.mp hstep
    obtain ⟨value, later, between, htree, htrees, rfl⟩ := Walk.answers_mapM_cons.mp hanswers
    exact (hfirst _ _ _ htree).append (ih hrest htrees)

/-- The children of a node are numbered, and then the node gets the number of its key. -/
theorem numbers_of_finish {tree : Tree} (key : Key) {value : Value} {between : Numberer}
    (hhead : tree.node.head? = some key.head) (hoperand : tree.node.isStatement = false)
    (hchildren : Numbers eligible start tree.children key.operands between)
    (hanswers : Walk.Answers (do
      let number ← NumberingWalk.handOut fun numberer => numberer.numberOf key
      recordNumber eligible tree.id tree.node number) between value stop) :
    Numbers eligible start [tree] [value] stop := by
  simp only [Walk.answers_bind, NumberingWalk.answers_handOut, answers_recordNumber] at hanswers
  obtain ⟨number, after, ⟨hnumber, -⟩, rfl, rfl⟩ := hanswers
  have hnumbers := Numbers.compute key hhead hoperand hchildren (.nil _)
  rwa [hnumber] at hnumbers

/-- Numbering an expression. -/
theorem numbers_of_numberExpression {budget : Nat} {tree : Tree} (hdraws : program.Draws tree)
    {value : Value}
    (hanswers : Walk.Answers (program.numberExpression eligible budget tree.id) start value stop) :
      Numbers eligible start [tree] [value] stop := by
  induction budget generalizing tree value start stop with
  | zero => exact absurd hanswers Walk.answers_throw
  | succ budget ih =>
    obtain ⟨id, node, children⟩ := tree
    have hmapM : ∀ {state after : Numberer} {values : List Value}, Walk.Answers
          (node.children.mapM (program.numberExpression eligible budget)) state values after →
          Numbers eligible state children values after := fun hchildren => by
            rw [hdraws.children_eq] at hchildren
            exact numbers_of_mapM (fun child hchild _ _ _ => ih (hdraws.child hchild)) hchildren
    unfold numberExpression at hanswers
    simp only [Walk.answers_bind, Walk.answers_liftCrash] at hanswers
    obtain ⟨found, _, ⟨hfound, rfl⟩, hanswers⟩ := hanswers
    obtain rfl : node = found := Except.ok.inj (hdraws.node_eq.symm.trans hfound)
    cases node with
    | constant constant =>
      exact numbers_of_finish (.constant constant) rfl rfl
        (hmapM (Walk.answers_mapM_nil.mpr ⟨rfl, rfl⟩)) hanswers
    | «variable» read =>
      simp only [Walk.answers_bind, NumberingWalk.answers_handOut, Walk.answers_modify,
        Walk.answers_pure] at hanswers
      obtain ⟨found, after, ⟨hread, -⟩, _, _, rfl, rfl, rfl⟩ := hanswers
      have hnumbers : Numbers eligible start [⟨id, .variable read, children⟩] _ _ := .read (.nil _)
      rwa [hread] at hnumbers
    | index base place =>
      obtain ⟨first, _, hbase, hanswers⟩ := Walk.answers_bind.mp hanswers
      obtain ⟨second, _, hplace, hanswers⟩ := Walk.answers_bind.mp hanswers
      exact numbers_of_finish (.index first second) rfl rfl
        (hmapM (Walk.answers_mapM_cons.mpr ⟨first, [second], _, hbase, Walk.answers_mapM_cons.mpr
          ⟨second, [], _, hplace, Walk.answers_mapM_nil.mpr ⟨rfl, rfl⟩, rfl⟩, rfl⟩)) hanswers
    | field record number =>
      obtain ⟨first, _, hrecord, hanswers⟩ := Walk.answers_bind.mp hanswers
      exact numbers_of_finish (.field first number) rfl rfl
        (hmapM (Walk.answers_mapM_cons.mpr ⟨first, [], _, hrecord,
          Walk.answers_mapM_nil.mpr ⟨rfl, rfl⟩, rfl⟩)) hanswers
    | swizzle inner mask =>
      obtain ⟨first, _, hinner, hanswers⟩ := Walk.answers_bind.mp hanswers
      exact numbers_of_finish (.swizzle first mask) rfl rfl
        (hmapM (Walk.answers_mapM_cons.mpr ⟨first, [], _, hinner,
          Walk.answers_mapM_nil.mpr ⟨rfl, rfl⟩, rfl⟩)) hanswers
    | apply op operands ty =>
      obtain ⟨values, _, hoperands, hanswers⟩ := Walk.answers_bind.mp hanswers
      exact numbers_of_finish (.apply op values) rfl rfl (hmapM hoperands) hanswers
    | texture op channel operands ty =>
      obtain ⟨values, _, hoperands, hanswers⟩ := Walk.answers_bind.mp hanswers
      exact numbers_of_finish (.texture ⟨op, channel, operands.packedShape, values⟩) rfl rfl
        (hmapM hoperands) hanswers
    | _ => exact absurd hanswers Walk.answers_throw

/-- Numbering a place numbers the indices in it. -/
theorem numbers_of_numberPlace {budget : Nat} {tree : Tree}
    (hdraws : program.Draws tree) {root : VarId}
    (hanswers : Walk.Answers (program.numberPlace eligible budget tree.id) start root stop) :
    tree.root? = some root ∧ ∃ values, Numbers eligible start tree.indices values stop := by
  induction budget generalizing tree start with
  | zero => exact absurd hanswers Walk.answers_throw
  | succ budget ih =>
    obtain ⟨id, node, children⟩ := tree
    have hids := hdraws.children_eq
    unfold numberPlace at hanswers
    simp only [Walk.answers_bind, Walk.answers_liftCrash] at hanswers
    obtain ⟨found, _, ⟨hfound, rfl⟩, hanswers⟩ := hanswers
    obtain rfl : node = found := Except.ok.inj (hdraws.node_eq.symm.trans hfound)
    rw [Tree.root?, Tree.fold_mk, ← Tree.root?]
    cases node with
    | «variable» written =>
      obtain ⟨rfl, rfl⟩ := Walk.answers_pure.mp hanswers
      refine ⟨rfl, [], ?_⟩
      rw [Tree.indices]
      · exact .nil _
      all_goals simp
    | index base place =>
      obtain ⟨base, place, rfl, rfl, rfl⟩ := Tree.exists_pair_of_ids hids
      simp only [Walk.answers_bind] at hanswers
      obtain ⟨value, between, hplace, hbase⟩ := hanswers
      have hbelow : ∀ child ∈ [base, place], program.Draws child := fun child => hdraws.child
      obtain ⟨hroot, values, hindices⟩ := ih (hbelow base (by simp)) hbase
      exact ⟨hroot, _,
        (numbers_of_numberExpression (hbelow place (by simp)) hplace).append hindices⟩
    | field record number =>
      obtain ⟨record, rfl, rfl⟩ := Tree.exists_single_of_ids hids
      exact ih (hdraws.child List.mem_cons_self) hanswers
    | _ => exact absurd hanswers Walk.answers_throw

theorem exists_of_numberStore {target : Tree}
    (hdraws : program.Draws target) {mask : UInt8} {value : Value}
    (hanswers : Walk.Answers (program.numberStore config target.id mask value) start () stop) :
    ∃ indices between root part, Numbers config.eligible start target.indices indices between ∧
      target.root? = some root ∧ program.isPartialWrite target.id mask = .ok part ∧
        stop = between.write part root value := by
  unfold numberStore at hanswers
  simp only [Walk.answers_bind, Walk.answers_liftCrash] at hanswers
  obtain ⟨root, between, hplace, part, _, ⟨hpart, rfl⟩, hwrite⟩ := hanswers
  obtain ⟨hroot, indices, hindices⟩ := numbers_of_numberPlace hdraws hplace
  refine ⟨indices, between, root, part, hindices, hroot, hpart, ?_⟩
  unfold Numberer.write
  split at hwrite
  · next hpartial =>
    obtain ⟨hwritten, -⟩ := NumberingWalk.answers_handOut.mp hwrite
    rw [if_pos hpartial, (Prod.mk.inj hwritten).2]
  · next hwhole => rw [if_neg hwhole, ← Walk.answers_modify.mp hwrite]

/-! ### Statements -/

theorem numbers_of_inputs {passed : List (Param × Tree)}
    (hdraws : ∀ argument ∈ passed, program.Draws argument.2)
    (hanswers : Walk.Answers ((passed.map fun argument => (argument.1, argument.2.id)).forM
      fun (param, argument) => do
        if param.mode = .input then
          let _ ← program.numberExpression eligible config.maxDepth argument) start () stop) :
    ∃ values, Numbers eligible start
      ((passed.filter fun argument => argument.1.mode = .input).map Prod.snd) values stop := by
  induction passed generalizing start with
  | nil =>
    obtain rfl := Walk.answers_forM_nil.mp hanswers
    exact ⟨[], .nil _⟩
  | cons first rest ih =>
    obtain ⟨hfirst, hlater⟩ := List.forall_mem_cons.mp hdraws
    rw [List.map_cons] at hanswers
    obtain ⟨between, hinput, hrest⟩ := Walk.answers_forM_cons.mp hanswers
    obtain ⟨values, hvalues⟩ := ih hlater hrest
    dsimp only at hinput
    split at hinput
    · next hmode =>
      simp only [Walk.answers_bind, Walk.answers_pure] at hinput
      obtain ⟨value, _, hvalue, -, rfl⟩ := hinput
      refine ⟨value :: values, ?_⟩
      rw [List.filter_cons_of_pos (by simpa using hmode), List.map_cons]
      exact (numbers_of_numberExpression hfirst hvalue).append hvalues
    · next hmode =>
      obtain ⟨-, rfl⟩ := Walk.answers_pure.mp hinput
      refine ⟨values, ?_⟩
      rwa [List.filter_cons_of_neg (by simpa using hmode)]

theorem overwrites_of_targets {passed : List (Param × Tree)}
    (hdraws : ∀ argument ∈ passed, program.Draws argument.2)
    (hanswers : Walk.Answers ((passed.map fun argument => (argument.1, argument.2.id)).forM
      fun (param, argument) => do
        if param.mode.writes then
          let number ← NumberingWalk.handOut Numberer.fresh
          program.numberStore config argument 0 [number]) start () stop) :
    Overwrites program config.eligible start
      ((passed.filter fun argument => argument.1.mode.writes).map Prod.snd) stop := by
  induction passed generalizing start with
  | nil =>
    obtain rfl := Walk.answers_forM_nil.mp hanswers
    exact .nil _
  | cons first rest ih =>
    obtain ⟨hfirst, hlater⟩ := List.forall_mem_cons.mp hdraws
    rw [List.map_cons] at hanswers
    obtain ⟨between, hstore, hrest⟩ := Walk.answers_forM_cons.mp hanswers
    have hwrites := ih hlater hrest
    dsimp only at hstore
    split at hstore
    · next hmode =>
      simp only [Walk.answers_bind, NumberingWalk.answers_handOut] at hstore
      obtain ⟨number, _, ⟨hfresh, -⟩, hstore⟩ := hstore
      obtain ⟨rfl, rfl⟩ := Prod.ext_iff.mp hfresh
      obtain ⟨indices, after, root, part, hindices, hroot, hpart, rfl⟩ :=
        exists_of_numberStore hfirst hstore
      rw [List.filter_cons_of_pos (by simpa using hmode), List.map_cons]
      exact .cons hindices hroot hpart hwrites
    · next hmode =>
      obtain ⟨-, rfl⟩ := Walk.answers_pure.mp hstore
      rwa [List.filter_cons_of_neg (by simpa using hmode)]

/-- Numbering a sound statement. -/
theorem numbersStatement_of_numberStatement {statement : Tree} (hdraws : program.Draws statement)
    (hsound : program.Sound statement)
    (hanswers : Walk.Answers (program.numberStatement config statement.id) start () stop) :
    NumbersStatement program config.eligible start statement stop := by
  unfold numberStatement at hanswers
  simp only [Walk.answers_bind, Walk.answers_liftCrash] at hanswers
  obtain ⟨found, _, ⟨hfound, rfl⟩, hanswers⟩ := hanswers
  obtain rfl : statement.node = found := Except.ok.inj (hdraws.node_eq.symm.trans hfound)
  have hchild : ∀ child ∈ statement.children, program.Draws child := fun child => hdraws.child
  cases hsound with
  | assign id target value mask hplace =>
    simp only [Walk.answers_bind] at hanswers
    obtain ⟨stored, between, hvalue, hstore⟩ := hanswers
    obtain ⟨indices, after, root, part, hindices, hroot, hpart, rfl⟩ :=
      exists_of_numberStore (hchild target (by simp)) hstore
    exact .assign (numbers_of_numberExpression (hchild value (by simp)) hvalue) hindices hroot hpart
  | call id callee arguments result signature hsignature hlength hwritten hresult =>
    dsimp only at hanswers
    simp only [Walk.answers_bind, Walk.answers_liftCrash, hsignature, Except.ok.injEq] at hanswers
    obtain ⟨_, _, ⟨rfl, rfl⟩, hanswers⟩ := hanswers
    have harguments : ∀ argument ∈ arguments, program.Draws argument :=
      fun argument hmem => hchild argument (List.mem_append_left _ hmem)
    split at hanswers
    · next hpure =>
      unfold numberPureCall at hanswers
      simp only [Walk.answers_bind, NumberingWalk.answers_handOut] at hanswers
      obtain ⟨values, called, hvalues, number, counted, ⟨hnumber, -⟩, hanswers⟩ := hanswers
      have hnumbers := numbers_of_mapM (fun argument hmem _ _ _ =>
        numbers_of_numberExpression (harguments argument hmem)) hvalues
      obtain ⟨rfl, rfl⟩ := Prod.ext_iff.mp hnumber
      cases result with
      | none =>
        obtain rfl := Walk.answers_modify.mp hanswers
        have hdropped : NumbersStatement program config.eligible start
            ⟨id, .call callee (arguments.map Tree.id) none, arguments⟩ _ :=
              .dropped hsignature hpure hnumbers
        simpa using hdropped
      | some target =>
        simp only [Option.map_some, Walk.answers_bind] at hanswers
        obtain ⟨_, noted, hrecord, hstore⟩ := hanswers
        obtain ⟨-, rfl⟩ := (answers_recordNumber ⟨id, .call callee (arguments.map Tree.id)
          (some target.id), arguments ++ [target]⟩).mp hrecord
        obtain ⟨indices, after, root, part, hindices, hroot, hpart, rfl⟩ :=
          exists_of_numberStore (hchild target (by simp)) hstore
        exact .stored hsignature hpure hnumbers hindices hroot hpart
    · next hpure =>
      unfold numberEffectfulCall at hanswers
      simp only [Walk.answers_bind, NumberingWalk.answers_handOut, Walk.answers_modify] at hanswers
      obtain ⟨⟨⟩, called, hinputs, ⟨⟩, overwritten, hwrites, number, _, ⟨hnumber, -⟩, _, _, rfl,
        hanswers⟩ := hanswers
      obtain ⟨rfl, rfl⟩ := Prod.ext_iff.mp hnumber
      rw [show signature.params.zip (arguments.map Tree.id) = (signature.params.zip arguments).map
        fun passed => (passed.1, passed.2.id) by rw [List.zip_map_right]; rfl] at hinputs hwrites
      have hpassed : ∀ passed ∈ signature.params.zip arguments, program.Draws passed.2 :=
        fun passed hmem => harguments passed.2 (List.of_mem_zip hmem).2
      obtain ⟨values, hnumbers⟩ := numbers_of_inputs hpassed hinputs
      refine .effectful hsignature (by simpa using hpure) hnumbers
        (overwrites_of_targets hpassed hwrites) ?_
      cases result with
      | none =>
        obtain ⟨-, rfl⟩ := Walk.answers_pure.mp hanswers
        exact .nil _
      | some target =>
        simp only [Option.map_some, Walk.answers_bind, NumberingWalk.answers_handOut] at hanswers
        obtain ⟨number, _, ⟨hfresh, -⟩, hstore⟩ := hanswers
        obtain ⟨rfl, rfl⟩ := Prod.ext_iff.mp hfresh
        obtain ⟨indices, after, root, part, hindices, hroot, hpart, rfl⟩ :=
          exists_of_numberStore (hchild target (by simp)) hstore
        exact .cons hindices hroot hpart (.nil _)
  | branch id condition thenBody elseBody =>
    simp only [Walk.answers_bind, Walk.answers_pure] at hanswers
    obtain ⟨value, _, hvalue, -, rfl⟩ := hanswers
    exact .operands (by simp [Node.kind])
      (numbers_of_numberExpression (hchild condition (by simp)) hvalue)
  | loop id body =>
    obtain ⟨-, rfl⟩ := Walk.answers_pure.mp hanswers
    exact .operands (by simp [Node.kind]) (.nil _)
  | ret id operand | discard id operand =>
    cases operand with
    | none =>
      obtain rfl := Walk.answers_forM_nil.mp hanswers
      exact .operands (by simp [Node.kind]) (.nil _)
    | some operand =>
      obtain ⟨_, hfirst, hrest⟩ := Walk.answers_forM_cons.mp hanswers
      obtain rfl := Walk.answers_forM_nil.mp hrest
      simp only [Walk.answers_bind, Walk.answers_pure] at hfirst
      obtain ⟨value, _, hvalue, -, rfl⟩ := hfirst
      exact .operands (by simp [Node.kind])
        (numbers_of_numberExpression (hchild operand (by simp)) hvalue)

theorem numbersStatements_of_forM {statements : List Tree}
    (hstatements : ∀ statement ∈ statements, program.Draws statement ∧ program.Sound statement)
    (hanswers : Walk.Answers ((statements.map Tree.id).forM (program.numberStatement config)) start
      () stop) : NumbersStatements program config.eligible start statements stop := by
  induction statements generalizing start with
  | nil =>
    obtain rfl := Walk.answers_forM_nil.mp hanswers
    exact .nil _
  | cons statement rest ih =>
    obtain ⟨⟨hdraws, hsound⟩, hlater⟩ := List.forall_mem_cons.mp hstatements
    rw [List.map_cons] at hanswers
    obtain ⟨between, hfirst, hrest⟩ := Walk.answers_forM_cons.mp hanswers
    exact .cons (numbersStatement_of_numberStatement hdraws hsound hfirst) (ih hlater hrest)

end Program

end ShaderIR
