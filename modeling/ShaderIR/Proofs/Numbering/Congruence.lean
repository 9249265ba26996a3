import ShaderIR.Proofs.Numbering.Passages

/-!
When two nodes have one number. The table of keys is a bijection all the time: no number is handed
out for two keys (`Numberer.Keyed`), and no key has two numbers (`Numberer.Functional`). A node that
computes something has the number of the key that its operands have in the end
(`Program.Passes.exists_key`), so two such nodes have one number exactly if they agree on all that
their keys are made of (`Numbering.Agree`). A call that writes arguments has a number that no other
node has anything of. `Graph.congruence_of_numberStatements` says both of a block of a checked
program.
-/

set_option autoImplicit false

namespace ShaderIR

/-- Two nodes compute the same from operands of the same values. Texture operations have them in the
same slots. -/
def Numbering.Agree (numbering : Numbering) : Node → Node → Prop
  | .constant value, .constant value' => value = value'
  | .index base place, .index base' place' =>
    numbering.value? base = numbering.value? base' ∧
      numbering.value? place = numbering.value? place'
  | .field record number, .field record' number' =>
    numbering.value? record = numbering.value? record' ∧ number = number'
  | .swizzle value mask, .swizzle value' mask' =>
    numbering.value? value = numbering.value? value' ∧ mask = mask'
  | .apply op operands _, .apply op' operands' _ =>
    op = op' ∧ operands.map numbering.value? = operands'.map numbering.value?
  | .texture op channel operands _, .texture op' channel' operands' _ =>
    op = op' ∧ channel = channel' ∧ operands.map numbering.value? = operands'.map numbering.value?
  | .call callee arguments _, .call callee' arguments' _ =>
    callee = callee' ∧ arguments.map numbering.value? = arguments'.map numbering.value?
  | _, _ => False

theorem Numbering.agree_iff {numbering : Numbering}
    {node node' : Node} (hhead : node.head?.isSome = true) :
    numbering.Agree node node' ↔
      node.head? = node'.head? ∧
      node.inputs.map numbering.value? = node'.inputs.map numbering.value? := by
  cases node <;> cases node' <;> simp_all [Agree, Node.head?, Node.inputs, Node.children,
    TextureOperands.map_eq_map_iff, and_comm, and_assoc]

/-- Nodes agree exactly if they have one key. -/
theorem Numbering.agree_iff_eq {numbering : Numbering} {node node' : Node} {key key' : Key}
    (hkey : node.keyFrom numbering.value? = some key)
    (hkey' : node'.keyFrom numbering.value? = some key') :
    numbering.Agree node node' ↔ key = key' := by
  obtain ⟨hhead, hoperands⟩ := Node.keyFrom_eq_some_iff.mp hkey
  obtain ⟨hhead', hoperands'⟩ := Node.keyFrom_eq_some_iff.mp hkey'
  have hrow {inputs : List NodeId} {operands : List Value}
      (hall : List.Forall₂ (fun id value => numbering.value? id = some value) inputs operands) :
      inputs.map numbering.value? = operands.map some := by
    rw [← List.forall₂_eq_eq_eq, List.forall₂_map_left_iff, List.forall₂_map_right_iff]
    exact hall
  rw [agree_iff (by rw [hhead]; rfl), hhead, hhead', hrow hoperands, hrow hoperands',
    Option.some.injEq, (List.map_injective_iff.mpr (Option.some_injective _)).eq_iff]
  exact ⟨fun ⟨hheads, hrows⟩ => Key.eq_of_head hheads hrows, fun hsame => hsame ▸ ⟨rfl, rfl⟩⟩

/-! ### One number for each key -/

namespace Numberer

variable {state : Numberer}

/-- No key has two numbers. -/
def Functional (numberer : Numberer) : Prop :=
  ∀ key number number', (key, number) ∈ numberer.table → (key, number') ∈ numberer.table →
    number = number'

@[simp] theorem table_history (id : VarId) : (state.history id).2.table = state.table := by
  unfold history
  split <;> rfl

@[simp] theorem table_read (id : VarId) : (state.read id).2.table = state.table :=
  table_history id

@[simp] theorem table_write (part : Bool) (root : VarId) (value : Value) :
    (state.write part root value).table = state.table := by
  unfold write
  split
  · exact table_history root
  · rfl

theorem functional_nil : Functional {} := fun _ _ _ hentry => (List.not_mem_nil hentry).elim

theorem Functional.of_table {stop : Numberer}
    (hfunctional : state.Functional) (htable : stop.table = state.table) :
    stop.Functional := by
  unfold Functional
  rwa [htable]

theorem Functional.numberOf (hfunctional : state.Functional) (key : Key) :
    (state.numberOf key).2.Functional := by
  obtain ⟨number, -, hknows⟩ | ⟨hunknown, hnew⟩ := state.numberOf_cases key
  · rwa [hknows]
  -- a key gets a number only if it has none
  · rw [hnew]
    intro key' number number' hentry hentry'
    obtain ⟨rfl, rfl⟩ | hold := mem_table_withKey.mp hentry <;>
      obtain ⟨hsame, rfl⟩ | hold' := mem_table_withKey.mp hentry'
    · rfl
    · exact (hunknown _ hold').elim
    · exact (hunknown _ (hsame ▸ hold)).elim
    · exact hfunctional key' number number' hold hold'

end Numberer

section Passages

variable {program : Program} {state stop : Numberer} {event : Option NumberEvent}
  {events : List NumberEvent} {id : NodeId}

theorem Program.Happens.functional (hhappens : program.Happens state event stop)
    (hfunctional : state.Functional) :
    stop.Functional := by
  cases hhappens with
  | fresh | call => exact hfunctional
  | read => exact hfunctional.of_table (Numberer.table_read _)
  | @compute _ _ key => exact hfunctional.numberOf key
  | write => exact hfunctional.of_table (Numberer.table_write _ _ _)

theorem Program.Passes.functional (hpasses : program.Passes state events stop)
    (hfunctional : state.Functional) :
    stop.Functional := by
  induction hpasses with
  | nil => exact hfunctional
  | step hfirst _ ih => exact ih (hfirst.functional hfunctional)

variable (hpasses : program.Passes {} events stop) (hnodup : (NumberEvent.valued events).Nodup)
  {value : Value} (hvalue : stop.numbering.value? id = some value)

include hpasses hnodup hvalue

/-- A node that computes something has the number of the key that its operands have in the end. -/
theorem Program.Passes.exists_key {node : Node} (hnode : program.node id = .ok node)
    (hreads : ¬ program.Reads id) (hpurely : program.CallsPurely id) :
    ∃ key number, node.keyFrom stop.numbering.value? = some key ∧
      (key, number) ∈ stop.table ∧ value = [number] := by
  obtain ⟨before, after, state, state', -, -, hevent, hafter, hsame, hkept⟩ :=
    hpasses.exists_of_value hnodup (hpasses.value_mem hvalue rfl)
  rw [hsame] at hvalue
  cases hevent with
  | read hread => exact (hreads ⟨_, hread⟩).elim
  | @compute _ found key _ hfound _ hoccurrences hkey =>
    obtain rfl := Except.ok.inj (hfound.symm.trans hnode)
    exact ⟨key, _, Node.keyFrom_mono hkey hkept,
      hafter.advances.table_subset (state.numberOf_mem key),
      Option.some.inj (hvalue.symm.trans (Numberer.value?_setValue_self _ _))⟩
  | call hcall hsignature hpure =>
    obtain ⟨signature, hfound, hpure'⟩ := hpurely _ _ _ hcall
    obtain rfl := Except.ok.inj (hsignature.symm.trans hfound)
    exact absurd (hpure.symm.trans hpure') Bool.false_ne_true

/-- The number of a call that writes arguments occurs in no value of another node. -/
theorem Program.Passes.exists_secret (hcall : ¬ program.CallsPurely id) :
    ∃ number, value = [number] ∧ stop.Secret (some id) number := by
  obtain ⟨before, after, state, state', -, hbefore, hevent, hafter, hsame, -⟩ :=
    hpasses.exists_of_value hnodup (hpasses.value_mem hvalue rfl)
  rw [hsame] at hvalue
  cases hevent with
  | read hread => exact (hcall (callsPurely_of_isStatement hread rfl)).elim
  | compute _ hpurely => exact (hcall hpurely).elim
  | call =>
    have hfresh := (hbefore.bounded Numberer.uses_nil).secret_fresh
    have hsecret : (state.fresh.2.setValue id [state.fresh.1]).Secret (some id) state.fresh.1 :=
      ⟨hfresh.1, Numberer.Uses.setValue ⟨hfresh.2.table, hfresh.2.histories,
          fun other found hmem _ =>
            hfresh.2.values other found hmem (by simp)⟩ fun hother => (hother rfl).elim⟩
    exact ⟨_, Option.some.inj (hvalue.symm.trans (Numberer.value?_setValue_self _ _)),
      hafter.secret_of_call hsecret hcall List.mem_cons_self⟩

end Passages

/-! ### Blocks -/

namespace Graph

variable {program : Program} {config limits : Config} {graph : Graph} {block : BasicBlock}
  {statements : List NodeId} {numbering : Numbering}

/-- Two nodes of a block that are no reads of variables have one number exactly if they agree on
what they are and on the values of their operands, and a call that writes arguments shares its
number with no other node. -/
theorem congruence_of_numberStatements (hcheck : program.check = .ok ())
    (hbuild : Query.Answers (build program limits) graph) (hblock : block ∈ graph.blocks)
    (hstatements : block.statements program = .ok statements)
    (hnumbering : Query.Answers (program.numberStatements statements config) numbering) :
    (∀ id id' node node' value value', program.node id = .ok node → program.node id' = .ok node' →
      numbering.value? id = some value → numbering.value? id' = some value' →
      ¬ program.Reads id → ¬ program.Reads id' → program.CallsPurely id → program.CallsPurely id' →
      ∃ number number', value = [number] ∧ value' = [number'] ∧
        (number = number' ↔ numbering.Agree node node')) ∧
    ∀ id value, numbering.value? id = some value → ¬ program.CallsPurely id →
      ∃ number, value = [number] ∧ ∀ other, other ≠ id → ∀ value',
        numbering.value? other = some value' →
        number ∉ value' := by
  obtain ⟨events, hevents⟩ := exists_eventsOf_of_block hcheck hbuild hblock hstatements
  obtain ⟨hnodup, stop, hpasses, rfl⟩ :=
    exists_passes_of_numberStatements hcheck hbuild hblock hstatements hnumbering hevents
  constructor
  · intro id id' node node' value value' hnode hnode' hvalue hvalue' hreads hreads' hpurely hpurely'
    obtain ⟨key, number, hkey, hentry, rfl⟩ := hpasses.exists_key hnodup hvalue hnode hreads hpurely
    obtain ⟨key', number', hkey', hentry', rfl⟩ :=
      hpasses.exists_key hnodup hvalue' hnode' hreads' hpurely'
    refine ⟨number, number', rfl, rfl, ?_⟩
    rw [Numbering.agree_iff_eq hkey hkey']
    constructor
    · rintro rfl
      exact (hpasses.advances.keyed Numberer.keyed_nil).injective key key' number hentry hentry'
    · rintro rfl
      exact hpasses.functional Numberer.functional_nil key number number' hentry hentry'
  · intro id value hvalue hcall
    obtain ⟨number, rfl, -, huses⟩ := hpasses.exists_secret hnodup hvalue hcall
    refine ⟨number, rfl, fun other hne value' hvalue' hmem => ?_⟩
    exact huses.values other value'
      (Numberer.mem_values_of_value? hvalue') (by simpa using Ne.symm hne) number hmem rfl

/-- A negation on each side of a call that writes its argument. -/
def negatedAroundCall : Program where
  nodes :=
    #[.variable ⟨1⟩, .variable ⟨0⟩, .apply .neg [⟨1⟩] .float, .assign ⟨0⟩ ⟨2⟩ 0, .variable ⟨2⟩,
    .call ⟨0⟩ [⟨4⟩] none, .variable ⟨2⟩, .variable ⟨0⟩, .apply .neg [⟨7⟩] .float, .assign ⟨6⟩ ⟨8⟩ 0]
  vars := #[⟨"x", .float, .auto⟩, ⟨"y", .float, .auto⟩, ⟨"z", .float, .auto⟩]
  signatures := #[⟨"f", [⟨.float, .output⟩], .void⟩]
  body := [⟨3⟩, ⟨5⟩, ⟨9⟩]

/-- The block of `negatedAroundCall`. -/
def negatedAroundCallBlock : BasicBlock where
  id := ⟨0⟩
  ranges := [⟨.root, ⟨3⟩, ⟨9⟩⟩]

/-- What is known of the block of `negatedAroundCall`; the negations have one number, and the call
has another one. -/
def negatedAroundCallNumbering : Numbering where
  values := [(⟨8⟩, [⟨1⟩]), (⟨7⟩, [⟨0⟩]), (⟨5⟩, [⟨3⟩]), (⟨2⟩, [⟨1⟩]), (⟨1⟩, [⟨0⟩])]
  allocated := 4

theorem congruence_of_numberStatements_negatedAroundCall : ∃ graph,
    Query.Answers (build negatedAroundCall {}) graph ∧ negatedAroundCallBlock ∈ graph.blocks ∧
    Query.Answers (negatedAroundCall.numberStatements [⟨3⟩, ⟨5⟩, ⟨9⟩] {})
      negatedAroundCallNumbering ∧
    negatedAroundCallNumbering.Agree (.apply .neg [⟨1⟩] .float) (.apply .neg [⟨7⟩] .float) ∧
    ∀ other ≠ ⟨5⟩, ∀ value, negatedAroundCallNumbering.value? other = some value → ⟨3⟩ ∉ value := by
  have hbuild : Query.Answers (build negatedAroundCall {})
      ⟨#[some negatedAroundCallBlock, none], false⟩ := rfl
  have hblock : negatedAroundCallBlock ∈
      Graph.blocks ⟨#[some negatedAroundCallBlock, none], false⟩ := by decide
  have hnumbering : Query.Answers (negatedAroundCall.numberStatements [⟨3⟩, ⟨5⟩, ⟨9⟩] {})
      negatedAroundCallNumbering := by
    change _ = _
    decide +kernel
  obtain ⟨hagree, hcalls⟩ := congruence_of_numberStatements rfl hbuild hblock rfl hnumbering
  have hreads : ¬ negatedAroundCall.Reads ⟨2⟩ ∧ ¬ negatedAroundCall.Reads ⟨8⟩ := by
    constructor <;> rintro ⟨_, hread⟩ <;> cases hread
  obtain ⟨_, _, hvalue, hvalue', hiff⟩ :=
    hagree ⟨2⟩ ⟨8⟩ _ _ [⟨1⟩] [⟨1⟩] rfl rfl rfl rfl hreads.1 hreads.2
    (Program.callsPurely_of_isStatement rfl rfl) (Program.callsPurely_of_isStatement rfl rfl)
  refine ⟨_, hbuild, hblock, hnumbering,
    hiff.mp ((List.cons.inj hvalue).1.symm.trans (List.cons.inj hvalue').1),
    fun other hne value hother => ?_⟩
  obtain ⟨_, hvalue, hothers⟩ := hcalls ⟨5⟩ [⟨3⟩] rfl fun hpurely => by
    obtain ⟨signature, hsignature, hpure⟩ := hpurely ⟨0⟩ [⟨4⟩] none rfl
    cases hsignature
    cases hpure
  obtain ⟨rfl, -⟩ := List.cons.inj hvalue
  exact hothers other hne value hother

end Graph

end ShaderIR
