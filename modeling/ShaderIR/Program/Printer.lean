import ShaderIR.Program.Typing

/-!
Texts of programs. A statement takes one line, and the body of a control statement is indented by
four more blanks. Operators with a symbol stand between their operands and are put in parentheses
where they are themselves an operand or the base of a dereference; all other operators are written
like calls.
-/

set_option autoImplicit false

namespace ShaderIR

/-- The operands of a texture operation, each with what is written before it. -/
def TextureOperands.labelled {α : Type} (operands : TextureOperands α) : List (String × α) :=
  let lod : List (String × α) :=
    match operands.lod with
    | .implicit => []
    | .bias amount => [("bias: ", amount)]
    | .level value => [("lod: ", value)]
    | .gradient dx dy => [("dpdx: ", dx), ("dpdy: ", dy)]
    | .sample index => [("sample: ", index)]
  ("", operands.sampler) :: (operands.coordinate.toList.map ("", ·) ++
    operands.projector.toList.map ("proj: ", ·) ++ operands.comparator.toList.map ("cmp: ", ·) ++
    operands.offset.toList.map ("offset: ", ·) ++ lod ++
    operands.samplerState.toList.map ("state: ", ·))

/-- Labels stand before the operands in canonical order. -/
theorem TextureOperands.labelled_map_snd {α : Type} (operands : TextureOperands α) :
    operands.labelled.map Prod.snd = operands.toList := by
  cases hlod : operands.lod <;>
    simp [labelled, toList, Lod.toList, hlod, Function.comp_def]

/-- The letters of the lanes in a write mask. -/
def maskText (mask : UInt8) : String :=
  String.ofList (((List.finRange 4).filter fun lane =>
    mask &&& 1 <<< UInt8.ofNat lane.val != 0).map Swizzle.letter)

/-- What is written before an argument of a call. -/
def ParamMode.label : ParamMode → String
  | .input => ""
  | .output => "out "
  | .inout => "inout "

namespace Program

/-- The blanks before a statement at some depth of nesting. -/
def indentation (depth : Nat) : String :=
  String.ofList (List.replicate (4 * depth) ' ')

/-- A body in braces, whose closing brace stands at the given depth. -/
def braced (depth : Nat) (lines : List String) : String :=
  let inner := if lines.isEmpty then "" else "\n" ++ "\n".intercalate lines
  "\x7b" ++ inner ++ "\n" ++ indentation depth ++ "\x7d"

/-- The text of an expression whose operands nest at most so deep; a `nested` one is an operand. -/
def expressionWithin (program : Program) : (steps : Nat) → (nested : Bool) → NodeId →
    Except Crash String
  | 0, _, _ => .error .endless
  | steps + 1, nested, id => do
    match ← program.node id with
    | .constant value => return value.text
    | .variable read => return (← program.variableOf read).name
    | .index base place => do
      let base ← program.expressionWithin steps true base
      let place ← program.expressionWithin steps false place
      return base ++ "[" ++ place ++ "]"
    | .field record number => do
      let inner ← program.expressionWithin steps true record
      match (← program.typeOf record).field? number with
      | some (name, _) => return inner ++ "." ++ name
      | none => return inner ++ "." ++ toString number
    | .swizzle value mask => do
      let inner ← program.expressionWithin steps true value
      return inner ++ "." ++ mask.text
    | .apply op operands _ =>
      match op.symbol?, operands with
      | some symbol, [left, right] => do
        let left ← program.expressionWithin steps true left
        let right ← program.expressionWithin steps true right
        let text := left ++ " " ++ symbol ++ " " ++ right
        return if nested then "(" ++ text ++ ")" else text
      | _, _ => do
        let texts ← operands.mapM (program.expressionWithin steps false)
        return op.name ++ "(" ++ ", ".intercalate texts ++ ")"
    | .texture op channel operands _ => do
      let texts ← operands.labelled.mapM fun (label, operand) => do
        return label ++ (← program.expressionWithin steps false operand)
      let channel := match channel with
        | some channel => "[" ++ toString channel.toNat ++ "]"
        | none => ""
      return op.name ++ channel ++ "(" ++ ", ".intercalate texts ++ ")"
    | _ => return "<statement " ++ toString id ++ ">"

/-- The text of an expression. -/
def expressionText (program : Program) (nested : Bool) (id : NodeId) : Except Crash String :=
  program.expressionWithin program.chainBound nested id

/-- The text of a call. -/
def callText (program : Program) (callee : SignatureId) (arguments : List NodeId)
    (result : Option NodeId) : Except Crash String := do
  let signature ← program.signature callee
  let target ← match result with
    | some place => do pure ((← program.expressionText true place) ++ " = ")
    | none => pure ""
  let texts ← arguments.zipIdx.mapM fun (argument, index) => do
    let label := (signature.params[index]?.map (·.mode.label)).getD ""
    return label ++ (← program.expressionText false argument)
  return target ++ signature.name ++ "(" ++ ", ".intercalate texts ++ ")"

/-- The text of a statement whose bodies nest at most so deep, indented by its depth. -/
def statementWithin (program : Program) : (steps : Nat) → (depth : Nat) → NodeId →
    Except Crash String
  | 0, _, _ => .error .endless
  | steps + 1, depth, id => do
    let line ← match ← program.node id with
      | .assign target value mask => do
        let target ← program.expressionText true target
        let value ← program.expressionText false value
        let lanes := if mask = 0 then "" else "." ++ maskText mask
        pure (target ++ lanes ++ " = " ++ value)
      | .call callee arguments result => program.callText callee arguments result
      | .branch condition thenBody elseBody => do
        let condition ← program.expressionText false condition
        let thenLines ← thenBody.mapM (program.statementWithin steps (depth + 1))
        let elseLines ← elseBody.mapM (program.statementWithin steps (depth + 1))
        let otherwise := if elseBody.isEmpty then "" else " else " ++ braced depth elseLines
        pure ("if (" ++ condition ++ ") " ++ braced depth thenLines ++ otherwise)
      | .loop body => do
        let lines ← body.mapM (program.statementWithin steps (depth + 1))
        pure ("loop " ++ braced depth lines)
      | .ret none => pure "return"
      | .ret (some value) => do
        pure ("return " ++ (← program.expressionText false value))
      | .discard none => pure "discard"
      | .discard (some condition) => do
        pure ("discard if (" ++ (← program.expressionText false condition) ++ ")")
      | _ => program.expressionText false id
    return indentation depth ++ line

/-- The text of a row of statements, one below the other. -/
def statementsText (program : Program) (statements : List NodeId) : Except Crash String := do
  let lines ← statements.mapM (program.statementWithin program.chainBound 0)
  return "\n".intercalate lines

/-- The text of one node, statement or expression. -/
def nodeText (program : Program) (id : NodeId) : Except Crash String := do
  if (← program.node id).isStatement then program.statementWithin program.chainBound 0 id
  else program.expressionText false id

/-- The text of the root statement list. -/
def text (program : Program) : Except Crash String :=
  program.statementsText program.body

end Program

end ShaderIR
