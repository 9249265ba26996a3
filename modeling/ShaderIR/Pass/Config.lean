import ShaderIR.Node

/-!
Options of the optimizing passes: which kinds of nodes take part in sharing, and how deep statements
and expressions may nest.
-/

set_option autoImplicit false

namespace ShaderIR

/-- A set of node kinds whose repeated evaluations may be shared, with one bit for a kind. -/
structure NodeKinds where
  bits : UInt8
deriving DecidableEq, Repr, Inhabited

namespace NodeKinds

/-- The set of no kind. -/
def none : NodeKinds :=
  ⟨0⟩

def texture : NodeKinds :=
  ⟨1⟩

/-- Calls that leave their arguments alone; a shared call runs once. -/
def call : NodeKinds :=
  ⟨2⟩

def expression : NodeKinds :=
  ⟨4⟩

def swizzle : NodeKinds :=
  ⟨8⟩

/-- Indices and fields. -/
def deref : NodeKinds :=
  ⟨16⟩

/-- The kinds in either of two sets. -/
def union (left right : NodeKinds) : NodeKinds :=
  ⟨left.bits ||| right.bits⟩

instance : OrOp NodeKinds :=
  ⟨union⟩

/-- Every kind that can be shared. -/
def all : NodeKinds :=
  texture ||| call ||| expression ||| swizzle ||| deref

/-- The set of a kind alone, which is empty for the many kinds that cannot be shared. -/
def bit : NodeKind → NodeKinds
  | .texture => texture
  | .call => call
  | .expression => expression
  | .swizzle => swizzle
  | .deref => deref
  | .constant | .variable | .assign | .branch | .loop | .ret | .discard => none

/-- Whether a kind is in the set; a kind without a bit is in no set at all. -/
def contains (kinds : NodeKinds) (kind : NodeKind) : Bool :=
  (bit kind).bits != 0 && kinds.bits &&& (bit kind).bits == (bit kind).bits

/-- The names of the kinds in a set. -/
def names (kinds : NodeKinds) : List String :=
  [(texture, "TEXTURE"), (call, "CALL"), (expression, "EXPRESSION"), (swizzle, "SWIZZLE"),
    (deref, "DEREF")].filterMap
    fun (single, name) => if kinds.bits &&& single.bits != 0 then some name else Option.none

/-- The set that a name stands for. -/
def named? : String → Option NodeKinds
  | "NONE" => some none
  | "TEXTURE" => some texture
  | "CALL" => some call
  | "EXPRESSION" => some expression
  | "SWIZZLE" => some swizzle
  | "DEREF" => some deref
  | "ALL" => some all
  | _ => Option.none

/-- The text of a set: its quoted names in braces. -/
def text (kinds : NodeKinds) : String :=
  "\x7b" ++ ", ".intercalate (kinds.names.map fun name => "\"" ++ name ++ "\"") ++ "\x7d"

/-- The set that is shared unless something else is asked for. -/
def standard : NodeKinds :=
  texture

end NodeKinds

/-- Options of a pass. -/
structure Config where
  /-- The kinds of nodes whose repeated evaluations get shared. -/
  eligible : NodeKinds := .standard
  /-- How deep statements and expressions may nest before a pass gives up. -/
  maxDepth : Nat := 256
deriving DecidableEq, Repr, Inhabited

/-- The text of a configuration. -/
def Config.text (config : Config) : String :=
  "Config \x7b eligible: " ++ config.eligible.text ++ ", max_depth: " ++ toString config.maxDepth ++
    " \x7d"

end ShaderIR
