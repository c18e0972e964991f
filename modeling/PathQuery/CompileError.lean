import PathQuery.Path.Text
import PathQuery.Schema.TypeRef

namespace PathQuery

inductive Breach where
  | rootOnLevel (level : Nat)
  | missingParent (selection parent : Chain)
  | unresolved (selection : Chain)
  | splitParent (level : Nat)
  | leftOver (parents : List Chain)
deriving DecidableEq

def Chain.text (chain : Chain) : String := (Path.ofSelection chain).text

def Breach.message : Breach → String
  | rootOnLevel level => s!"Level {level} contains the root path"
  | missingParent selection parent =>
    s!"Path `{Chain.text selection}` was indexed without its parent `{Chain.text parent}`"
  | unresolved selection => s!"Path `{Chain.text selection}` was not resolved before assembly"
  | splitParent level => s!"Selections of a parent were split across chunks at level {level}"
  | leftOver parents =>
    s!"Selections were assembled for paths that are not part of the tree: {parents.map Chain.text}"

inductive CompileError where
  | unresolvedField (selection : Chain) (type field : Name)
  | unboundArgument (argument : Path) (name : Name) (type : TypeRef)
  | variableConflict (name : Name) (existing conflicting : TypeRef)
  | fragmentConflict (fragment : Name)
  | invalidKey (argument : Path) (key : String)
  | noQueryRoot
  | breach (what : Breach)
deriving DecidableEq

namespace CompileError

def unboundReason : String := "no variable, explicit value or schema default is available"

def invalidKeyReason (key : String) : String := s!"object key `{key}` is not a valid GraphQL name"

def message : CompileError → String
  | unresolvedField selection type field =>
    s!"Cannot resolve field `{field}` of path `{Chain.text selection}` on type `{type}`"
  | unboundArgument argument name type =>
    s!"Cannot bind required argument `{name}: {type}` at `{argument}`: {unboundReason}"
  | variableConflict name existing conflicting =>
    s!"Variable `${name}` is declared both as `{existing}` and as `{conflicting}`"
  | fragmentConflict fragment =>
    s!"Fragment `{fragment}` is defined more than once with different selections"
  | invalidKey argument key => s!"Invalid literal for `{argument}`: {invalidKeyReason key}"
  | noQueryRoot => "Schema has no query root type"
  | breach what => what.message

def code : CompileError → String
  | unresolvedField _ _ _ => "SCHEMA_RESOLUTION"
  | unboundArgument _ _ _ => "ARGUMENT_BINDING"
  | variableConflict _ _ _ => "VARIABLE_REDEFINITION"
  | fragmentConflict _ => "FRAGMENT_REDEFINITION"
  | invalidKey _ _ => "INVALID_LITERAL"
  | noQueryRoot | breach _ => "STRUCTURAL_INVARIANT_VIOLATION"

end CompileError

end PathQuery
