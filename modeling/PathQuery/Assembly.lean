import PathQuery.Declarations
import PathQuery.Literal.Value
import PathQuery.Resolution
import PathQuery.Runs
import PathQuery.Sorted
import PathQuery.Spec.Basic

namespace PathQuery

structure Assembly where
  /-- The selections built for each parent that has not been turned into a field yet. -/
  waiting : ChainMap (List Selection)
  variableTable : Variables
  fragmentTable : Fragments

abbrev Assembler := StateT Assembly (Except CompileError)

structure Plan where
  view : SchemaView
  spec : Spec
  resolution : Resolution

namespace Assembly

def empty : Assembly := ⟨∅, ∅, ∅⟩

def declare (argument : Path) (definition : VariableDefinition) : Assembler Unit := do
  let assembly ← get
  let variableTable ← assembly.variableTable.declare argument definition
  set { assembly with variableTable }

def define (definition : FragmentDefinition) : Assembler Unit := do
  let assembly ← get
  let fragmentTable ← assembly.fragmentTable.define definition
  set { assembly with fragmentTable }

def take (parent : Chain) : Assembler (List Selection) := do
  let assembly ← get
  set { assembly with waiting := assembly.waiting.erase parent }
  return assembly.waiting.getD parent []

def leave (level : Nat) (parent : Chain) (selections : List Selection) : Assembler Unit := do
  let assembly ← get
  if assembly.waiting.contains parent then throw (.breach (.splitParent level))
  else set { assembly with waiting := assembly.waiting.insert parent selections }

end Assembly

namespace Plan

def explicitValue? (plan : Plan) (argument : Path) (type : TypeRef) :
    Except CompileError (Option Value) :=
  match plan.spec.defaultFor? argument with
  | none => .ok none
  | some literal =>
    ((literal.toValue plan.view (some type)).map some).mapError (.invalidKey argument)

def fallback (argument : Path) (input : InputDefinition) (explicit? : Option Value) :
    Except CompileError Value :=
  match explicit? <|> input.default? with
  | some value => .ok value
  | none =>
    if input.type.isList then .ok (.list [])
    else if input.type.isRequired then
      .error (.unboundArgument argument input.name input.type)
    else .ok .null

def argument (plan : Plan) (chain : Chain) (input : InputDefinition) :
    Assembler (Name × Value) := do
  let path := (Path.ofSelection chain).argumentPath input.name
  let explicit? ← plan.explicitValue? path input.type
  match plan.spec.variableFor? path with
  | some name => do
    Assembly.declare path ⟨name, input.type, explicit?⟩
    return (input.name, .var name)
  | none => do
    let value ← fallback path input explicit?
    return (input.name, value)

def argumentsInOrder (definition : FieldDefinition) : List InputDefinition :=
  sortBy InputDefinition.name definition.arguments

def orTypename (composite : Bool) (selections : List Selection) : List Selection :=
  if selections.isEmpty && composite then [.typename] else selections

def field (plan : Plan) (chain : Chain) : Assembler Selection :=
  match chain.getLast?, plan.resolution[chain]? with
  | some segment, some resolved => do
    let arguments ← (argumentsInOrder resolved.definition).mapM (plan.argument chain)
    let selections ← Assembly.take chain
    return .field segment.alias? segment.field arguments
      (orTypename resolved.composite?.isSome selections)
  | _, _ => throw (.breach (.unresolved chain))

def contextOf (chain : Chain) : Context := chain.getLast?.elim .plain Segment.context

def group (plan : Plan) (context : Context) (chains : List Chain) :
    Assembler (List Selection) := do
  let fields ← chains.mapM plan.field
  match context with
  | .plain => return fields
  | .inline type => return [.inline type fields]
  | .spread fragment type => do
    Assembly.define ⟨fragment, type, fields⟩
    return [.spread fragment]

def siblings (plan : Plan) (chains : List Chain) : Assembler (List Selection) := do
  let groups ← (runsBy contextOf chains).mapM fun run => plan.group run.1 run.2
  return groups.flatten

def parentOf? (chain : Chain) : Option Chain :=
  if chain.isEmpty then none else some chain.dropLast

def children (plan : Plan) (level : Nat) (parent? : Option Chain) (chains : List Chain) :
    Assembler Unit :=
  match parent? with
  | none => throw (.breach (.rootOnLevel level))
  | some parent => do
    let selections ← plan.siblings chains
    Assembly.leave level parent selections

def level (plan : Plan) (level : Nat × ChainSet) : Assembler Unit :=
  (runsBy parentOf? level.2.toList).forM fun run => plan.children level.1 run.1 run.2

end Plan

def Assembly.document (assembly : Assembly) : Except CompileError Document :=
  let others := assembly.waiting.erase []
  if others.isEmpty then
    .ok ⟨assembly.variableTable.definitions, Plan.orTypename true (assembly.waiting.getD [] []),
      assembly.fragmentTable.definitions⟩
  else .error (.breach (.leftOver (others.toList.map Prod.fst)))

end PathQuery
