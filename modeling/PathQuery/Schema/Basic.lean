import PathQuery.Document.Value
import PathQuery.Schema.TypeRef
import Std.Data.ExtTreeMap
import Std.Data.ExtTreeSet

namespace PathQuery

abbrev NameSet := Std.ExtTreeSet Name compare

abbrev NameMap (α : Type) := Std.ExtTreeMap Name α compare

structure InputDefinition where
  name : Name
  type : TypeRef
  default? : Option Value
deriving DecidableEq

structure FieldDefinition where
  name : Name
  type : TypeRef
  arguments : List InputDefinition
deriving DecidableEq

inductive TypeDefinition where
  | scalar
  | enum
  | object (interfaces : List Name) (fields : NameMap FieldDefinition)
  | interface (fields : NameMap FieldDefinition)
  | union (members : List Name)
  | input (fields : NameMap InputDefinition)

namespace TypeDefinition

def fields : TypeDefinition → NameMap FieldDefinition
  | object _ fields | interface fields => fields
  | scalar | enum | union _ | input _ => ∅

def isComposite : TypeDefinition → Bool
  | object _ _ | interface _ | union _ => true
  | scalar | enum | input _ => false

end TypeDefinition

structure Schema where
  queryRoot? : Option Name
  types : NameMap TypeDefinition

namespace Schema

def fieldMap (fields : List FieldDefinition) : NameMap FieldDefinition :=
  Std.ExtTreeMap.ofList (fields.map fun field => (field.name, field)) compare

def inputMap (fields : List InputDefinition) : NameMap InputDefinition :=
  Std.ExtTreeMap.ofList (fields.map fun field => (field.name, field)) compare

def ofTypes (queryRoot? : Option Name) (types : List (Name × TypeDefinition)) : Schema :=
  ⟨queryRoot?, Std.ExtTreeMap.ofList types compare⟩

namespace Builtin

def string : Name := Name.of "String"

def schemaType : Name := Name.of "__Schema"

def typeType : Name := Name.of "__Type"

def nameField : Name := Name.of "name"

def nullable (name : Name) : TypeRef := .named name false

def required (name : Name) : TypeRef := .named name true

end Builtin

def typename : FieldDefinition := ⟨.typename, Builtin.required Builtin.string, []⟩

def rootFields : NameMap FieldDefinition := fieldMap [
  ⟨Name.of "__schema", Builtin.required Builtin.schemaType, []⟩,
  ⟨Name.of "__type", Builtin.nullable Builtin.typeType,
    [⟨Builtin.nameField, Builtin.required Builtin.string, none⟩]⟩]

/-- A declared field, or else `__typename` on a composite type, or else a field of introspection on
the query root; the type has to exist. -/
def field? (schema : Schema) (type field : Name) : Option FieldDefinition := do
  let definition ← schema.types[type]?
  definition.fields[field]?
    <|> (if definition.isComposite ∧ field = typename.name then some typename else none)
    <|> (if schema.queryRoot? = some type then rootFields[field]? else none)

def isObjectOf (interface : Name) : TypeDefinition → Bool
  | .object interfaces _ => interfaces.contains interface
  | _ => false

def implementations (schema : Schema) (type : Name) : NameSet :=
  match schema.types[type]? with
  | some (.interface _) =>
    Std.ExtTreeSet.ofList ((schema.types.toList.filter fun entry =>
      isObjectOf type entry.2).map Prod.fst) compare
  | some (.union members) => Std.ExtTreeSet.ofList members compare
  | _ => ∅

def compositeType? (schema : Schema) (type : TypeRef) : Option Name :=
  schema.types[type.innerName]?.bind fun definition =>
    if definition.isComposite then some type.innerName else none

def isEnum (schema : Schema) (type : Name) : Bool :=
  schema.types[type]? matches some .enum

def inputFieldType? (schema : Schema) (input field : Name) : Option TypeRef :=
  match schema.types[input]? with
  | some (.input fields) => fields[field]?.map InputDefinition.type
  | _ => none

end Schema

end PathQuery
