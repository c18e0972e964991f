import PathQuery.Schema.Basic

namespace PathQuery

structure SchemaView where
  queryRoot? : Option Name
  field? : Name → Name → Option FieldDefinition
  implementations : Name → NameSet
  compositeType? : TypeRef → Option Name
  isEnum : Name → Bool
  inputFieldType? : Name → Name → Option TypeRef

namespace SchemaView

/-- The same schema without knowledge of enums and input objects. -/
def untyped (view : SchemaView) : SchemaView :=
  { view with isEnum := fun _ => false, inputFieldType? := fun _ _ => none }

end SchemaView

def Schema.view (schema : Schema) : SchemaView where
  queryRoot? := schema.queryRoot?
  field? := schema.field?
  implementations := schema.implementations
  compositeType? := schema.compositeType?
  isEnum := schema.isEnum
  inputFieldType? := schema.inputFieldType?

end PathQuery
