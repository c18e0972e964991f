import PathQuery.Schema.Basic

namespace PathQuery

namespace Schema.Builtin

def boolean : Name := Name.of "Boolean"

def listOf (name : Name) : TypeRef := .list (required name) false

def requiredListOf (name : Name) : TypeRef := .list (required name) true

def includeDeprecated : List InputDefinition :=
  [⟨Name.of "includeDeprecated", nullable boolean, some (.boolean false)⟩]

def typeKind : Name := Name.of "__TypeKind"

def fieldType : Name := Name.of "__Field"

def inputValue : Name := Name.of "__InputValue"

def enumValue : Name := Name.of "__EnumValue"

def directiveType : Name := Name.of "__Directive"

def directiveLocation : Name := Name.of "__DirectiveLocation"

def name : FieldDefinition := ⟨nameField, required string, []⟩

def description : FieldDefinition := ⟨Name.of "description", nullable string, []⟩

def isDeprecated : FieldDefinition := ⟨Name.of "isDeprecated", required boolean, []⟩

def deprecationReason : FieldDefinition := ⟨Name.of "deprecationReason", nullable string, []⟩

def schemaFields : List FieldDefinition := [
  description,
  ⟨Name.of "types", requiredListOf typeType, []⟩,
  ⟨Name.of "queryType", required typeType, []⟩,
  ⟨Name.of "mutationType", nullable typeType, []⟩,
  ⟨Name.of "subscriptionType", nullable typeType, []⟩,
  ⟨Name.of "directives", requiredListOf directiveType, []⟩]

def typeFields : List FieldDefinition := [
  ⟨Name.of "kind", required typeKind, []⟩,
  ⟨nameField, nullable string, []⟩,
  description,
  ⟨Name.of "fields", listOf fieldType, includeDeprecated⟩,
  ⟨Name.of "interfaces", listOf typeType, []⟩,
  ⟨Name.of "possibleTypes", listOf typeType, []⟩,
  ⟨Name.of "enumValues", listOf enumValue, includeDeprecated⟩,
  ⟨Name.of "inputFields", listOf inputValue, includeDeprecated⟩,
  ⟨Name.of "ofType", nullable typeType, []⟩,
  ⟨Name.of "specifiedByURL", nullable string, []⟩]

def fieldFields : List FieldDefinition := [
  name,
  description,
  ⟨Name.of "args", requiredListOf inputValue, includeDeprecated⟩,
  ⟨Name.of "type", required typeType, []⟩,
  isDeprecated,
  deprecationReason]

def inputValueFields : List FieldDefinition := [
  name,
  description,
  ⟨Name.of "type", required typeType, []⟩,
  ⟨Name.of "defaultValue", nullable string, []⟩,
  isDeprecated,
  deprecationReason]

def enumValueFields : List FieldDefinition := [name, description, isDeprecated, deprecationReason]

def directiveFields : List FieldDefinition := [
  name,
  description,
  ⟨Name.of "locations", requiredListOf directiveLocation, []⟩,
  ⟨Name.of "args", requiredListOf inputValue, includeDeprecated⟩,
  ⟨Name.of "isRepeatable", required boolean, []⟩]

def types : List (Name × TypeDefinition) := [
  (Name.of "Int", .scalar),
  (Name.of "Float", .scalar),
  (string, .scalar),
  (boolean, .scalar),
  (Name.of "ID", .scalar),
  (schemaType, .object [] (fieldMap schemaFields)),
  (typeType, .object [] (fieldMap typeFields)),
  (typeKind, .enum),
  (fieldType, .object [] (fieldMap fieldFields)),
  (inputValue, .object [] (fieldMap inputValueFields)),
  (enumValue, .object [] (fieldMap enumValueFields)),
  (directiveType, .object [] (fieldMap directiveFields)),
  (directiveLocation, .enum)]

end Schema.Builtin

def Schema.withBuiltins (queryRoot? : Option Name) (types : List (Name × TypeDefinition)) :
    Schema :=
  ofTypes queryRoot? (Builtin.types ++ types)

end PathQuery
