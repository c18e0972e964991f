import PathQuery.Document.Value
import PathQuery.Literal.Basic
import PathQuery.Schema.View

namespace PathQuery

namespace Literal

def ofNumber (number : Number) : Value :=
  if number.isInteger then .int number.text else .float number.text

/-- An enum value where the type asks for one and the text is a name. -/
def ofString (view : SchemaView) (type? : Option TypeRef) (text : String) : Value :=
  if type?.any fun type => view.isEnum type.innerName then
    (Name.ofString? text).elim (.string text) .enum
  else .string text

def memberType? (view : SchemaView) (type? : Option TypeRef) (name : Name) : Option TypeRef :=
  type?.bind fun type => view.inputFieldType? type.innerName name

/-- What a member comes to; its key is looked at before its value. -/
def toMember (key : String) (convert : Name → Except String Value) : Except String (Name × Value) :=
  match Name.ofString? key with
  | none => .error key
  | some name => (name, ·) <$> convert name

mutual

def toValue (view : SchemaView) (type? : Option TypeRef) : Literal → Except String Value
  | null => .ok .null
  | bool value => .ok (.boolean value)
  | number value => .ok (ofNumber value)
  | string text => .ok (ofString view type? text)
  | array items => .list <$> toItems view (type?.bind TypeRef.item?) items
  | object members => .object <$> (byKey (toMembers view type? members)).mapM Prod.snd

def toItems (view : SchemaView) (type? : Option TypeRef) : List Literal → Except String (List Value)
  | [] => .ok []
  | item :: rest => do
    let value ← item.toValue view type?
    let values ← toItems view type? rest
    return value :: values

def toMembers (view : SchemaView) (type? : Option TypeRef) :
    List (String × Literal) → List (String × Except String (Name × Value))
  | [] => []
  | (key, literal) :: rest =>
    (key, toMember key fun name => literal.toValue view (memberType? view type? name)) ::
      toMembers view type? rest

end

end Literal

end PathQuery
