import PathQuery.Path.Basic
import PathQuery.Literal.Basic

namespace PathQuery

abbrev Fingerprint := List Nat

namespace Fingerprint

def text (value : String) : Fingerprint :=
  (value.toList.flatMap String.utf8EncodeChar).map UInt8.toNat ++ [255]

def ofList {α : Type} (part : α → Fingerprint) (values : List α) : Fingerprint :=
  values.length :: values.flatMap part

def ofOption {α : Type} (part : α → Fingerprint) : Option α → Fingerprint
  | none => [0]
  | some value => 1 :: part value

end Fingerprint

def Name.fingerprint (name : Name) : Fingerprint := Fingerprint.text name.text

def Segment.fingerprint (segment : Segment) : Fingerprint :=
  match segment.context, segment.alias? with
  | .plain, none => 0 :: segment.field.fingerprint
  | .plain, some aliasName => 1 :: aliasName.fingerprint ++ segment.field.fingerprint
  | .inline type, alias? =>
    2 :: type.fingerprint ++ Fingerprint.ofOption Name.fingerprint alias? ++
      segment.field.fingerprint
  | .spread fragment type, alias? =>
    3 :: fragment.fingerprint ++ type.fingerprint ++ Fingerprint.ofOption Name.fingerprint alias? ++
      segment.field.fingerprint

def Attachment.fingerprint (attachment : Attachment) : Fingerprint :=
  attachment.name.fingerprint ++ Fingerprint.ofList Name.fingerprint attachment.subPath

def Path.fingerprint (path : Path) : Fingerprint :=
  Fingerprint.ofList Segment.fingerprint path.selection ++
    Fingerprint.ofOption Attachment.fingerprint path.target.argument? ++
    Fingerprint.ofOption Attachment.fingerprint path.target.directive?

namespace Literal

/-- A literal whose members have been put in order by `canonical`. -/
def orderedFingerprint : Literal → Fingerprint
  | null => [0]
  | bool value => [1, value.toNat]
  | number value => 2 :: Fingerprint.text value.text
  | string text => 3 :: Fingerprint.text text
  | array items => 4 :: items.length :: itemsFingerprint items
  | object members => 5 :: members.length :: membersFingerprint members
where
  itemsFingerprint : List Literal → Fingerprint
    | [] => []
    | item :: rest => item.orderedFingerprint ++ itemsFingerprint rest
  membersFingerprint : List (String × Literal) → Fingerprint
    | [] => []
    | (key, value) :: rest =>
      Fingerprint.text key ++ value.orderedFingerprint ++ membersFingerprint rest

def fingerprint (literal : Literal) : Fingerprint := literal.canonical.orderedFingerprint

end Literal

end PathQuery
