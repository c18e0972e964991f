import PathQuery.Name

namespace PathQuery

inductive TypeRef where
  | named (name : Name) (required : Bool)
  | list (item : TypeRef) (required : Bool)
deriving DecidableEq

namespace TypeRef

def innerName : TypeRef → Name
  | named name _ => name
  | list item _ => item.innerName

def isRequired : TypeRef → Bool
  | named _ required | list _ required => required

def item? : TypeRef → Option TypeRef
  | named _ _ => none
  | list item _ => some item

def isList (type : TypeRef) : Bool := type.item?.isSome

def mark (required : Bool) : List Char := if required then ['!'] else []

def chars : TypeRef → List Char
  | named name required => name.chars ++ mark required
  | list item required => '[' :: item.chars ++ ']' :: mark required

def text (type : TypeRef) : String := String.ofList type.chars

instance : ToString TypeRef := ⟨text⟩

def readMark (chars : List Char) : Bool × List Char :=
  if chars.getLast? = some '!' then (true, chars.dropLast) else (false, chars)

theorem length_readMark (chars : List Char) : (readMark chars).2.length ≤ chars.length := by
  unfold readMark
  split <;> simp

def ofChars? (chars : List Char) : Option TypeRef :=
  match _marked : readMark chars with
  | (required, '[' :: rest) =>
    if rest.getLast? = some ']' then (ofChars? rest.dropLast).map (list · required) else none
  | (required, rest) => (Name.ofChars? rest).map (named · required)
termination_by chars.length
decreasing_by
  have := length_readMark chars
  simp [_marked] at this
  simp
  omega

def ofText? (text : String) : Option TypeRef := ofChars? text.toList

end TypeRef

end PathQuery
