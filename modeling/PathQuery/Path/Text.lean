import PathQuery.Path.Basic

namespace PathQuery

def Context.chars : Context → List Char
  | .plain => []
  | .inline type => '[' :: type.chars ++ [']']
  | .spread fragment type => '[' :: fragment.chars ++ ':' :: type.chars ++ [']']

namespace Segment

def aliasChars (segment : Segment) : List Char :=
  segment.alias?.elim [] fun name => name.chars ++ [':']

def chars (segment : Segment) : List Char :=
  segment.context.chars ++ segment.aliasChars ++ segment.field.chars

def text (segment : Segment) : String := String.ofList segment.chars

end Segment

namespace Attachment

def chars (attachment : Attachment) : List Char :=
  attachment.name.chars ++ attachment.subPath.flatMap fun key => '.' :: key.chars

def text (attachment : Attachment) : String := String.ofList attachment.chars

end Attachment

def Target.chars : Target → List Char
  | .selection => []
  | .argument attachment => '?' :: attachment.chars
  | .directive attachment => '@' :: attachment.chars

namespace Path

def scheme : String := "gqlop"

def selectionChars : Chain → List Char
  | [] => ['/']
  | chain => chain.flatMap fun segment => '/' :: segment.chars

def chars (path : Path) : List Char := selectionChars path.selection ++ path.target.chars

def text (path : Path) : String := String.ofList path.chars

def fullText (path : Path) : String := scheme ++ ":" ++ path.text

instance : ToString Path := ⟨text⟩

end Path

end PathQuery
