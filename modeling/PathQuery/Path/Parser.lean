import PathQuery.Path.Text

namespace PathQuery

inductive PathError where
  | missingLeadingSlash (text : String)
  | emptySegment (path : String)
  | unterminatedTypeCondition (segment : String)
  | invalidName (text : String)
deriving DecidableEq

def PathError.message : PathError → String
  | missingLeadingSlash text => s!"operation path `{text}` must start with `/`"
  | emptySegment path => s!"operation path `{path}` has an empty segment"
  | unterminatedTypeCondition segment =>
    s!"segment `{segment}` has an unterminated type condition"
  | invalidName text => s!"`{text}` is not a valid GraphQL name"

namespace Path

def cutAt? (separator : Char) : List Char → Option (List Char × List Char)
  | [] => none
  | c :: rest =>
    if c = separator then some ([], rest)
    else (cutAt? separator rest).map fun (before, after) => (c :: before, after)

def pieces (separator : Char) : List Char → List (List Char)
  | [] => [[]]
  | c :: rest =>
    if c = separator then [] :: pieces separator rest
    else match pieces separator rest with
      | [] => [[c]]
      | piece :: more => (c :: piece) :: more

def readName (chars : List Char) : Except PathError Name :=
  match Name.ofChars? chars with
  | some name => .ok name
  | none => .error (.invalidName (String.ofList chars))

def readField (chars : List Char) : Except PathError (Option Name × Name) :=
  match cutAt? ':' chars with
  | some (aliasChars, fieldChars) => do
    let aliasName ← readName aliasChars
    let field ← readName fieldChars
    return (some aliasName, field)
  | none => do
    let field ← readName chars
    return (none, field)

def readContext (chars : List Char) : Except PathError Context :=
  match cutAt? ':' chars with
  | some (fragmentChars, typeChars) => do
    let fragment ← readName fragmentChars
    let type ← readName typeChars
    return .spread fragment type
  | none => do
    let type ← readName chars
    return .inline type

/-- Reads a segment; in a bracketed one the field is read before the type condition. -/
def readSegment : List Char → Except PathError Segment
  | '[' :: rest =>
    match cutAt? ']' rest with
    | none => .error (.unterminatedTypeCondition (String.ofList ('[' :: rest)))
    | some (condition, fieldChars) => do
      let (alias?, field) ← readField fieldChars
      let context ← readContext condition
      return ⟨context, field, alias?⟩
  | chars => do
    let (alias?, field) ← readField chars
    return ⟨.plain, field, alias?⟩

def readAttachment (chars : List Char) : Except PathError Attachment :=
  match pieces '.' chars with
  | [] => .error (.invalidName "")
  | first :: keys => do
    let name ← readName first
    let subPath ← keys.mapM readName
    return ⟨name, subPath⟩

def readSelection (whole : String) (chars : List Char) : Except PathError Chain :=
  if chars.isEmpty then .ok []
  else (pieces '/' chars).mapM fun piece =>
    if piece.isEmpty then .error (.emptySegment whole) else readSegment piece

def readTarget : List Char → Except PathError Target
  | '?' :: rest => do
    let attachment ← readAttachment rest
    return .argument attachment
  | '@' :: rest => do
    let attachment ← readAttachment rest
    return .directive attachment
  | _ => .ok .selection

def opensTarget (c : Char) : Bool := c == '?' || c == '@'

def withoutScheme (chars : List Char) : List Char :=
  let opening := scheme.toList ++ [':']
  if opening.isPrefixOf chars then chars.drop opening.length else chars

def parse (text : String) : Except PathError Path :=
  match withoutScheme text.toList with
  | '/' :: chars => do
    let selection ← readSelection text (chars.takeWhile (!opensTarget ·))
    let target ← readTarget (chars.dropWhile (!opensTarget ·))
    return ⟨selection, target⟩
  | _ => .error (.missingLeadingSlash text)

end Path

end PathQuery
