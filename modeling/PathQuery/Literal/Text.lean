import PathQuery.Literal.Basic

namespace PathQuery

namespace Literal

def hexDigit (n : Nat) : Char := if n < 10 then Char.ofNat (48 + n) else Char.ofNat (87 + n)

def escaped (c : Char) : List Char :=
  if c = '"' then ['\\', '"']
  else if c = '\\' then ['\\', '\\']
  else if c = '\n' then ['\\', 'n']
  else if c = '\r' then ['\\', 'r']
  else if c = '\t' then ['\\', 't']
  else if c = '\x08' then ['\\', 'b']
  else if c = '\x0c' then ['\\', 'f']
  else if c.toNat < 32 then ['\\', 'u', '0', '0', hexDigit (c.toNat / 16), hexDigit (c.toNat % 16)]
  else [c]

def quoted (text : String) : String :=
  "\"" ++ String.ofList (text.toList.flatMap escaped) ++ "\""

def bracketed (opening closing : String) (parts : List String) : String :=
  opening ++ ",".intercalate parts ++ closing

mutual

def json : Literal → String
  | null => "null"
  | bool value => if value then "true" else "false"
  | number value => value.text
  | string text => quoted text
  | array items => bracketed "[" "]" (jsonItems items)
  | object members => bracketed "\x7b" "\x7d" (jsonMembers members)

def jsonItems : List Literal → List String
  | [] => []
  | item :: rest => item.json :: jsonItems rest

def jsonMembers : List (String × Literal) → List String
  | [] => []
  | (key, value) :: rest => (quoted key ++ ":" ++ value.json) :: jsonMembers rest

end

end Literal

end PathQuery
