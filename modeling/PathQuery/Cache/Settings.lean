import PathQuery.Duration.Parser
import PathQuery.Duration.Text
import PathQuery.Literal.Text

namespace PathQuery

structure Settings where
  limit : Nat
  ttl? : Option Duration
  limit_positive : 1 ≤ limit := by decide
  limit_bounded : limit < countLimit := by decide
deriving DecidableEq

namespace Settings

def default : Settings where
  limit := 512
  ttl? := none

def readLimit? : Literal → Option Nat
  | .number number => number.toNat?
  | _ => none

def readTtl? : Literal → Option (Option Duration)
  | .null => some none
  | .string text => (Duration.ofText? text).map some
  | _ => none

def ofParts? (limit? ttl? : Option Literal) : Option Settings := do
  let limit ← limit?.elim (some default.limit) readLimit?
  let ttl? ← ttl?.elim (some default.ttl?) readTtl?
  if valid : 1 ≤ limit ∧ limit < countLimit then some ⟨limit, ttl?, valid.1, valid.2⟩ else none

def isMember (key : String) : Bool := key == "limit" || key == "ttl"

/-- Reads an object with the members `limit` and `ttl`, or an array of the two in this order. -/
def ofLiteral? : Literal → Option Settings
  | .object members =>
    if members.all fun member => isMember member.1 then
      ofParts? ((byKey members).lookup "limit") ((byKey members).lookup "ttl")
    else none
  | .array [] => ofParts? none none
  | .array [limit] => ofParts? (some limit) none
  | .array [limit, ttl] => ofParts? (some limit) (some ttl)
  | _ => none

def toLiteral (settings : Settings) : Literal := .object [
  ("limit", .number (.ofNat settings.limit)),
  ("ttl", settings.ttl?.elim .null fun ttl => .string ttl.text)]

def text (settings : Settings) : String := settings.toLiteral.json

end Settings

end PathQuery
