namespace PathQuery

namespace Name

def isStart (c : Char) : Bool := c.isAlpha || c == '_'

def isPart (c : Char) : Bool := c.isAlphanum || c == '_'

def wellFormed : List Char → Bool
  | [] => false
  | c :: rest => isStart c && rest.all isPart

end Name

structure Name where
  text : String
  valid : Name.wellFormed text.toList = true
deriving DecidableEq

namespace Name

/-- A name given by its text in the source of this library. -/
def of (text : String) (valid : wellFormed text.toList = true := by decide) : Name := ⟨text, valid⟩

def chars (name : Name) : List Char := name.text.toList

def ofString? (text : String) : Option Name :=
  if valid : wellFormed text.toList = true then some ⟨text, valid⟩ else none

def ofChars? (chars : List Char) : Option Name := ofString? (String.ofList chars)

theorem text_injective {a b : Name} (same : a.text = b.text) : a = b := by
  cases a; cases b; cases same; rfl

theorem ofString?_text (name : Name) : ofString? name.text = some name := by
  simp [ofString?, name.valid]

theorem ofChars?_chars (name : Name) : ofChars? name.chars = some name := by
  simp [ofChars?, chars, ofString?_text]

theorem text_of_ofString? {text : String} {name : Name} (read : ofString? text = some name) :
    name.text = text := by
  unfold ofString? at read
  split at read
  · cases read; rfl
  · cases read

theorem chars_of_ofChars? {chars : List Char} {name : Name} (read : ofChars? chars = some name) :
    name.chars = chars := by
  simp [Name.chars, text_of_ofString? read]

instance : Ord Name := ⟨compareOn text⟩

instance : Std.TransOrd Name := inferInstanceAs (Std.TransCmp (compareOn text))

instance : Std.LawfulEqOrd Name where
  eq_of_compare same := text_injective (Std.LawfulEqOrd.eq_of_compare same)

def typename : Name := of "__typename"

instance : ToString Name := ⟨text⟩

end Name

end PathQuery
