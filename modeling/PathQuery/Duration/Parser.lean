import PathQuery.Duration.Basic

namespace PathQuery

/-- The characters with Unicode's property White_Space. -/
def isBlank (c : Char) : Bool :=
  let n := c.toNat
  (9 ≤ n && n ≤ 13) || n == 0x20 || n == 0x85 || n == 0xA0 || n == 0x1680 ||
    (0x2000 ≤ n && n ≤ 0x200A) || n == 0x2028 || n == 0x2029 || n == 0x202F || n == 0x205F ||
    n == 0x3000

namespace Duration

structure Part where
  whole : List Char
  fraction? : Option (List Char)
  unit : List Char
deriving DecidableEq

def inNumber (c : Char) : Bool := c.isDigit || isBlank c

def inUnit (c : Char) : Bool := c.isAlpha || c == 'µ'

def leadingDigits (chars : List Char) : List Char := (chars.takeWhile inNumber).filter Char.isDigit

def readUnit? (whole : List Char) (fraction? : Option (List Char)) (chars : List Char) :
    Option (Part × List Char) :=
  let unit := chars.takeWhile inUnit
  let rest := chars.dropWhile inUnit
  if !unit.isEmpty && rest.head?.all inNumber then some (⟨whole, fraction?, unit⟩, rest) else none

def readPart? (chars : List Char) : Option (Part × List Char) :=
  match chars.dropWhile inNumber with
  | '.' :: rest =>
    if (leadingDigits rest).isEmpty then none
    else readUnit? (leadingDigits chars) (some (leadingDigits rest)) (rest.dropWhile inNumber)
  | rest => readUnit? (leadingDigits chars) none rest

theorem length_dropWhile_le (p : Char → Bool) (chars : List Char) :
    (chars.dropWhile p).length ≤ chars.length :=
  (List.dropWhile_sublist p).length_le

theorem length_of_readUnit? {whole : List Char} {fraction? : Option (List Char)}
    {chars rest : List Char} {part : Part}
    (read : readUnit? whole fraction? chars = some (part, rest)) : rest.length < chars.length := by
  simp only [readUnit?, Option.ite_none_right_eq_some, Bool.and_eq_true, Bool.not_eq_true',
    Option.some.injEq, Prod.mk.injEq] at read
  obtain ⟨⟨started, _⟩, _, rfl⟩ := read
  have whole := congrArg List.length (List.takeWhile_append_dropWhile (p := inUnit) (l := chars))
  have := List.length_pos_iff.2 (List.isEmpty_eq_false_iff.1 started)
  simp only [List.length_append] at whole
  omega

theorem length_of_readPart? {chars rest : List Char} {part : Part}
    (read : readPart? chars = some (part, rest)) : rest.length < chars.length := by
  have number := length_dropWhile_le inNumber chars
  unfold readPart? at read
  split at read
  · rename_i after eq
    split at read
    · cases read
    · have unit := length_of_readUnit? read
      have fraction := length_dropWhile_le inNumber after
      simp only [eq, List.length_cons] at number
      omega
  · have unit := length_of_readUnit? read
    omega

def readParts? (chars : List Char) : Option (List Part) :=
  match _trimmed : chars.dropWhile isBlank with
  | [] => some []
  | c :: rest =>
    if c.isDigit then
      match _read : readPart? (c :: rest) with
      | none => none
      | some (part, after) => (readParts? after).map (part :: ·)
    else none
termination_by chars.length
decreasing_by
  have := length_of_readPart? _read
  have := length_dropWhile_le isBlank chars
  simp only [_trimmed] at this
  omega

def count? (n : Nat) : Option Nat := if n < countLimit then some n else none

def ofDigits? (digits : List Char) : Option Nat := count? (Nat.ofDigitChars 10 digits 0)

def plusCount? (duration : Duration) (fine : Bool) (count : Nat) : Option Duration :=
  if fine then duration.plus? 0 count else duration.plus? count 0

def unitCount (fine : Bool) (unit : TimeUnit) : Nat :=
  if fine then unit.size else unit.size / nanosPerSecond

def plusWhole? (duration : Duration) (unit : TimeUnit) (n : Nat) : Option Duration := do
  let count ← count? (n * unitCount unit.isFine unit)
  duration.plusCount? unit.isFine count

/-- Adds so many of `scale` parts of a unit, which has to come out even. -/
def plusFraction? (duration : Duration) (unit : TimeUnit) (n scale : Nat) : Option Duration := do
  let count ← count? (n * unitCount unit.splitsFine unit)
  if unit ≠ .nanosecond ∧ count % scale = 0 then
    duration.plusCount? unit.splitsFine (count / scale)
  else none

def plusPart? (duration : Duration) (part : Part) : Option Duration := do
  let unit ← TimeUnit.ofText? (String.ofList part.unit)
  let n ← ofDigits? part.whole
  let whole ← duration.plusWhole? unit n
  match part.fraction? with
  | none => some whole
  | some digits => do
    let scale ← count? (Nat.pow 10 digits.length)
    let n ← ofDigits? digits
    whole.plusFraction? unit n scale

def ofText? (text : String) : Option Duration :=
  if text = "0" then some zero
  else do
    let parts ← readParts? text.toList
    if parts.isEmpty then none else parts.foldlM plusPart? zero

end Duration

end PathQuery
