namespace PathQuery

namespace Number

def isDigits (chars : List Char) : Bool := !chars.isEmpty && chars.all Char.isDigit

def isWhole (chars : List Char) : Bool :=
  isDigits chars && (chars == ['0'] || chars.head? != some '0')

end Number

structure Number where
  negative : Bool
  whole : List Char
  fraction? : Option (List Char)
  /-- The sign of the exponent, true for a minus, and its digits. -/
  exponent? : Option (Bool × List Char)
  whole_valid : Number.isWhole whole = true
  fraction_valid : fraction?.all Number.isDigits = true
  exponent_valid : (exponent?.map Prod.snd).all Number.isDigits = true
deriving DecidableEq

namespace Number

def signChars (negative : Bool) : List Char := if negative then ['-'] else []

def fractionChars (fraction? : Option (List Char)) : List Char := fraction?.elim [] ('.' :: ·)

def exponentChars (exponent? : Option (Bool × List Char)) : List Char :=
  exponent?.elim [] fun (negative, digits) => 'e' :: (if negative then '-' else '+') :: digits

def chars (number : Number) : List Char :=
  signChars number.negative ++ number.whole ++ fractionChars number.fraction? ++
    exponentChars number.exponent?

def text (number : Number) : String := String.ofList number.chars

def isInteger (number : Number) : Bool := number.fraction?.isNone && number.exponent?.isNone

def readSign : List Char → Bool × List Char
  | '-' :: rest => (true, rest)
  | chars => (false, chars)

def readFraction : List Char → Option (List Char) × List Char
  | '.' :: rest => (some (rest.takeWhile Char.isDigit), rest.dropWhile Char.isDigit)
  | chars => (none, chars)

def readExponentSign : List Char → Bool × List Char
  | '-' :: rest => (true, rest)
  | '+' :: rest => (false, rest)
  | chars => (false, chars)

def readExponent? : List Char → Option (Option (Bool × List Char))
  | [] => some none
  | c :: rest => if c = 'e' ∨ c = 'E' then some (some (readExponentSign rest)) else none

def ofChars? (chars : List Char) : Option Number := do
  let (negative, unsigned) := readSign chars
  let whole := unsigned.takeWhile Char.isDigit
  let (fraction?, tail) := readFraction (unsigned.dropWhile Char.isDigit)
  let exponent? ← readExponent? tail
  if valid : isWhole whole = true ∧ fraction?.all isDigits = true ∧
      (exponent?.map Prod.snd).all isDigits = true then
    some ⟨negative, whole, fraction?, exponent?, valid.1, valid.2.1, valid.2.2⟩
  else none

def ofText? (text : String) : Option Number := ofChars? text.toList

theorem head?_toDigits_ne_zero (n : Nat) (positive : 0 < n) :
    (Nat.toDigits 10 n).head? ≠ some '0' := by
  induction n using Nat.strongRecOn with
  | _ n ih =>
    by_cases small : n < 10
    · rw [Nat.toDigits_of_lt_base small]
      have digit : n = 1 ∨ n = 2 ∨ n = 3 ∨ n = 4 ∨ n = 5 ∨ n = 6 ∨ n = 7 ∨ n = 8 ∨ n = 9 := by omega
      rcases digit with rfl | rfl | rfl | rfl | rfl | rfl | rfl | rfl | rfl <;> decide
    · rw [Nat.toDigits_of_base_le (by decide) (by omega)]
      rw [List.head?_append, Option.or_of_isSome (by simp [Nat.toDigits_ne_nil])]
      exact ih (n / 10) (by omega) (by omega)

theorem isDigits_toDigits (n : Nat) : isDigits (Nat.toDigits 10 n) = true := by
  simp only [isDigits, Bool.and_eq_true, Bool.not_eq_true', List.isEmpty_eq_false_iff, ne_eq,
    Nat.toDigits_ne_nil, not_false_eq_true, List.all_eq_true, true_and]
  exact fun c member => Nat.isDigit_of_mem_toDigits (by decide) (by decide) member

theorem isWhole_toDigits (n : Nat) : isWhole (Nat.toDigits 10 n) = true := by
  cases n with
  | zero => decide
  | succ n => simp [isWhole, isDigits_toDigits, head?_toDigits_ne_zero]

def ofNat (n : Nat) : Number :=
  ⟨false, Nat.toDigits 10 n, none, none, isWhole_toDigits n, rfl, rfl⟩

/-- The number as a natural one, if it is spelled without a sign, a fraction and an exponent. -/
def toNat? (number : Number) : Option Nat :=
  if number.isInteger && !number.negative then some (Nat.ofDigitChars 10 number.whole 0) else none

theorem toNat?_ofNat (n : Nat) : (ofNat n).toNat? = some n := by
  simp [ofNat, toNat?, isInteger, Nat.ofDigitChars_ten_toDigits]

end Number

end PathQuery
