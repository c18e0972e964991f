import PathQuery.Name
import PathQuery.Proofs.Literal.Number

namespace PathQuery

/-- Enum values are names, all but the three that stand for something else. -/
def Name.isEnumValue (name : Name) : Bool :=
  name.text != "true" && name.text != "false" && name.text != "null"

namespace Lexical

def Digits (chars : List Char) : Prop := chars ≠ [] ∧ ∀ c ∈ chars, c.isDigit = true

inductive Natural : List Char → Prop where
  | zero : Natural ['0']
  | positive {first : Char} {rest : List Char} (digit : first.isDigit = true)
      (nonZero : first ≠ '0') (digits : ∀ c ∈ rest, c.isDigit = true) : Natural (first :: rest)

inductive IntValue : List Char → Prop where
  | plain {chars : List Char} (natural : Natural chars) : IntValue chars
  | negative {chars : List Char} (natural : Natural chars) : IntValue ('-' :: chars)

inductive Fraction : List Char → Prop where
  | point {digits : List Char} (valid : Digits digits) : Fraction ('.' :: digits)

inductive Exponent : List Char → Prop where
  | plain {indicator : Char} {digits : List Char} (marks : indicator = 'e' ∨ indicator = 'E')
      (valid : Digits digits) : Exponent (indicator :: digits)
  | signed {indicator sign : Char} {digits : List Char}
      (marks : indicator = 'e' ∨ indicator = 'E') (signs : sign = '+' ∨ sign = '-')
      (valid : Digits digits) : Exponent (indicator :: sign :: digits)

inductive FloatValue : List Char → Prop where
  | fraction {whole fraction : List Char} (int : IntValue whole) (point : Fraction fraction) :
      FloatValue (whole ++ fraction)
  | exponent {whole exponent : List Char} (int : IntValue whole) (power : Exponent exponent) :
      FloatValue (whole ++ exponent)
  | both {whole fraction exponent : List Char} (int : IntValue whole) (point : Fraction fraction)
      (power : Exponent exponent) : FloatValue (whole ++ fraction ++ exponent)

def marksFraction (c : Char) : Bool := c == '.' || c == 'e' || c == 'E'

def looksFractional (text : String) : Bool := text.toList.any marksFraction

theorem digits_of_isDigits {digits : List Char} (valid : Number.isDigits digits = true) :
    Digits digits := by
  obtain ⟨c, more, rfl, -⟩ := Number.exists_cons_of_isDigits valid
  exact ⟨List.cons_ne_nil _ _, fun c member => Number.isDigit_of_mem valid member⟩

theorem natural_of_isWhole {digits : List Char} (valid : Number.isWhole digits = true) :
    Natural digits := by
  have each := (digits_of_isDigits (Number.isDigits_of_isWhole valid)).2
  obtain ⟨first, rest, rfl, digit⟩ :=
    Number.exists_cons_of_isDigits (Number.isDigits_of_isWhole valid)
  by_cases zero : first = '0'
  · subst zero
    cases rest with
    | nil => exact .zero
    | cons c rest =>
      exfalso
      simp [Number.isWhole] at valid
  · exact .positive digit zero fun c member => each c (List.mem_cons_of_mem _ member)

theorem intValue_of_isWhole (negative : Bool) {digits : List Char}
    (valid : Number.isWhole digits = true) : IntValue (Number.signChars negative ++ digits) := by
  cases negative with
  | true => exact .negative (natural_of_isWhole valid)
  | false => exact .plain (natural_of_isWhole valid)

theorem fraction_of_isDigits {digits : List Char} (valid : Number.isDigits digits = true) :
    Fraction (Number.fractionChars (some digits)) :=
  .point (digits_of_isDigits valid)

theorem exponent_of_isDigits {exponent : Bool × List Char}
    (valid : Number.isDigits exponent.2 = true) :
    Exponent (Number.exponentChars (some exponent)) := by
  obtain ⟨negative, digits⟩ := exponent
  refine .signed (.inl rfl) ?_ (digits_of_isDigits valid)
  cases negative with
  | true => exact .inr rfl
  | false => exact .inl rfl

theorem any_marksFraction_sign (negative : Bool) :
    (Number.signChars negative).any marksFraction = false := by
  cases negative <;> rfl

theorem any_marksFraction_digits {digits : List Char} (valid : Number.isDigits digits = true) :
    digits.any marksFraction = false := by
  refine List.any_eq_false.mpr fun c member marks => ?_
  have digit := Number.isDigit_of_mem valid member
  simp only [marksFraction, Bool.or_eq_true, beq_iff_eq] at marks
  rcases marks with (rfl | rfl) | rfl <;> cases digit

theorem any_marksFraction_fraction (fraction? : Option (List Char)) :
    (Number.fractionChars fraction?).any marksFraction = fraction?.isSome := by
  cases fraction? <;> rfl

theorem any_marksFraction_exponent (exponent? : Option (Bool × List Char)) :
    (Number.exponentChars exponent?).any marksFraction = exponent?.isSome := by
  cases exponent? <;> rfl

end Lexical

namespace Number

open Lexical

theorem intValue_text {number : Number} (integer : number.isInteger = true) :
    IntValue number.text.toList := by
  obtain ⟨negative, whole, fraction?, exponent?, validWhole, _, _⟩ := number
  rw [text, String.toList_ofList, chars]
  cases fraction? with
  | some digits => cases integer
  | none =>
    cases exponent? with
    | some exponent => cases integer
    | none =>
      simp only [fractionChars, exponentChars, Option.elim_none, List.append_nil]
      exact intValue_of_isWhole negative validWhole

theorem floatValue_text {number : Number} (fractional : number.isInteger = false) :
    FloatValue number.text.toList := by
  obtain ⟨negative, whole, fraction?, exponent?, validWhole, validFraction, validExponent⟩ := number
  rw [text, String.toList_ofList, chars]
  have int := intValue_of_isWhole negative validWhole
  cases fraction? with
  | none =>
    cases exponent? with
    | none => cases fractional
    | some exponent =>
      have power := exponent_of_isDigits validExponent
      simpa only [fractionChars, Option.elim_none, List.append_nil] using .exponent int power
  | some digits =>
    have point := fraction_of_isDigits validFraction
    cases exponent? with
    | none =>
      simpa only [exponentChars, Option.elim_none, List.append_nil] using .fraction int point
    | some exponent => exact .both int point (exponent_of_isDigits validExponent)

theorem looksFractional_text (number : Number) :
    looksFractional number.text = !number.isInteger := by
  obtain ⟨negative, whole, fraction?, exponent?, validWhole, _, _⟩ := number
  rw [looksFractional, text, String.toList_ofList, chars]
  simp only [List.any_append, any_marksFraction_sign,
    any_marksFraction_digits (isDigits_of_isWhole validWhole), any_marksFraction_fraction,
    any_marksFraction_exponent, isInteger]
  cases fraction? <;> cases exponent? <;> rfl

end Number

end PathQuery
