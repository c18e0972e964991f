import PathQuery.Literal.Number

namespace PathQuery

section Run

variable {α : Type} {p : α → Bool} {run rest : List α}

theorem takeWhile_run (inside : ∀ a ∈ run, p a = true) (stops : ∀ a ∈ rest.head?, p a = false) :
    (run ++ rest).takeWhile p = run := by
  rw [List.takeWhile_append_of_pos inside]
  cases rest with
  | nil => simp
  | cons a rest => simp [stops a rfl]

theorem dropWhile_run (inside : ∀ a ∈ run, p a = true) (stops : ∀ a ∈ rest.head?, p a = false) :
    (run ++ rest).dropWhile p = rest := by
  rw [List.dropWhile_append_of_pos inside]
  cases rest with
  | nil => rfl
  | cons a rest => simp [stops a rfl]

end Run

namespace Number

section Digits

variable {digits rest : List Char}

theorem isDigit_of_mem (valid : isDigits digits = true) {c : Char} (member : c ∈ digits) :
    c.isDigit = true := by
  rw [isDigits, Bool.and_eq_true, List.all_eq_true] at valid
  exact valid.2 c member

theorem isDigits_of_isWhole (valid : isWhole digits = true) : isDigits digits = true := by
  rw [isWhole, Bool.and_eq_true] at valid
  exact valid.1

theorem exists_cons_of_isDigits (valid : isDigits digits = true) :
    ∃ c more, digits = c :: more ∧ c.isDigit = true := by
  cases digits with
  | nil => cases valid
  | cons c more => exact ⟨c, more, rfl, isDigit_of_mem valid List.mem_cons_self⟩

theorem takeWhile_digits (valid : isDigits digits = true)
    (stops : ∀ c ∈ rest.head?, c.isDigit = false) :
    (digits ++ rest).takeWhile Char.isDigit = digits :=
  takeWhile_run (fun _ => isDigit_of_mem valid) stops

theorem dropWhile_digits (valid : isDigits digits = true)
    (stops : ∀ c ∈ rest.head?, c.isDigit = false) :
    (digits ++ rest).dropWhile Char.isDigit = rest :=
  dropWhile_run (fun _ => isDigit_of_mem valid) stops

end Digits

theorem readSign_append (negative : Bool) {rest : List Char} (unsigned : rest.head? ≠ some '-') :
    readSign (signChars negative ++ rest) = (negative, rest) := by
  cases negative with
  | true => rfl
  | false =>
    cases rest with
    | nil => rfl
    | cons c rest =>
      have other : c ≠ '-' := fun same => unsigned (congrArg some same)
      simp [signChars, readSign, other]

theorem head?_exponentChars {exponent? : Option (Bool × List Char)} {c : Char}
    (head : c ∈ (exponentChars exponent?).head?) : c = 'e' := by
  cases exponent? with
  | none => cases head
  | some exponent =>
    cases head
    rfl

theorem readExponent?_exponentChars (exponent? : Option (Bool × List Char)) :
    readExponent? (exponentChars exponent?) = some exponent? := by
  cases exponent? with
  | none => rfl
  | some exponent =>
    obtain ⟨negative, digits⟩ := exponent
    cases negative <;> rfl

section Fraction

variable {fraction? : Option (List Char)} (exponent? : Option (Bool × List Char))

theorem readFraction_append (valid : fraction?.all isDigits = true) :
    readFraction (fractionChars fraction? ++ exponentChars exponent?) =
      (fraction?, exponentChars exponent?) := by
  have stops : ∀ c ∈ (exponentChars exponent?).head?, c.isDigit = false := by
    intro c head
    rw [head?_exponentChars head]
    rfl
  cases fraction? with
  | none =>
    cases exponent? with
    | none => rfl
    | some exponent => rfl
  | some digits =>
    show (some ((digits ++ exponentChars exponent?).takeWhile Char.isDigit),
      (digits ++ exponentChars exponent?).dropWhile Char.isDigit) = _
    rw [takeWhile_digits valid stops, dropWhile_digits valid stops]

theorem isDigit_head?_fractionChars_append {c : Char}
    (head : c ∈ (fractionChars fraction? ++ exponentChars exponent?).head?) :
    c.isDigit = false := by
  cases fraction? with
  | none =>
    rw [head?_exponentChars head]
    rfl
  | some digits =>
    cases head
    rfl

end Fraction

theorem ofChars?_chars (number : Number) : ofChars? number.chars = some number := by
  obtain ⟨negative, whole, fraction?, exponent?, validWhole, validFraction, validExponent⟩ := number
  have digits := isDigits_of_isWhole validWhole
  have unsigned : (whole ++ (fractionChars fraction? ++ exponentChars exponent?)).head? ≠
      some '-' := by
    obtain ⟨c, more, rfl, digit⟩ := exists_cons_of_isDigits digits
    intro head
    cases head
    cases digit
  have stops : ∀ c ∈ (fractionChars fraction? ++ exponentChars exponent?).head?,
      c.isDigit = false :=
    fun c => isDigit_head?_fractionChars_append exponent?
  simp only [ofChars?, chars, List.append_assoc, readSign_append negative unsigned,
    takeWhile_digits digits stops, dropWhile_digits digits stops,
    readFraction_append exponent? validFraction, readExponent?_exponentChars]
  exact dif_pos ⟨validWhole, validFraction, validExponent⟩

theorem ofText?_text (number : Number) : ofText? number.text = some number := by
  rw [ofText?, text, String.toList_ofList, ofChars?_chars]

theorem text_injective {a b : Number} (same : a.text = b.text) : a = b := by
  have chars : a.chars = b.chars := String.ofList_injective same
  have read := congrArg ofChars? chars
  rw [ofChars?_chars, ofChars?_chars] at read
  exact Option.some.inj read

end Number

end PathQuery
