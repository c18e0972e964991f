import PathQuery.Duration.Parser
import PathQuery.Duration.Text
import PathQuery.Proofs.Literal.Number

namespace PathQuery

namespace TimeUnit

theorem mem_all (unit : TimeUnit) : unit ∈ all := by cases unit <;> decide

theorem ofText?_of_mem {unit : TimeUnit} {word : String} (spelled : word ∈ unit.spellings) :
    ofText? word = some unit := by
  have table : ∀ unit ∈ all, ∀ word ∈ unit.spellings, ofText? word = some unit := by decide
  exact table unit (mem_all unit) word spelled

theorem size_positive (unit : TimeUnit) : 0 < unit.size := by cases unit <;> decide

end TimeUnit

namespace Duration

theorem unitCount_positive (unit : TimeUnit) : 0 < unitCount unit.isFine unit := by
  cases unit <;> decide

structure Amount where
  count : Nat
  unit : TimeUnit
  word : String
  spelled : word ∈ unit.spellings

namespace Amount

def text (amount : Amount) : String := toString amount.count ++ amount.word

def nanoseconds (amount : Amount) : Nat := amount.count * amount.unit.size

def part (amount : Amount) : Part := ⟨Nat.toDigits 10 amount.count, none, amount.word.toList⟩

/-- Fine units are counted in 64 bits on top of what there is beyond whole seconds. -/
def Fits (amount : Amount) : Prop :=
  amount.unit.isFine = true → amount.nanoseconds + nanosPerSecond ≤ countLimit

theorem toList_text (amount : Amount) :
    amount.text.toList = Nat.toDigits 10 amount.count ++ amount.word.toList := by
  rw [text, String.toList_append]
  exact congrArg (· ++ amount.word.toList) Nat.toList_repr

theorem exists_word (amount : Amount) : ∃ c more, amount.word.toList = c :: more ∧
    inNumber c = false ∧ c ≠ '.' ∧ ∀ c ∈ amount.word.toList, inUnit c = true := by
  have table : ∀ unit ∈ TimeUnit.all, ∀ word ∈ unit.spellings,
      word.toList.head?.any (fun c => !inNumber c && c != '.') = true ∧
        word.toList.all inUnit = true := by decide
  obtain ⟨head, inside⟩ := table amount.unit amount.unit.mem_all amount.word amount.spelled
  cases word : amount.word.toList with
  | nil => simp [word] at head
  | cons c more =>
    simp only [word, List.head?_cons, Option.any_some, Bool.and_eq_true, Bool.not_eq_true',
      bne_iff_ne] at head
    exact ⟨c, more, rfl, head.1, head.2, List.all_eq_true.mp (word ▸ inside)⟩

end Amount

section Reading

variable (amount : Amount) {rest : List Char}

theorem inNumber_of_mem_toDigits {n : Nat} {c : Char} (member : c ∈ Nat.toDigits 10 n) :
    inNumber c = true := by
  rw [inNumber, Nat.isDigit_of_mem_toDigits (by decide) (by decide) member]
  rfl

theorem leadingDigits_toDigits (n : Nat) (stops : ∀ c ∈ rest.head?, inNumber c = false) :
    leadingDigits (Nat.toDigits 10 n ++ rest) = Nat.toDigits 10 n := by
  rw [leadingDigits, takeWhile_run (fun _ => inNumber_of_mem_toDigits) stops, List.filter_eq_self]
  exact fun _ => Nat.isDigit_of_mem_toDigits (by decide) (by decide)

theorem readUnit?_word (whole : List Char) (ends : ∀ c ∈ rest.head?, c = ' ') :
    readUnit? whole none (amount.word.toList ++ rest) =
      some (⟨whole, none, amount.word.toList⟩, rest) := by
  obtain ⟨c, more, word, -, -, inside⟩ := amount.exists_word
  have stops : ∀ c ∈ rest.head?, inUnit c = false := by
    intro c head
    rw [ends c head]
    decide
  have next : rest.head?.all inNumber = true := by
    rw [Option.all_eq_true]
    intro c head
    rw [ends c head]
    decide
  simp only [readUnit?, takeWhile_run inside stops, dropWhile_run inside stops, next]
  simp [word]

theorem readPart?_text (ends : ∀ c ∈ rest.head?, c = ' ') :
    readPart? (amount.text.toList ++ rest) = some (amount.part, rest) := by
  obtain ⟨c, more, word, other, undotted, -⟩ := amount.exists_word
  have stops : ∀ c ∈ (amount.word.toList ++ rest).head?, inNumber c = false := by
    simp [word, other]
  rw [amount.toList_text, List.append_assoc, readPart?,
    dropWhile_run (fun _ => inNumber_of_mem_toDigits) stops,
    leadingDigits_toDigits amount.count stops]
  split
  · rename_i dotted
    simp only [word, List.cons_append, List.cons.injEq] at dotted
    exact absurd dotted.1 undotted
  · exact readUnit?_word amount _ ends

theorem readParts?_eq (chars : List Char) : readParts? chars =
    match chars.dropWhile isBlank with
    | [] => some []
    | c :: rest =>
      if c.isDigit then
        (readPart? (c :: rest)).bind fun read => (readParts? read.2).map (read.1 :: ·)
      else none := by
  rw [readParts?.eq_def]
  split <;> rename_i trimmed <;> rw [trimmed]
  dsimp only
  split
  · split <;> rename_i read <;> rw [read] <;> rfl
  · rfl

theorem isBlank_of_isDigit {c : Char} (digit : c.isDigit = true) : isBlank c = false := by
  have bounds : 48 ≤ c.toNat ∧ c.toNat ≤ 57 := Char.isDigit_iff_toNat.mp digit
  simp [isBlank]
  omega

theorem readParts?_blank (chars : List Char) : readParts? (' ' :: chars) = readParts? chars := by
  rw [readParts?_eq, readParts?_eq chars, List.dropWhile_cons_of_pos (by decide)]

theorem readParts?_text (ends : ∀ c ∈ rest.head?, c = ' ') :
    readParts? (amount.text.toList ++ rest) = (readParts? rest).map (amount.part :: ·) := by
  obtain ⟨c, more, digits, digit⟩ :=
    Number.exists_cons_of_isDigits (Number.isDigits_toDigits amount.count)
  have read := readPart?_text amount ends
  rw [amount.toList_text, digits, List.cons_append, List.cons_append] at read ⊢
  rw [readParts?_eq, List.dropWhile_cons_of_neg (by simp [isBlank_of_isDigit digit])]
  simp only [digit, read, if_true, Option.bind_some]

theorem readParts?_flatMap (amounts : List Amount) :
    readParts? (amounts.flatMap fun amount => ' ' :: amount.text.toList) =
      some (amounts.map Amount.part) := by
  induction amounts with
  | nil =>
    rw [List.flatMap_nil, readParts?_eq]
    rfl
  | cons amount amounts ih =>
    have ends : ∀ c ∈ (amounts.flatMap fun amount => ' ' :: amount.text.toList).head?, c = ' ' := by
      cases amounts with
      | nil => simp
      | cons next amounts => simp [eq_comm]
    rw [List.flatMap_cons, List.cons_append, readParts?_blank, readParts?_text amount ends, ih]
    rfl

end Reading

section Sum

variable {duration : Duration} {amount : Amount} {amounts : List Amount}

theorem plus?_eq_some {seconds nanos sum : Nat} (room : duration.nanos + nanos < countLimit)
    (adds : duration.nanoseconds + seconds * nanosPerSecond + nanos = sum)
    (in_range : sum < countLimit * nanosPerSecond) :
    duration.plus? seconds nanos = some ⟨sum, in_range⟩ := by
  subst adds
  rw [plus?, if_pos room, dif_pos in_range]

theorem size_of_coarse {unit : TimeUnit} (coarse : unit.isFine = false) :
    unit.size = unitCount false unit * nanosPerSecond := by
  cases unit <;> first | rfl | cases coarse

theorem nanoseconds_of_coarse (coarse : amount.unit.isFine = false) :
    amount.count * unitCount false amount.unit * nanosPerSecond = amount.nanoseconds := by
  rw [Amount.nanoseconds, size_of_coarse coarse, Nat.mul_assoc]

theorem counted_lt (fits : amount.Fits)
    (in_range : amount.nanoseconds < countLimit * nanosPerSecond) :
    amount.count * unitCount amount.unit.isFine amount.unit < countLimit := by
  have second : 0 < nanosPerSecond := by decide
  cases kind : amount.unit.isFine with
  | true =>
    have room := fits kind
    have counted : amount.count * unitCount true amount.unit = amount.nanoseconds := rfl
    omega
  | false =>
    rw [← nanoseconds_of_coarse kind] at in_range
    exact Nat.lt_of_mul_lt_mul_right in_range

theorem plusWhole?_amount (fits : amount.Fits)
    (in_range : duration.nanoseconds + amount.nanoseconds < countLimit * nanosPerSecond) :
    duration.plusWhole? amount.unit amount.count =
      some ⟨duration.nanoseconds + amount.nanoseconds, in_range⟩ := by
  have beyond : duration.nanos < nanosPerSecond := Nat.mod_lt _ (by decide)
  rw [plusWhole?, count?, if_pos (counted_lt fits (by omega))]
  cases kind : amount.unit.isFine with
  | true =>
    have room := fits kind
    have counted : amount.count * unitCount true amount.unit = amount.nanoseconds := rfl
    rw [counted]
    exact plus?_eq_some (by omega) (by omega) in_range
  | false =>
    have seconds := nanoseconds_of_coarse kind
    have carried : duration.nanos < countLimit := Nat.lt_trans beyond (by decide)
    exact plus?_eq_some carried (by omega) in_range

theorem plusPart?_part (fits : amount.Fits)
    (in_range : duration.nanoseconds + amount.nanoseconds < countLimit * nanosPerSecond) :
    duration.plusPart? amount.part =
      some ⟨duration.nanoseconds + amount.nanoseconds, in_range⟩ := by
  have added := plusWhole?_amount fits in_range
  have small : amount.count < countLimit :=
    Nat.lt_of_le_of_lt (Nat.le_mul_of_pos_right _ (unitCount_positive _))
      (counted_lt fits (by omega))
  simp [plusPart?, Amount.part, TimeUnit.ofText?_of_mem amount.spelled, ofDigits?, count?,
    Nat.ofDigitChars_ten_toDigits, small, added]

def total : List Amount → Nat
  | [] => 0
  | amount :: amounts => amount.nanoseconds + total amounts

theorem total_nil : total [] = 0 := rfl

theorem total_cons : total (amount :: amounts) = amount.nanoseconds + total amounts := by
  rw [total]

theorem foldlM_plusPart? {sum : Nat} (fits : ∀ amount ∈ amounts, amount.Fits)
    (adds : duration.nanoseconds + total amounts = sum)
    (in_range : sum < countLimit * nanosPerSecond) :
    (amounts.map Amount.part).foldlM plusPart? duration = some ⟨sum, in_range⟩ := by
  subst adds
  induction amounts generalizing duration with
  | nil => rfl
  | cons amount amounts ih =>
    simp only [total_cons, ← Nat.add_assoc] at in_range ⊢
    rw [List.map_cons, List.foldlM_cons, plusPart?_part (fits _ List.mem_cons_self) (by omega)]
    exact ih (fun amount member => fits amount (List.mem_cons_of_mem _ member)) in_range

theorem blank_intercalate {texts : List String} (some_text : texts ≠ []) :
    ' ' :: (" ".intercalate texts).toList = texts.flatMap fun text => ' ' :: text.toList := by
  induction texts with
  | nil => exact absurd rfl some_text
  | cons text texts ih =>
    cases texts with
    | nil => simp
    | cons next texts =>
      rw [List.flatMap_cons, ← ih (List.cons_ne_nil _ _), String.intercalate_cons_cons]
      simp

/-- Amounts written one after another are read as the duration that they come to. -/
theorem ofText?_amounts (some_amount : amounts ≠ []) (fits : ∀ amount ∈ amounts, amount.Fits)
    (comes_to : total amounts = duration.nanoseconds) :
    ofText? (" ".intercalate (amounts.map Amount.text)) = some duration := by
  have read : readParts? (" ".intercalate (amounts.map Amount.text)).toList =
      some (amounts.map Amount.part) := by
    rw [← readParts?_blank, blank_intercalate (by simpa using some_amount), List.flatMap_map,
      readParts?_flatMap]
  -- A lone zero would be read without a unit, which no amount is written without.
  have unitless : readParts? "0".toList = none := by
    rw [readParts?_eq]
    decide
  have written : " ".intercalate (amounts.map Amount.text) ≠ "0" := by
    intro same
    rw [same, unitless] at read
    cases read
  have added : (amounts.map Amount.part).foldlM plusPart? zero = some duration :=
    foldlM_plusPart? fits ((Nat.zero_add _).trans comes_to) duration.in_range
  rw [ofText?, if_neg written, read]
  simp [some_amount, added]

end Sum

section Units

variable (nanoseconds : Nat) (larger unit : TimeUnit)

theorem within_mul_size :
    within nanoseconds larger unit * unit.size + nanoseconds % larger.size % unit.size =
      nanoseconds % larger.size := Nat.div_add_mod' _ _

theorem within_mul_size_of_dvd (divides : unit.size ∣ larger.size) :
    within nanoseconds larger unit * unit.size + nanoseconds % unit.size =
      nanoseconds % larger.size := by
  rw [← Nat.mod_mod_of_dvd nanoseconds divides]
  exact within_mul_size nanoseconds larger unit

/-- From days on down each unit divides the one before it; months do not divide a year, nor days a
month. -/
theorem below_days :
    within nanoseconds .day .hour * TimeUnit.hour.size +
        (within nanoseconds .hour .minute * TimeUnit.minute.size +
          (within nanoseconds .minute .second * TimeUnit.second.size +
            (within nanoseconds .second .millisecond * TimeUnit.millisecond.size +
              (within nanoseconds .millisecond .microsecond * TimeUnit.microsecond.size +
                within nanoseconds .microsecond .nanosecond * TimeUnit.nanosecond.size)))) =
      nanoseconds % TimeUnit.day.size := by
  have hours := within_mul_size_of_dvd nanoseconds .day .hour (by decide)
  have minutes := within_mul_size_of_dvd nanoseconds .hour .minute (by decide)
  have seconds := within_mul_size_of_dvd nanoseconds .minute .second (by decide)
  have millis := within_mul_size_of_dvd nanoseconds .second .millisecond (by decide)
  have micros := within_mul_size_of_dvd nanoseconds .millisecond .microsecond (by decide)
  have nanos := within_mul_size_of_dvd nanoseconds .microsecond .nanosecond (by decide)
  have none_left : nanoseconds % TimeUnit.nanosecond.size = 0 := Nat.mod_one _
  omega

theorem within_mul_size_lt : within nanoseconds larger unit * unit.size < larger.size :=
  Nat.lt_of_le_of_lt (Nat.div_mul_le_self _ _) (Nat.mod_lt _ larger.size_positive)

end Units

namespace Amount

def short (count : Nat) (unit : TimeUnit) (word : String) (spelled : word ∈ unit.spellings) :
    Amount := ⟨count, unit, word, spelled⟩

def plural (count : Nat) (unit : TimeUnit) (word : String)
    (spelled : word ∈ unit.spellings ∧ word ++ "s" ∈ unit.spellings) : Amount where
  count := count
  unit := unit
  word := word ++ (if count = 1 then "" else "s")
  spelled := by
    split
    · simpa using spelled.1
    · exact spelled.2

section Product

variable (count : Nat) (unit : TimeUnit) (word : String)

@[simp] theorem nanoseconds_short (spelled) :
    (short count unit word spelled).nanoseconds = count * unit.size := rfl

@[simp] theorem nanoseconds_plural (spelled) :
    (plural count unit word spelled).nanoseconds = count * unit.size := rfl

end Product

end Amount

def amounts (duration : Duration) : List Amount :=
  let beyondYears := duration.nanoseconds % TimeUnit.year.size
  let beyondDays := beyondYears % TimeUnit.month.size
  [.plural (duration.nanoseconds / TimeUnit.year.size) .year "year" (by decide),
    .plural (within duration.nanoseconds .year .month) .month "month" (by decide),
    .plural (within beyondYears .month .day) .day "day" (by decide),
    .short (within beyondDays .day .hour) .hour "h" (by decide),
    .short (within beyondDays .hour .minute) .minute "m" (by decide),
    .short (within beyondDays .minute .second) .second "s" (by decide),
    .short (within beyondDays .second .millisecond) .millisecond "ms" (by decide),
    .short (within beyondDays .millisecond .microsecond) .microsecond "us" (by decide),
    .short (within beyondDays .microsecond .nanosecond) .nanosecond "ns" (by decide)]

theorem parts_eq (duration : Duration) :
    duration.parts = duration.amounts.map fun amount => (amount.count, amount.text) := by
  simp only [parts, amounts, List.map_cons, List.map_nil, Amount.plural, Amount.short, Amount.text,
    plural, short, String.append_assoc]

theorem total_amounts (duration : Duration) : total duration.amounts = duration.nanoseconds := by
  have years := Nat.div_add_mod' duration.nanoseconds TimeUnit.year.size
  have months := within_mul_size duration.nanoseconds .year .month
  have days := within_mul_size (duration.nanoseconds % TimeUnit.year.size) .month .day
  have below :=
    below_days (duration.nanoseconds % TimeUnit.year.size % TimeUnit.month.size)
  simp only [amounts, total_cons, total_nil, Amount.nanoseconds_plural, Amount.nanoseconds_short]
  omega

theorem fits_amounts (duration : Duration) : ∀ amount ∈ duration.amounts, amount.Fits := by
  have coarse {amount : Amount} (kind : amount.unit.isFine = false) : amount.Fits := by
    intro fine
    rw [kind] at fine
    cases fine
  have fine {amount : Amount} {larger : TimeUnit} (short : larger.size ≤ nanosPerSecond)
      (part : amount.nanoseconds < larger.size) : amount.Fits := by
    intro _
    have room : nanosPerSecond + nanosPerSecond ≤ countLimit := by decide
    omega
  simp only [amounts, List.forall_mem_cons]
  exact ⟨coarse rfl, coarse rfl, coarse rfl, coarse rfl, coarse rfl, coarse rfl,
    fine (by decide) (within_mul_size_lt _ .second _),
    fine (by decide) (within_mul_size_lt _ .millisecond _),
    fine (by decide) (within_mul_size_lt _ .microsecond _), List.forall_mem_nil _⟩

theorem total_filter (amounts : List Amount) :
    total (amounts.filter fun amount => amount.count != 0) = total amounts := by
  induction amounts with
  | nil => rfl
  | cons amount amounts ih =>
    by_cases none_counted : amount.count = 0
    · have nothing : amount.nanoseconds = 0 := by rw [Amount.nanoseconds, none_counted, Nat.zero_mul]
      rw [List.filter_cons_of_neg (by simp [none_counted]), ih, total_cons, nothing, Nat.zero_add]
    · rw [List.filter_cons_of_pos (by simp [none_counted]), total_cons, total_cons, ih]

theorem ofText?_zero : ofText? "0s" = some zero := by
  let lone : Amount := .short 0 .second "s" (by decide)
  have fits : ∀ amount ∈ [lone], amount.Fits := by
    intro amount member fine
    cases List.mem_singleton.mp member
    cases fine
  have written : " ".intercalate ([lone].map Amount.text) = "0s" := by decide
  have comes_to : total [lone] = zero.nanoseconds := by
    rw [total_cons, total_nil, Amount.nanoseconds_short, Nat.zero_mul]
    rfl
  have read := ofText?_amounts (List.cons_ne_nil lone []) fits comes_to
  rwa [written] at read

theorem ofText?_text (duration : Duration) : ofText? duration.text = some duration := by
  by_cases nothing : duration.nanoseconds = 0
  · rw [text, if_pos nothing, ofText?_zero]
    simp only [zero, ← nothing]
  · have written : duration.text = " ".intercalate
        ((duration.amounts.filter fun amount => amount.count != 0).map Amount.text) := by
      rw [text, if_neg nothing, parts_eq, List.filter_map, List.map_map]
      rfl
    have comes_to := (total_filter duration.amounts).trans duration.total_amounts
    have some_amount : (duration.amounts.filter fun amount => amount.count != 0) ≠ [] := by
      intro none_left
      rw [none_left] at comes_to
      exact nothing comes_to.symm
    rw [written]
    exact ofText?_amounts some_amount
      (fun amount member => duration.fits_amounts amount (List.mem_filter.mp member).1) comes_to

example : (⟨countLimit * nanosPerSecond - 1, by decide⟩ : Duration).text =
    "584542046090years 7months 15days 17h 5m 3s 999ms 999us 999ns" := by decide +kernel

end Duration

end PathQuery
