import PathQuery.Duration.Basic

namespace PathQuery

namespace Duration

def plural (count : Nat) (unit : String) : String :=
  toString count ++ unit ++ (if count = 1 then "" else "s")

def short (count : Nat) (unit : String) : String := toString count ++ unit

def within (nanoseconds : Nat) (larger unit : TimeUnit) : Nat :=
  nanoseconds % larger.size / unit.size

def parts (duration : Duration) : List (Nat × String) :=
  let years := duration.nanoseconds / TimeUnit.year.size
  let months := within duration.nanoseconds .year .month
  let days := within (duration.nanoseconds % TimeUnit.year.size) .month .day
  let beyondDays := duration.nanoseconds % TimeUnit.year.size % TimeUnit.month.size
  let hours := within beyondDays .day .hour
  let minutes := within beyondDays .hour .minute
  let seconds := within beyondDays .minute .second
  let millis := within beyondDays .second .millisecond
  let micros := within beyondDays .millisecond .microsecond
  let nanos := within beyondDays .microsecond .nanosecond
  [(years, plural years "year"), (months, plural months "month"), (days, plural days "day"),
    (hours, short hours "h"), (minutes, short minutes "m"), (seconds, short seconds "s"),
    (millis, short millis "ms"), (micros, short micros "us"), (nanos, short nanos "ns")]

def text (duration : Duration) : String :=
  if duration.nanoseconds = 0 then "0s"
  else " ".intercalate ((duration.parts.filter fun part => part.1 != 0).map Prod.snd)

def decimal (whole rest width : Nat) (unit : String) : String :=
  let digits := (Nat.toDigits 10 (Nat.pow 10 width + rest)).drop 1
  let kept := (digits.reverse.dropWhile (· == '0')).reverse
  toString whole ++ (if kept.isEmpty then "" else "." ++ String.ofList kept) ++ unit

/-- The duration in seconds, or in the largest smaller unit that it reaches. -/
def inOneUnit (duration : Duration) : String :=
  let nanos := duration.nanos
  if 0 < duration.seconds then decimal duration.seconds nanos 9 "s"
  else if 1000000 ≤ nanos then decimal (nanos / 1000000) (nanos % 1000000) 6 "ms"
  else if 1000 ≤ nanos then decimal (nanos / 1000) (nanos % 1000) 3 "µs"
  else short nanos "ns"

end Duration

end PathQuery
