namespace PathQuery

def countLimit : Nat := 18446744073709551616

def nanosPerSecond : Nat := 1000000000

structure Duration where
  nanoseconds : Nat
  in_range : nanoseconds < countLimit * nanosPerSecond := by decide
deriving DecidableEq

namespace Duration

def zero : Duration := ⟨0, by decide⟩

def seconds (duration : Duration) : Nat := duration.nanoseconds / nanosPerSecond

def nanos (duration : Duration) : Nat := duration.nanoseconds % nanosPerSecond

def plus? (duration : Duration) (seconds nanos : Nat) : Option Duration :=
  if duration.nanos + nanos < countLimit then
    if in_range : duration.nanoseconds + seconds * nanosPerSecond + nanos <
        countLimit * nanosPerSecond then
      some ⟨duration.nanoseconds + seconds * nanosPerSecond + nanos, in_range⟩
    else none
  else none

end Duration

inductive TimeUnit where
  | nanosecond
  | microsecond
  | millisecond
  | second
  | minute
  | hour
  | day
  | week
  | month
  | year
deriving DecidableEq

namespace TimeUnit

def all : List TimeUnit :=
  [nanosecond, microsecond, millisecond, second, minute, hour, day, week, month, year]

/-- The length in nanoseconds. A year has 365.25 days and a month is 30.44 of them. -/
def size : TimeUnit → Nat
  | nanosecond => 1
  | microsecond => 1000
  | millisecond => 1000000
  | second => nanosPerSecond
  | minute => 60 * nanosPerSecond
  | hour => 3600 * nanosPerSecond
  | day => 86400 * nanosPerSecond
  | week => 604800 * nanosPerSecond
  | month => 2630016 * nanosPerSecond
  | year => 31557600 * nanosPerSecond

def spellings : TimeUnit → List String
  | nanosecond => ["nanos", "nsec", "ns"]
  | microsecond => ["usec", "us", "µs"]
  | millisecond => ["millis", "msec", "ms"]
  | second => ["seconds", "second", "secs", "sec", "s"]
  | minute => ["minutes", "minute", "min", "mins", "m"]
  | hour => ["hours", "hour", "hr", "hrs", "h"]
  | day => ["days", "day", "d"]
  | week => ["weeks", "week", "wk", "wks", "w"]
  | month => ["months", "month", "M"]
  | year => ["years", "year", "yr", "yrs", "y"]

def ofText? (text : String) : Option TimeUnit := all.find? fun unit => unit.spellings.contains text

/-- Whole amounts of the unit are counted in nanoseconds, not in seconds. -/
def isFine : TimeUnit → Bool
  | nanosecond | microsecond | millisecond => true
  | _ => false

/-- Fractions of the unit are counted in nanoseconds, not in seconds. -/
def splitsFine : TimeUnit → Bool
  | nanosecond | microsecond | millisecond | second | minute => true
  | _ => false

end TimeUnit

end PathQuery
