namespace PathQuery

/-- Entries by key in order of use, the most recently used one first. -/
structure Lru {α κ : Type} (key : α → κ) where
  limit : Nat
  entries : List α

namespace Lru

variable {α κ : Type} {key : α → κ} [DecidableEq κ]

def find? (lru : Lru key) (k : κ) : Option α := lru.entries.find? fun entry => key entry = k

def contains (lru : Lru key) (k : κ) : Bool := (lru.find? k).isSome

def others (lru : Lru key) (k : κ) : List α := lru.entries.filter fun entry => key entry ≠ k

def pop (lru : Lru key) (k : κ) : Lru key := { lru with entries := lru.others k }

def toFront (lru : Lru key) (entry : α) : Lru key :=
  { lru with entries := entry :: lru.others (key entry) }

def get (lru : Lru key) (k : κ) : Option α × Lru key :=
  match lru.find? k with
  | some entry => (some entry, lru.toFront entry)
  | none => (none, lru)

/-- Gives back the entry that is replaced or, when a new key finds no room, the one unused for
longest. -/
def push (lru : Lru key) (entry : α) : Option α × Lru key :=
  match lru.find? (key entry) with
  | some held => (some held, lru.toFront entry)
  | none =>
    if lru.entries.length < lru.limit then (none, { lru with entries := entry :: lru.entries })
    else (lru.entries.getLast?, { lru with entries := entry :: lru.entries.dropLast })

end Lru

end PathQuery
