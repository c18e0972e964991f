import PathQuery.Cache.Lru
import Mathlib.Data.List.Basic

namespace PathQuery.Lru

variable {α κ : Type} {key : α → κ} [DecidableEq κ] {lru : Lru key} {k : κ} {entry held : α}

theorem mem_of_found (found : lru.find? k = some entry) :
    entry ∈ lru.entries ∧ key entry = k :=
  ⟨List.mem_of_find?_eq_some found, by simpa using List.find?_some found⟩

theorem find?_eq_none_iff : lru.find? k = none ↔ ∀ entry ∈ lru.entries, key entry ≠ k := by
  simp [find?]

theorem find?_eq_none_iff_notMem : lru.find? k = none ↔ k ∉ lru.entries.map key := by
  simp [find?]

theorem contains_iff : lru.contains k = true ↔ k ∈ lru.entries.map key := by
  simp [contains, find?]

theorem contains_of_found (found : lru.find? k = some entry) : lru.contains k = true := by
  simp [contains, found]

theorem not_contains_of_absent (absent : lru.find? k = none) : ¬ lru.contains k = true := by
  simp [contains, absent]

theorem mem_others : entry ∈ lru.others k ↔ entry ∈ lru.entries ∧ key entry ≠ k := by
  simp [others]

theorem others_eq_self (absent : lru.find? k = none) : lru.others k = lru.entries := by
  apply List.filter_eq_self.mpr
  simpa using find?_eq_none_iff.mp absent

theorem length_others_lt (member : held ∈ lru.entries) (own : key held = k) :
    (lru.others k).length < lru.entries.length :=
  List.length_filter_lt_length_iff_exists.mpr ⟨held, member, by simp [own]⟩

theorem find?_pop (lru : Lru key) (k : κ) : (lru.pop k).find? k = none :=
  find?_eq_none_iff.mpr fun _ member => (mem_others.mp member).2

theorem find?_toFront (own : key entry = k) : (lru.toFront entry).find? k = some entry := by
  simp [toFront, find?, own]

theorem others_toFront (own : key entry = k) : (lru.toFront entry).others k = lru.others k := by
  subst own
  simp [toFront, others]

theorem push_of_held (found : lru.find? (key entry) = some held) :
    lru.push entry = (some held, lru.toFront entry) := by
  rw [push, found]

/-- That the entry to be replaced has been used just before makes no difference. -/
theorem push_toFront (found : lru.find? (key entry) = some held) :
    (lru.toFront held).push entry = lru.push entry := by
  have own := (mem_of_found found).2
  rw [push_of_held (find?_toFront own), push_of_held found, toFront, others_toFront own]
  rfl

theorem push_of_room (absent : lru.find? (key entry) = none)
    (room : lru.entries.length < lru.limit) :
    lru.push entry = (none, { lru with entries := entry :: lru.entries }) := by
  rw [push, absent]
  exact if_pos room

theorem push_of_full (absent : lru.find? (key entry) = none)
    (full : lru.limit ≤ lru.entries.length) : lru.push entry =
      (lru.entries.getLast?, { lru with entries := entry :: lru.entries.dropLast }) := by
  rw [push, absent]
  exact if_neg (Nat.not_lt.mpr full)

theorem push_of_absent (absent : lru.find? (key entry) = none)
    (bounded : lru.entries.length ≤ lru.limit) :
    (lru.push entry).2 = { lru with entries := entry :: lru.entries.take (lru.limit - 1) } ∧
      (lru.push entry).1.toList = lru.entries.drop (lru.limit - 1) := by
  rcases Nat.lt_or_ge lru.entries.length lru.limit with room | full
  · rw [push_of_room absent room, List.take_of_length_le (by omega),
      List.drop_eq_nil_of_le (by omega)]
    exact ⟨rfl, rfl⟩
  · have length : lru.limit = lru.entries.length := Nat.le_antisymm full bounded
    rw [push_of_full absent full, length, ← List.dropLast_eq_take]
    refine ⟨by rw [← length], ?_⟩
    rcases List.eq_nil_or_concat lru.entries with none | ⟨kept, last, split⟩
    · simp [none]
    · simp [split]

theorem exists_push (lru : Lru key) (entry : α) :
    ∃ rest, rest.Sublist (lru.others (key entry)) ∧
      (lru.push entry).2 = { lru with entries := entry :: rest } := by
  cases found : lru.find? (key entry) with
  | some held => exact ⟨_, .refl _, by rw [push_of_held found]; rfl⟩
  | none =>
    rw [others_eq_self found]
    rcases Nat.lt_or_ge lru.entries.length lru.limit with room | full
    · exact ⟨_, .refl _, by rw [push_of_room found room]⟩
    · exact ⟨_, List.dropLast_sublist _, by rw [push_of_full found full]⟩

theorem foldl_pop (lru : Lru key) (ks : List κ) : ks.foldl pop lru =
    { lru with entries := lru.entries.filter fun entry => key entry ∉ ks } := by
  induction ks generalizing lru with
  | nil => simp
  | cons k ks ih =>
    rw [List.foldl_cons, ih, pop, others, List.filter_filter]
    simp [Bool.and_comm]

end PathQuery.Lru
