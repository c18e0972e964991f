import PathQuery.Cache.Basic
import PathQuery.Proofs.Cache.Lru

namespace PathQuery.Cache

open Lru

variable {cache : Cache} {expired : CacheEntry → Bool} {key : CacheKey} {entry held : CacheEntry}
  {outcome : Outcome} {now : Nat}

def touch (cache : Cache) (entry : CacheEntry) : Cache :=
  { cache with toLru := cache.toFront entry }

theorem mem_touch (member : held ∈ cache.entries) (found : entry ∈ (cache.touch held).entries) :
    entry ∈ cache.entries := by
  rcases List.mem_cons.mp found with rfl | found
  · exact member
  · exact (mem_others.mp found).1

def Live (cache : Cache) (expired : CacheEntry → Bool) (key : CacheKey) (entry : CacheEntry) :
    Prop :=
  cache.find? key = some entry ∧ expired entry = false

theorem not_live_of_absent (absent : cache.find? key = none) (entry : CacheEntry) :
    ¬ cache.Live expired key entry := by
  simp [Live, absent]

theorem not_live_of_expired (found : cache.find? key = some held) (late : expired held = true)
    (entry : CacheEntry) : ¬ cache.Live expired key entry := by
  intro live
  obtain rfl := Option.some.inj (found.symm.trans live.1)
  cases late.symm.trans live.2

theorem lookup_cases (cache : Cache) (expired : CacheEntry → Bool) (key : CacheKey) :
    (∃ entry, cache.Live expired key entry ∧ cache.lookup expired key =
      ⟨some entry.compilation, cache.touch entry, [.hit key.schema entry.compilation.failure?]⟩) ∨
    (∃ entry, cache.find? key = some entry ∧ expired entry = true ∧ cache.lookup expired key =
      ⟨none, { cache with entries := cache.others key },
        [.expired key.schema, .miss key.schema]⟩) ∨
    (cache.find? key = none ∧ cache.lookup expired key =
      ⟨none, cache, [.miss key.schema]⟩) := by
  unfold lookup Lru.get
  cases found : cache.find? key with
  | none => exact .inr (.inr ⟨rfl, rfl⟩)
  | some entry =>
    have others : (cache.toFront entry).others key = cache.others key :=
      others_toFront (mem_of_found found).2
    cases late : expired entry with
    | true => exact .inr (.inl ⟨entry, rfl, late, by simp [late, pop, others]; rfl⟩)
    | false => exact .inl ⟨entry, ⟨found, late⟩, by simp [late, touch]⟩

theorem lookup_of_live (live : cache.Live expired key entry) : cache.lookup expired key =
    ⟨some entry.compilation, cache.touch entry, [.hit key.schema entry.compilation.failure?]⟩ := by
  simp [lookup, Lru.get, live.1, live.2, touch]

def without (cache : Cache) (key : CacheKey) : Cache := { cache with toLru := cache.pop key }

theorem lookup_of_dead (dead : ∀ entry, ¬ cache.Live expired key entry) :
    cache.lookup expired key = ⟨none, cache.without key,
      (if cache.contains key then [.expired key.schema] else []) ++ [.miss key.schema]⟩ := by
  rcases cache.lookup_cases expired key with hit | old | miss
  · obtain ⟨entry, live, _⟩ := hit
    exact absurd live (dead entry)
  · obtain ⟨entry, found, _, looked⟩ := old
    rw [looked, if_pos (contains_of_found found)]
    rfl
  · obtain ⟨absent, looked⟩ := miss
    rw [looked, if_neg (not_contains_of_absent absent), without, pop, others_eq_self absent]
    rfl

theorem store_of_live (live : cache.Live expired key entry) (now : Nat) (outcome : Outcome) :
    cache.store expired now key outcome =
      ⟨entry.compilation, cache.touch entry, [.storedMeanwhile key.schema]⟩ := by
  simp [store, Lru.get, Option.filter, live.1, live.2, touch]

/-- Where no entry of the key is live a new one is pushed, and what is replaced is not reported. -/
theorem store_of_dead (dead : ∀ entry, ¬ cache.Live expired key entry) (now : Nat)
    (outcome : Outcome) :
    let pushed := cache.push ⟨key, ⟨cache.next, outcome⟩, now⟩
    cache.store expired now key outcome =
      ⟨⟨cache.next, outcome⟩, { cache with toLru := pushed.2, next := cache.next + 1 },
        .caching key.schema (Compilation.failure? ⟨cache.next, outcome⟩) ::
          if cache.contains key then []
          else pushed.1.toList.map fun entry => .evicted entry.key.schema⟩ := by
  intro pushed
  cases found : cache.find? key with
  | none =>
    have new : cache.contains key = false := by simp [contains, found]
    cases gone : pushed.1 with
    | none => simp [store, Lru.get, found, new, pushed, gone]
    | some last => simp [store, Lru.get, found, new, pushed, gone]
  | some held =>
    have late : expired held = true := by
      by_contra fresh
      exact dead held ⟨found, by simpa using fresh⟩
    have same : (cache.toFront held).push ⟨key, ⟨cache.next, outcome⟩, now⟩ = pushed :=
      push_toFront found
    have gone : pushed.1 = some held := congrArg Prod.fst (push_of_held found)
    have front : (cache.toFront held).find? key = some held :=
      find?_toFront (mem_of_found found).2
    simp [store, Lru.get, Option.filter, contains, found, late, front, same, gone]

theorem store_of_expired (found : cache.find? key = some held) (late : expired held = true)
    (now : Nat) (outcome : Outcome) :
    cache.store expired now key outcome =
      ⟨⟨cache.next, outcome⟩, { cache with
        entries := ⟨key, ⟨cache.next, outcome⟩, now⟩ :: cache.others key
        next := cache.next + 1 },
        [.caching key.schema (Compilation.failure? ⟨cache.next, outcome⟩)]⟩ := by
  let made : CacheEntry := ⟨key, ⟨cache.next, outcome⟩, now⟩
  have pushed : cache.push made = (some held, cache.toFront made) := push_of_held found
  rw [store_of_dead (not_live_of_expired found late), pushed, if_pos (contains_of_found found)]
  rfl

theorem store_of_absent (absent : cache.find? key = none)
    (bounded : cache.entries.length ≤ cache.limit) (expired : CacheEntry → Bool) (now : Nat)
    (outcome : Outcome) :
    cache.store expired now key outcome =
      ⟨⟨cache.next, outcome⟩, { cache with
        entries := ⟨key, ⟨cache.next, outcome⟩, now⟩ :: cache.entries.take (cache.limit - 1)
        next := cache.next + 1 },
        .caching key.schema (Compilation.failure? ⟨cache.next, outcome⟩) ::
          (cache.entries.drop (cache.limit - 1)).map fun entry => .evicted entry.key.schema⟩ := by
  let made : CacheEntry := ⟨key, ⟨cache.next, outcome⟩, now⟩
  have free : cache.find? made.key = none := absent
  obtain ⟨pushed, gone⟩ := push_of_absent free bounded
  rw [store_of_dead (not_live_of_absent absent), pushed, if_neg (not_contains_of_absent absent),
    gone]

theorem store_cases (cache : Cache) (expired : CacheEntry → Bool) (now : Nat) (key : CacheKey)
    (outcome : Outcome) :
    (∃ entry, cache.Live expired key entry ∧ cache.store expired now key outcome =
      ⟨entry.compilation, cache.touch entry, [.storedMeanwhile key.schema]⟩) ∨
    ((∀ entry, ¬ cache.Live expired key entry) ∧ ∃ rest events,
      rest.Sublist (cache.others key) ∧ cache.store expired now key outcome =
        ⟨⟨cache.next, outcome⟩, { cache with
          entries := ⟨key, ⟨cache.next, outcome⟩, now⟩ :: rest
          next := cache.next + 1 }, events⟩) := by
  by_cases live : ∃ entry, cache.Live expired key entry
  · obtain ⟨entry, live⟩ := live
    exact .inl ⟨entry, live, store_of_live live now outcome⟩
  · have dead := not_exists.mp live
    obtain ⟨rest, part, pushed⟩ := cache.exists_push ⟨key, ⟨cache.next, outcome⟩, now⟩
    exact .inr ⟨dead, rest, _, part, by rw [store_of_dead dead, pushed]⟩

theorem mem_lookup (found : entry ∈ (cache.lookup expired key).cache.entries) :
    entry ∈ cache.entries := by
  rcases cache.lookup_cases expired key with hit | old | miss
  · obtain ⟨held, live, looked⟩ := hit
    rw [looked] at found
    exact mem_touch (mem_of_found live.1).1 found
  · obtain ⟨held, _, _, looked⟩ := old
    rw [looked] at found
    exact (mem_others.mp found).1
  · rw [miss.2] at found
    exact found

theorem next_lookup : (cache.lookup expired key).cache.next = cache.next := by
  rcases cache.lookup_cases expired key with hit | old | miss
  · obtain ⟨held, _, looked⟩ := hit
    rw [looked]
    rfl
  · obtain ⟨held, _, _, looked⟩ := old
    rw [looked]
  · rw [miss.2]

theorem held_of_answer_lookup {compilation : Compilation}
    (answered : (cache.lookup expired key).answer = some compilation) :
    ∃ entry ∈ cache.entries, entry.key = key ∧ entry.compilation = compilation := by
  rcases cache.lookup_cases expired key with hit | old | miss
  · obtain ⟨held, live, looked⟩ := hit
    rw [looked] at answered
    obtain ⟨member, own⟩ := mem_of_found live.1
    exact ⟨held, member, own, Option.some.inj answered⟩
  · obtain ⟨held, _, _, looked⟩ := old
    rw [looked] at answered
    cases answered
  · rw [miss.2] at answered
    cases answered

theorem answer_store (cache : Cache) (expired : CacheEntry → Bool) (now : Nat) (key : CacheKey)
    (outcome : Outcome) :
    let stored := cache.store expired now key outcome
    (stored.cache.next = cache.next ∧ (∀ entry ∈ stored.cache.entries, entry ∈ cache.entries) ∧
      ∃ entry ∈ cache.entries, entry.key = key ∧ entry.compilation = stored.answer) ∨
    (stored.cache.next = cache.next + 1 ∧ stored.answer = ⟨cache.next, outcome⟩ ∧
      ∀ entry ∈ stored.cache.entries,
        entry ∈ cache.entries ∨ entry.key = key ∧ entry.compilation = stored.answer) := by
  intro stored
  rcases cache.store_cases expired now key outcome with kept | made
  · obtain ⟨entry, live, effect⟩ := kept
    obtain ⟨member, own⟩ := mem_of_found live.1
    rw [show stored = _ from effect]
    exact .inl ⟨rfl, fun other found => mem_touch member found, entry, member, own, rfl⟩
  · obtain ⟨_, rest, events, part, effect⟩ := made
    rw [show stored = _ from effect]
    refine .inr ⟨rfl, rfl, fun entry found => ?_⟩
    rcases List.mem_cons.mp found with rfl | found
    · exact .inr ⟨rfl, rfl⟩
    · exact .inl (mem_others.mp (part.subset found)).1

theorem mem_keys_of_schema (member : entry ∈ cache.entries) {schema : SchemaId} :
    entry.key ∈ (cache.entries.map CacheEntry.key).filter (fun key => key.schema = schema) ↔
      entry.key.schema = schema := by
  rw [List.mem_filter, decide_eq_true_iff]
  exact and_iff_right (List.mem_map_of_mem member)

/-- Popping the keys of a schema one by one leaves the others in order. -/
theorem invalidate_eq (cache : Cache) (schema : SchemaId) : cache.invalidate schema =
    let count := cache.entries.countP fun entry => entry.key.schema = schema
    ⟨count, { cache with entries := cache.entries.filter fun entry => entry.key.schema ≠ schema },
      [.invalidated schema count]⟩ := by
  have kept : (cache.entries.filter fun entry => entry.key ∉
      (cache.entries.map CacheEntry.key).filter fun key => key.schema = schema) =
        cache.entries.filter fun entry => entry.key.schema ≠ schema := by
    apply List.filter_congr
    intro entry member
    exact decide_eq_decide.mpr (not_congr (mem_keys_of_schema member))
  have count : ((cache.entries.map CacheEntry.key).filter fun key => key.schema = schema).length =
      cache.entries.countP fun entry => entry.key.schema = schema := by
    rw [← List.countP_eq_length_filter, List.countP_map]
    rfl
  rw [invalidate, foldl_pop, kept, count]

theorem invalidate_sublist (cache : Cache) (schema : SchemaId) :
    (cache.invalidate schema).cache.entries.Sublist cache.entries := by
  rw [invalidate_eq]
  exact List.filter_sublist

end PathQuery.Cache
