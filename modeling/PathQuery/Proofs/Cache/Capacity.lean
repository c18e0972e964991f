import PathQuery.Proofs.Cache.Convergence
import PathQuery.Proofs.Cache.Recency

namespace PathQuery

/-- Half of a call, or a way to empty a cache. What has expired is decided anew, and freely, at each
step. -/
inductive CacheStep where
  | lookup (expired : CacheEntry → Bool) (key : CacheKey)
  | store (expired : CacheEntry → Bool) (now : Nat) (key : CacheKey) (outcome : Outcome)
  | clear
  | invalidate (schema : SchemaId)

def CacheStep.key? : CacheStep → Option CacheKey
  | .lookup _ key | .store _ _ key _ => some key
  | .clear | .invalidate _ => none

/-- The other key has been used since the last use of the key. -/
def UsedSince (steps : List CacheStep) (key other : CacheKey) : Prop :=
  ∃ earlier later, steps = earlier ++ later ∧ (∀ step ∈ later, step.key? ≠ some key) ∧
    ∃ step ∈ later, step.key? = some other

theorem UsedSince.concat {steps : List CacheStep} {key other : CacheKey}
    (since : UsedSince steps key other) {step : CacheStep} (unused : step.key? ≠ some key) :
    UsedSince (steps ++ [step]) key other := by
  obtain ⟨earlier, later, rfl, none, used, member, own⟩ := since
  refine ⟨earlier, later ++ [step], by rw [List.append_assoc], fun next inside => ?_,
    used, List.mem_append_left _ member, own⟩
  rcases List.mem_append.mp inside with inside | inside
  · exact none next inside
  · rwa [List.mem_singleton.mp inside]

theorem usedSince_last (steps : List CacheStep) {step : CacheStep} {key other : CacheKey}
    (unused : step.key? ≠ some key) (used : step.key? = some other) :
    UsedSince (steps ++ [step]) key other :=
  ⟨steps, [step], rfl, by simpa using unused, step, List.mem_singleton_self step, used⟩

def CacheEvent.evicted? : CacheEvent → Option SchemaId
  | .evicted schema => some schema
  | _ => none

def evictions (events : List CacheEvent) : List SchemaId := events.filterMap CacheEvent.evicted?

theorem evictions_evicted {α : Type} (schemaOf : α → SchemaId) (as : List α) :
    evictions (as.map fun a => .evicted (schemaOf a)) = as.map schemaOf := by
  rw [evictions, List.filterMap_map, ← List.filterMap_eq_map]
  rfl

namespace Cache

open Lru

variable {cache : Cache} {expired : CacheEntry → Bool} {key : CacheKey} {now : Nat}
  {outcome : Outcome}

def perform (cache : Cache) : CacheStep → Cache
  | .lookup expired key => (cache.lookup expired key).cache
  | .store expired now key outcome => (cache.store expired now key outcome).cache
  | .clear => cache.clear
  | .invalidate schema => (cache.invalidate schema).cache

def performAll (cache : Cache) (steps : List CacheStep) : Cache := steps.foldl perform cache

theorem performAll_concat (cache : Cache) (steps : List CacheStep) (step : CacheStep) :
    cache.performAll (steps ++ [step]) = (cache.performAll steps).perform step := by
  rw [performAll, List.foldl_append]
  rfl

section Frames

theorem others_touch {entry : CacheEntry} (own : entry.key = key) :
    (cache.touch entry).others key = cache.others key :=
  others_toFront own

theorem find?_eq_some (distinct : cache.Distinct) {held : CacheEntry}
    (member : held ∈ cache.entries) (own : held.key = key) : cache.find? key = some held := by
  cases found : cache.find? key with
  | none => exact absurd own (find?_eq_none_iff.mp found held member)
  | some other =>
    obtain ⟨inside, same⟩ := mem_of_found found
    rw [distinct.eq_of_key inside member (same.trans own.symm)]

/-- Looking up takes away an expired entry of the key and nothing else, and leaves the others in
order. -/
structure LookupFrame (cache : Cache) (expired : CacheEntry → Bool) (key : CacheKey) : Prop where
  mem_iff : ∀ entry, entry ∈ (cache.lookup expired key).cache.entries ↔
    entry ∈ cache.entries ∧ ¬ (entry.key = key ∧ expired entry = true)
  others_eq : (cache.lookup expired key).cache.others key = cache.others key

theorem lookupFrame (distinct : cache.Distinct) (expired : CacheEntry → Bool) (key : CacheKey) :
    cache.LookupFrame expired key := by
  rcases cache.lookup_cases expired key with hit | old | miss
  · obtain ⟨held, live, looked⟩ := hit
    obtain ⟨member, own⟩ := mem_of_found live.1
    refine ⟨fun entry => ?_, by rw [looked]; exact others_touch own⟩
    rw [looked, (distinct.touch_perm member).mem_iff]
    refine (and_iff_left_of_imp fun inside late => ?_).symm
    rw [distinct.eq_of_key inside member (late.1.trans own.symm), live.2] at late
    exact Bool.false_ne_true late.2
  · obtain ⟨held, found, late, looked⟩ := old
    obtain ⟨member, own⟩ := mem_of_found found
    refine ⟨fun entry => ?_, by rw [looked]; simp [others]⟩
    rw [looked, mem_others]
    refine and_congr_right fun inside => not_congr (and_iff_left_of_imp fun same => ?_).symm
    rwa [distinct.eq_of_key inside member (same.trans own.symm)]
  · obtain ⟨absent, looked⟩ := miss
    refine ⟨fun entry => ?_, by rw [looked]⟩
    rw [looked]
    refine (and_iff_left_of_imp fun inside late => ?_).symm
    exact find?_eq_none_iff.mp absent entry inside late.1

theorem store_of_held (distinct : cache.Distinct) {held : CacheEntry}
    (member : held ∈ cache.entries) (own : held.key = key) (expired : CacheEntry → Bool)
    (now : Nat) (outcome : Outcome) :
    (cache.store expired now key outcome).cache.entries =
      (if expired held then ⟨key, ⟨cache.next, outcome⟩, now⟩ else held) :: cache.others key ∧
    evictions (cache.store expired now key outcome).events = [] := by
  have found := find?_eq_some distinct member own
  cases late : expired held with
  | false =>
    rw [store_of_live ⟨found, late⟩, ← own]
    exact ⟨rfl, rfl⟩
  | true =>
    rw [store_of_expired found late]
    exact ⟨rfl, rfl⟩

theorem store_of_new (bounded : cache.entries.length ≤ cache.limit)
    (absent : cache.find? key = none) (expired : CacheEntry → Bool) (now : Nat)
    (outcome : Outcome) :
    (cache.store expired now key outcome).cache.entries =
      ⟨key, ⟨cache.next, outcome⟩, now⟩ :: cache.entries.take (cache.limit - 1) ∧
    evictions (cache.store expired now key outcome).events =
      (cache.entries.drop (cache.limit - 1)).map fun entry => entry.key.schema := by
  rw [store_of_absent absent bounded]
  exact ⟨rfl, evictions_evicted _ _⟩

/-- Invalidating takes away the entries of the schema, counts them, and leaves the others in
order. -/
structure InvalidateFrame (cache : Cache) (schema : SchemaId) : Prop where
  mem_iff : ∀ entry, entry ∈ (cache.invalidate schema).cache.entries ↔
    entry ∈ cache.entries ∧ entry.key.schema ≠ schema
  in_order : (cache.invalidate schema).cache.entries.Sublist cache.entries
  counted : (cache.invalidate schema).answer + (cache.invalidate schema).cache.size = cache.size

theorem invalidateFrame (cache : Cache) (schema : SchemaId) : cache.InvalidateFrame schema where
  mem_iff entry := by simp [invalidate_eq]
  in_order := cache.invalidate_sublist schema
  counted := by
    have split := @List.length_eq_countP_add_countP _
      (fun entry : CacheEntry => decide (entry.key.schema = schema)) cache.entries
    rw [size, size, split]
    simp [invalidate_eq, List.countP_eq_length_filter]

/-- Storing under a key that is there replaces its entry if that has expired, and leaves all others
as they are. Under a new key it takes away nothing while there is room, and else the one entry that
has been unused for longest, and reports that one. -/
structure StoreFrame (cache : Cache) (limit : Nat) (steps : List CacheStep)
    (expired : CacheEntry → Bool) (now : Nat) (key : CacheKey) (outcome : Outcome) : Prop where
  held : ∀ held ∈ cache.entries, held.key = key →
    (cache.store expired now key outcome).cache.entries =
        (if expired held then ⟨key, ⟨cache.next, outcome⟩, now⟩ else held) :: cache.others key ∧
      evictions (cache.store expired now key outcome).events = []
  room : key ∉ cache.keys → cache.size < limit →
    (cache.store expired now key outcome).cache.entries =
        ⟨key, ⟨cache.next, outcome⟩, now⟩ :: cache.entries ∧
      evictions (cache.store expired now key outcome).events = []
  full : key ∉ cache.keys → limit ≤ cache.size → ∃ kept last, cache.entries = kept ++ [last] ∧
    (∀ other ∈ kept, UsedSince steps last.key other.key) ∧
    (cache.store expired now key outcome).cache.entries =
        ⟨key, ⟨cache.next, outcome⟩, now⟩ :: kept ∧
      evictions (cache.store expired now key outcome).events = [last.key.schema]

end Frames

/-- A step puts at most one entry, of the key it uses, in front of some others in order. -/
structure Renews (cache after : Cache) (used? : Option CacheKey) (front? : Option CacheEntry)
    (rest : List CacheEntry) : Prop where
  split : after.entries = front?.toList ++ rest
  used : ∀ front ∈ front?, used? = some front.key
  in_order : rest.Sublist cache.entries
  unused : ∀ entry ∈ rest, used? ≠ some entry.key

theorem renews_of_used {after : Cache} {front? : Option CacheEntry} {rest : List CacheEntry}
    (split : after.entries = front?.toList ++ rest) (own : ∀ front ∈ front?, front.key = key)
    (part : rest.Sublist (cache.others key)) : cache.Renews after (some key) front? rest where
  split := split
  used front is := congrArg some (own front is).symm
  in_order := part.trans List.filter_sublist
  unused _ member same := (mem_others.mp (part.subset member)).2 (Option.some.inj same).symm

theorem renews_of_unused {after : Cache} (part : after.entries.Sublist cache.entries) :
    cache.Renews after none none after.entries where
  split := rfl
  used _ is := by cases is
  in_order := part
  unused _ _ := nofun

theorem exists_renews (cache : Cache) (step : CacheStep) :
    ∃ front? rest, cache.Renews (cache.perform step) step.key? front? rest := by
  cases step with
  | lookup expired key =>
    rcases cache.lookup_cases expired key with hit | old | miss
    · obtain ⟨held, live, looked⟩ := hit
      obtain ⟨_, rfl⟩ := mem_of_found live.1
      exact ⟨some held, _, renews_of_used (by rw [perform, looked]; rfl) (by simp) (.refl _)⟩
    · obtain ⟨held, _, _, looked⟩ := old
      exact ⟨none, _, renews_of_used (by rw [perform, looked]; rfl) (by simp) (.refl _)⟩
    · obtain ⟨absent, looked⟩ := miss
      refine ⟨none, _, renews_of_used ?_ (by simp) (.refl _)⟩
      rw [perform, looked, others_eq_self absent]
      rfl
  | store expired now key outcome =>
    rcases cache.store_cases expired now key outcome with kept | made
    · obtain ⟨held, live, stored⟩ := kept
      obtain ⟨_, rfl⟩ := mem_of_found live.1
      exact ⟨some held, _, renews_of_used (by rw [perform, stored]; rfl) (by simp) (.refl _)⟩
    · obtain ⟨_, rest, events, part, stored⟩ := made
      exact ⟨some ⟨key, ⟨cache.next, outcome⟩, now⟩, rest,
        renews_of_used (by rw [perform, stored]; rfl) (by simp) part⟩
  | clear => exact ⟨none, _, renews_of_unused (List.nil_sublist _)⟩
  | invalidate schema => exact ⟨none, _, renews_of_unused (cache.invalidateFrame schema).in_order⟩

section Renews

variable {after : Cache} {used? : Option CacheKey} {front? : Option CacheEntry}
  {rest : List CacheEntry} (renews : cache.Renews after used? front? rest)

include renews

theorem Renews.distinct (distinct : cache.Distinct) : after.Distinct := by
  have kept : (rest.map CacheEntry.key).Nodup := (renews.in_order.map _).nodup distinct
  rw [Distinct, renews.split]
  cases front? with
  | none => exact kept
  | some front =>
    refine List.nodup_cons.mpr ⟨fun again => ?_, kept⟩
    obtain ⟨entry, member, own⟩ := List.mem_map.mp again
    exact renews.unused entry member (own ▸ renews.used front rfl)

theorem Renews.ranked {steps : List CacheStep} {step : CacheStep} (own : step.key? = used?)
    (ranked : cache.entries.Pairwise fun front back => UsedSince steps back.key front.key) :
    after.entries.Pairwise fun front back =>
      UsedSince (steps ++ [step]) back.key front.key := by
  subst own
  have kept : rest.Pairwise fun front back => UsedSince (steps ++ [step]) back.key front.key :=
    (ranked.sublist renews.in_order).imp_of_mem fun _ member since =>
      since.concat (renews.unused _ member)
  rw [renews.split]
  cases front? with
  | none => exact kept
  | some front =>
    refine List.pairwise_cons.mpr ⟨fun back member => ?_, kept⟩
    exact usedSince_last steps (renews.unused back member) (renews.used front rfl)

end Renews

theorem limit_perform (cache : Cache) (step : CacheStep) :
    (cache.perform step).limit = cache.limit := by
  cases step with
  | lookup expired key => exact limit_lookup
  | store expired now key outcome => exact limit_store
  | clear => rfl
  | invalidate schema => exact limit_invalidate

theorem length_store_le (positive : 0 < cache.limit)
    (bounded : cache.entries.length ≤ cache.limit) (distinct : cache.Distinct) :
    (cache.store expired now key outcome).cache.entries.length ≤ cache.limit := by
  cases found : cache.find? key with
  | some held =>
    obtain ⟨member, own⟩ := mem_of_found found
    have fewer := length_others_lt member own
    rw [(store_of_held distinct member own expired now outcome).1, List.length_cons]
    omega
  | none =>
    rw [(store_of_new bounded found expired now outcome).1, List.length_cons, List.length_take]
    omega

structure Within (limit : Nat) (steps : List CacheStep) (cache : Cache) : Prop where
  limit_eq : cache.limit = limit
  bounded : cache.entries.length ≤ limit
  distinct : cache.Distinct
  ranked : cache.entries.Pairwise fun front back => UsedSince steps back.key front.key

theorem Within.perform {limit : Nat} {steps : List CacheStep} (within : cache.Within limit steps)
    (positive : 0 < limit) (step : CacheStep) :
    (cache.perform step).Within limit (steps ++ [step]) := by
  obtain ⟨rfl, bounded, distinct, ranked⟩ := within
  obtain ⟨front?, rest, renews⟩ := cache.exists_renews step
  refine ⟨cache.limit_perform step, ?_, renews.distinct distinct, renews.ranked rfl ranked⟩
  cases step with
  | lookup expired key =>
    have part : (cache.lookup expired key).cache.entries ⊆ cache.entries :=
      fun entry found => mem_lookup found
    have nodup := List.Nodup.of_map _ (renews.distinct distinct)
    exact (List.subperm_of_subset nodup part).length_le.trans bounded
  | store expired now key outcome => exact length_store_le positive bounded distinct
  | clear => exact Nat.zero_le _
  | invalidate schema => exact (cache.invalidate_sublist schema).length_le.trans bounded

theorem within_performAll (settings : Settings) (steps : List CacheStep) :
    ((ofSettings settings).performAll steps).Within settings.limit steps := by
  induction steps using List.reverseRecOn with
  | nil => exact ⟨rfl, Nat.zero_le _, List.nodup_nil, List.Pairwise.nil⟩
  | append_singleton steps step ih =>
    rw [performAll_concat]
    exact ih.perform settings.limit_positive step

theorem Within.storeFrame {limit : Nat} {steps : List CacheStep} (within : cache.Within limit steps)
    (positive : 0 < limit) (expired : CacheEntry → Bool) (now : Nat) (key : CacheKey)
    (outcome : Outcome) : cache.StoreFrame limit steps expired now key outcome := by
  obtain ⟨rfl, bounded, distinct, ranked⟩ := within
  have stored (absent : key ∉ cache.keys) := store_of_new bounded
    (find?_eq_none_iff_notMem.mpr absent) expired now outcome
  refine ⟨fun held member own => store_of_held distinct member own expired now outcome,
    fun absent room => ?_, fun absent full => ?_⟩
  · obtain ⟨entries, evicted⟩ := stored absent
    have short : cache.entries.length ≤ cache.limit - 1 := Nat.le_sub_one_of_lt room
    rw [List.take_of_length_le short] at entries
    rw [List.drop_eq_nil_of_le short] at evicted
    exact ⟨entries, evicted⟩
  · obtain ⟨entries, evicted⟩ := stored absent
    have length : cache.entries.length = cache.limit := Nat.le_antisymm bounded full
    have some : cache.entries ≠ [] := List.ne_nil_of_length_pos (length ▸ positive)
    obtain ⟨kept, last, split⟩ := (List.eq_nil_or_concat cache.entries).resolve_left some
    rw [List.concat_eq_append] at split
    have beside : kept.length = cache.limit - 1 := by
      rw [← length, split, List.length_append, List.length_singleton, Nat.add_sub_cancel]
    rw [split, ← beside] at entries evicted
    rw [List.take_left] at entries
    rw [List.drop_left] at evicted
    rw [split] at ranked
    refine ⟨kept, last, split, fun other member => ?_, entries, evicted⟩
    exact (List.pairwise_append.mp ranked).2.2 other member last (List.mem_singleton_self last)

/-- Whatever has happened, a cache holds no more entries than its limit, with distinct keys, and
those used last stand in front. An entry goes away when its own key is asked for and it has expired,
when its schema is invalidated or everything is cleared, or when there is no room for a new key and
it has been unused for longest. -/
theorem loses_least_recently_used_only (settings : Settings) (steps : List CacheStep) :
    let cache := (ofSettings settings).performAll steps
    (cache.size ≤ settings.limit ∧ cache.keys.Nodup ∧
      cache.entries.Pairwise fun front back => UsedSince steps back.key front.key) ∧
    (∀ expired key, cache.LookupFrame expired key) ∧
    (∀ expired now key outcome,
      cache.StoreFrame settings.limit steps expired now key outcome) ∧
    (∀ schema, cache.InvalidateFrame schema) ∧ cache.clear.entries = [] := by
  intro cache
  have within := within_performAll settings steps
  exact ⟨⟨within.bounded, within.distinct, within.ranked⟩, lookupFrame within.distinct,
    within.storeFrame settings.limit_positive, cache.invalidateFrame, rfl⟩

end Cache

namespace Sample

def keyOf (schema : UInt64) : CacheKey := ⟨⟨schema⟩, .empty⟩

def uses : List CacheStep :=
  let never : CacheEntry → Bool := fun _ => false
  [.store never 0 (keyOf 1) (.error .noQueryRoot), .store never 1 (keyOf 2) (.error .noQueryRoot),
    .lookup never (keyOf 1)]

end Sample

theorem loses_least_recently_used_only_uses :
    let cache := (Cache.ofSettings Sample.brief).performAll Sample.uses
    cache.keys = [Sample.keyOf 1, Sample.keyOf 2] ∧
    evictions (cache.store (fun _ => false) 2 (Sample.keyOf 3) (.error .noQueryRoot)).events =
      [⟨2⟩] := by
  intro cache
  have keys : cache.keys = [Sample.keyOf 1, Sample.keyOf 2] := by decide +kernel
  obtain ⟨-, -, stores, -⟩ := Cache.loses_least_recently_used_only Sample.brief Sample.uses
  have stored := stores (fun _ => false) 2 (Sample.keyOf 3) (.error .noQueryRoot)
  obtain ⟨kept, last, split, -, -, evicted⟩ := stored.full (by decide +kernel) (by decide +kernel)
  have last_key : kept.map CacheEntry.key ++ [last.key] = [Sample.keyOf 1] ++ [Sample.keyOf 2] := by
    rw [← List.map_singleton, ← List.map_append, ← split]
    exact keys
  have own := (List.append_inj' last_key rfl).2
  rw [List.cons.injEq] at own
  exact ⟨keys, by rw [evicted, own.1]; rfl⟩

end PathQuery
