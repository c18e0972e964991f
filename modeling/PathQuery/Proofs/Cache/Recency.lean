import PathQuery.Proofs.Cache.Basic
import PathQuery.Proofs.Relevance
import Mathlib.Data.Finset.Card
import Mathlib.Data.List.Induction

namespace PathQuery

section Lists

variable {α : Type}

theorem mem_take_append_cons {front rest : List α} {a : α} (new : a ∉ front) (n : Nat) :
    a ∈ (front ++ a :: rest).take n ↔ front.length < n := by
  constructor
  · intro found
    by_contra long
    rw [List.take_append_of_le_length (by omega)] at found
    exact new (List.take_subset n front found)
  · intro short
    obtain ⟨more, rfl⟩ : ∃ more, n = front.length + (more + 1) := ⟨n - front.length - 1, by omega⟩
    simp [List.take_append]

variable [DecidableEq α]

theorem eraseDups_filter (keep : α → Bool) (as : List α) :
    (as.filter keep).eraseDups = as.eraseDups.filter keep := by
  match as with
  | [] => rfl
  | a :: as =>
    have shorter : (as.filter fun b => !b == a).length < as.length + 1 :=
      Nat.lt_succ_of_le (List.length_filter_le _ _)
    have ih := eraseDups_filter keep (as.filter fun b => !b == a)
    by_cases kept : keep a = true
    · rw [List.filter_cons_of_pos kept, List.eraseDups_cons, List.eraseDups_cons,
        List.filter_cons_of_pos kept, ← ih, List.filter_comm]
    · rw [List.filter_cons_of_neg kept, List.eraseDups_cons, List.filter_cons_of_neg kept, ← ih,
        List.filter_filter]
      congr 1
      apply List.filter_congr
      intro b _
      by_cases same : b = a
      · subst same
        simp [kept]
      · simp [same]
termination_by as.length

theorem nodup_eraseDups (as : List α) : as.eraseDups.Nodup := by
  induction as with
  | nil => exact List.nodup_nil
  | cons a as ih =>
    rw [List.eraseDups_cons, eraseDups_filter]
    exact List.nodup_cons.mpr ⟨by simp, ih.filter _⟩

theorem length_eraseDups (as : List α) : as.eraseDups.length = as.toFinset.card := by
  rw [← List.toFinset_card_of_nodup (nodup_eraseDups as)]
  congr 1
  ext a
  simp

theorem take_filter_ne {as : List α} (nodup : as.Nodup) (a : α) (n : Nat) :
    ((as.take (n + 1)).filter (· ≠ a)).take n = (as.filter (· ≠ a)).take n := by
  induction as generalizing n with
  | nil => rfl
  | cons b as ih =>
    obtain ⟨new, nodup⟩ := List.nodup_cons.mp nodup
    by_cases same : b = a
    · subst same
      have others {bs : List α} (part : bs ⊆ as) : bs.filter (· ≠ b) = bs := by
        apply List.filter_eq_self.mpr
        intro c inside
        simpa using ne_of_mem_of_not_mem (part inside) new
      rw [List.take_succ_cons, List.filter_cons_of_neg (by simp), List.filter_cons_of_neg (by simp),
        others (List.take_subset n as), others (List.Subset.refl as), List.take_take, Nat.min_self]
    · cases n with
      | zero => rfl
      | succ n =>
        rw [List.take_succ_cons, List.filter_cons_of_pos (by simpa using same),
          List.filter_cons_of_pos (by simpa using same), List.take_succ_cons, List.take_succ_cons,
          ih nodup]

end Lists

namespace Cache

open Lru

variable {cache : Cache} {now : Nat} {request : CompileRequest} {key : CacheKey}
  {entry : CacheEntry}

def keys (cache : Cache) : List CacheKey := cache.entries.map CacheEntry.key

theorem keys_others : (cache.others key).map CacheEntry.key = cache.keys.filter (· ≠ key) := by
  rw [others, keys, List.filter_map]
  rfl

theorem store_without (bounded : cache.entries.length ≤ cache.limit)
    (expired : CacheEntry → Bool) (now : Nat) (key : CacheKey) (outcome : Outcome) :
    (cache.without key).store expired now key outcome =
      ⟨⟨cache.next, outcome⟩, { cache with
        entries := ⟨key, ⟨cache.next, outcome⟩, now⟩ :: (cache.others key).take (cache.limit - 1)
        next := cache.next + 1 },
        .caching key.schema (Compilation.failure? ⟨cache.next, outcome⟩) ::
          ((cache.others key).drop (cache.limit - 1)).map fun entry =>
            .evicted entry.key.schema⟩ :=
  store_of_absent (cache.find?_pop key) ((List.length_filter_le _ _).trans bounded) expired now
    outcome

theorem length_keys_filter_lt (bounded : cache.entries.length ≤ cache.limit)
    (held : key ∈ cache.keys) : (cache.keys.filter (· ≠ key)).length < cache.limit := by
  obtain ⟨entry, member, own⟩ := List.mem_map.mp held
  rw [← keys_others, List.length_map]
  exact (length_others_lt member own).trans_le bounded

def missEvents (cache : Cache) (request : CompileRequest) : List CacheEvent :=
  let schema := request.key.schema
  (if request.key ∈ cache.keys then [.expired schema] else []) ++ .miss schema ::
    .caching schema (Compilation.failure? ⟨cache.next, request.outcome⟩) ::
      ((cache.keys.filter (· ≠ request.key)).drop (cache.limit - 1)).map fun key =>
        .evicted key.schema

theorem missEvents_of_held (bounded : cache.entries.length ≤ cache.limit)
    (held : request.key ∈ cache.keys) : cache.missEvents request =
      [.expired request.key.schema, .miss request.key.schema, .caching request.key.schema
        (Compilation.failure? ⟨cache.next, request.outcome⟩)] := by
  have few := length_keys_filter_lt bounded held
  rw [missEvents, if_pos held, List.drop_eq_nil_of_le (Nat.le_sub_one_of_lt few)]
  rfl

theorem missEvents_of_absent (absent : cache.find? request.key = none) :
    cache.missEvents request = .miss request.key.schema :: .caching request.key.schema
      (Compilation.failure? ⟨cache.next, request.outcome⟩) ::
        (cache.keys.drop (cache.limit - 1)).map fun key => .evicted key.schema := by
  have new : request.key ∉ cache.keys := find?_eq_none_iff_notMem.mp absent
  rw [missEvents, if_neg new, ← keys_others, others_eq_self absent]
  rfl

theorem compile_of_live (live : cache.Live (cache.isExpired now) request.key entry) :
    cache.compile now request = ⟨entry.compilation, cache.touch entry,
      [.hit request.key.schema entry.compilation.failure?]⟩ := by
  rw [compile, lookup_of_live live]

theorem compile_of_dead (bounded : cache.entries.length ≤ cache.limit)
    (dead : ∀ entry, ¬ cache.Live (cache.isExpired now) request.key entry) :
    cache.compile now request = ⟨⟨cache.next, request.outcome⟩, { cache with
      entries := ⟨request.key, ⟨cache.next, request.outcome⟩, now⟩ ::
        (cache.others request.key).take (cache.limit - 1)
      next := cache.next + 1 }, cache.missEvents request⟩ := by
  rw [compile, lookup_of_dead dead]
  simp only [store_without bounded, missEvents, ← keys_others, ← List.map_drop, List.map_map,
    contains_iff, List.append_assoc, List.singleton_append]
  rfl

theorem compile_cases (bounded : cache.entries.length ≤ cache.limit) (now : Nat)
    (request : CompileRequest) :
    (∃ entry, cache.Live (cache.isExpired now) request.key entry ∧
      cache.compile now request = ⟨entry.compilation, cache.touch entry,
        [.hit request.key.schema entry.compilation.failure?]⟩) ∨
    ((∀ entry, ¬ cache.Live (cache.isExpired now) request.key entry) ∧
      cache.compile now request = ⟨⟨cache.next, request.outcome⟩, { cache with
        entries := ⟨request.key, ⟨cache.next, request.outcome⟩, now⟩ ::
          (cache.others request.key).take (cache.limit - 1)
        next := cache.next + 1 }, cache.missEvents request⟩) := by
  by_cases live : ∃ entry, cache.Live (cache.isExpired now) request.key entry
  · obtain ⟨entry, live⟩ := live
    exact .inl ⟨entry, live, compile_of_live live⟩
  · have dead := not_exists.mp live
    exact .inr ⟨dead, compile_of_dead bounded dead⟩

theorem settings_compile (bounded : cache.entries.length ≤ cache.limit) :
    (cache.compile now request).cache.limit = cache.limit ∧
      (cache.compile now request).cache.ttl? = cache.ttl? := by
  rcases compile_cases bounded now request with hit | miss
  · obtain ⟨_, _, effect⟩ := hit
    rw [effect]
    exact ⟨rfl, rfl⟩
  · rw [miss.2]
    exact ⟨rfl, rfl⟩

/-- Whether or not a call is answered from an entry, its key comes first and the others stay behind
it as far as there is room. -/
theorem keys_compile (positive : 0 < cache.limit) (bounded : cache.entries.length ≤ cache.limit)
    (now : Nat) (request : CompileRequest) :
    (cache.compile now request).cache.keys =
      (request.key :: cache.keys.filter (· ≠ request.key)).take cache.limit := by
  obtain ⟨more, room⟩ : ∃ more, cache.limit = more + 1 := ⟨cache.limit - 1, by omega⟩
  rcases compile_cases bounded now request with hit | miss
  · obtain ⟨entry, live, effect⟩ := hit
    obtain ⟨member, own⟩ := mem_of_found live.1
    have few := length_keys_filter_lt bounded (List.mem_map.mpr ⟨entry, member, own⟩)
    have short : (cache.keys.filter (· ≠ request.key)).length ≤ more := by omega
    rw [effect, room, List.take_succ_cons, List.take_of_length_le short, ← keys_others, ← own]
    rfl
  · rw [miss.2, room, List.take_succ_cons, ← keys_others, ← List.map_take]
    rfl

theorem compilation_of_mem_compile (bounded : cache.entries.length ≤ cache.limit)
    (member : entry ∈ (cache.compile now request).cache.entries) (own : entry.key = request.key) :
    entry.compilation = (cache.compile now request).answer := by
  rcases compile_cases bounded now request with hit | miss
  · obtain ⟨held, live, effect⟩ := hit
    rw [effect] at member ⊢
    rcases List.mem_cons.mp member with same | other
    · rw [same]
    · exact absurd (own.trans (mem_of_found live.1).2.symm) (mem_others.mp other).2
  · rw [miss.2] at member ⊢
    rcases List.mem_cons.mp member with same | other
    · rw [same]
    · exact absurd own (mem_others.mp (List.take_subset _ _ other)).2

theorem mem_of_mem_compile (bounded : cache.entries.length ≤ cache.limit)
    (member : entry ∈ (cache.compile now request).cache.entries) (other : entry.key ≠ request.key) :
    entry ∈ cache.entries := by
  rcases compile_cases bounded now request with hit | miss
  · obtain ⟨held, live, effect⟩ := hit
    rw [effect] at member
    exact mem_touch (mem_of_found live.1).1 member
  · rw [miss.2] at member
    rcases List.mem_cons.mp member with rfl | inside
    · exact absurd rfl other
    · exact (mem_others.mp (List.take_subset _ _ inside)).1

end Cache

structure Visit where
  now : Nat
  request : CompileRequest

def Visit.key (visit : Visit) : CacheKey := visit.request.key

/-- No entry that one of the visits stores has expired when another one comes. -/
def Settings.Outlasts (settings : Settings) (visits : List Visit) : Prop :=
  ∀ ttl ∈ settings.ttl?, ∀ earlier ∈ visits, ∀ later ∈ visits,
    later.now - earlier.now < ttl.nanoseconds

def recentKeys (visits : List Visit) : List CacheKey := (visits.map Visit.key).reverse.eraseDups

theorem recentKeys_concat (visits : List Visit) (visit : Visit) :
    recentKeys (visits ++ [visit]) =
      visit.key :: (recentKeys visits).filter (· ≠ visit.key) := by
  rw [recentKeys, List.map_append, List.reverse_append, List.map_singleton, List.reverse_singleton,
    List.singleton_append, List.eraseDups_cons, eraseDups_filter]
  congr 1
  apply List.filter_congr
  intro key _
  by_cases same : key = visit.key <;> simp [same]

namespace Cache

open Lru

variable {settings : Settings} {visits : List Visit}

def serve (cache : Cache) (visits : List Visit) : Cache :=
  visits.foldl (fun cache visit => (cache.compile visit.now visit.request).cache) cache

theorem serve_concat (cache : Cache) (visits : List Visit) (visit : Visit) :
    cache.serve (visits ++ [visit]) =
      ((cache.serve visits).compile visit.now visit.request).cache := by
  rw [serve, serve, List.foldl_append]
  rfl

structure Ranks (settings : Settings) (visits : List Visit) (cache : Cache) : Prop where
  limit : cache.limit = settings.limit
  ttl : cache.ttl? = settings.ttl?
  keys : cache.keys = (recentKeys visits).take settings.limit
  stored : ∀ entry ∈ cache.entries, ∃ visit ∈ visits, visit.now = entry.storedAt

section Ranks

variable {cache : Cache} (ranks : Ranks settings visits cache)

include ranks

theorem Ranks.bounded : cache.entries.length ≤ cache.limit := by
  have length := congrArg List.length ranks.keys
  rw [Cache.keys, List.length_map, List.length_take] at length
  rw [ranks.limit]
  omega

theorem Ranks.compile (visit : Visit) :
    Ranks settings (visits ++ [visit]) (cache.compile visit.now visit.request).cache where
  limit := (settings_compile ranks.bounded).1.trans ranks.limit
  ttl := (settings_compile ranks.bounded).2.trans ranks.ttl
  keys := by
    have positive : 0 < cache.limit := ranks.limit ▸ settings.limit_positive
    obtain ⟨more, room⟩ : ∃ more, settings.limit = more + 1 :=
      ⟨settings.limit - 1, by rw [ranks.limit] at positive; omega⟩
    have nodup : (recentKeys visits).Nodup := nodup_eraseDups _
    rw [keys_compile positive ranks.bounded, recentKeys_concat, ranks.limit, ranks.keys, room,
      List.take_succ_cons, List.take_succ_cons]
    exact congrArg _ (take_filter_ne nodup visit.key more)
  stored entry member := by
    have before (inside : entry ∈ cache.entries) :
        ∃ earlier ∈ visits ++ [visit], earlier.now = entry.storedAt := by
      obtain ⟨earlier, made, same⟩ := ranks.stored entry inside
      exact ⟨earlier, List.mem_append_left _ made, same⟩
    rcases compile_cases ranks.bounded visit.now visit.request with hit | miss
    · obtain ⟨held, live, effect⟩ := hit
      rw [effect] at member
      exact before (mem_touch (mem_of_found live.1).1 member)
    · rw [miss.2] at member
      rcases List.mem_cons.mp member with rfl | inside
      · exact ⟨visit, List.mem_concat_self, rfl⟩
      · exact before (mem_others.mp (List.take_subset _ _ inside)).1

theorem Ranks.lives {visit : Visit} (lasting : settings.Outlasts (visits ++ [visit]))
    {entry : CacheEntry} (member : entry ∈ cache.entries) :
    cache.isExpired visit.now entry = false := by
  obtain ⟨earlier, made, same⟩ := ranks.stored entry member
  rw [isExpired, ranks.ttl]
  cases given : settings.ttl? with
  | none => rfl
  | some ttl =>
    have short := lasting ttl given earlier (List.mem_append_left _ made) visit
      List.mem_concat_self
    rw [same] at short
    simpa using short

end Ranks

theorem ranks_serve (settings : Settings) (visits : List Visit) :
    Ranks settings visits ((ofSettings settings).serve visits) := by
  induction visits using List.reverseRecOn with
  | nil =>
    have empty : (ofSettings settings).entries = [] := rfl
    exact ⟨rfl, rfl, by simp [serve, empty, recentKeys, keys], by simp [serve, empty]⟩
  | append_singleton visits visit ih =>
    rw [serve_concat]
    exact ih.compile visit

end Cache

/-- The key was asked for and, since the last time, fewer other keys than the given number. -/
def AskedWithin (limit : Nat) (visits : List Visit) (key : CacheKey) : Prop :=
  ∃ older previous newer, visits = older ++ previous :: newer ∧ previous.key = key ∧
    (∀ other ∈ newer, other.key ≠ key) ∧ (newer.map Visit.key).toFinset.card < limit

section Last

variable {visits older newer : List Visit} {previous : Visit} {key : CacheKey}

theorem exists_last (asked : key ∈ visits.map Visit.key) :
    ∃ older previous newer, visits = older ++ previous :: newer ∧ previous.key = key ∧
      ∀ other ∈ newer, other.key ≠ key := by
  induction visits using List.reverseRecOn with
  | nil => cases asked
  | append_singleton visits visit ih =>
    by_cases own : visit.key = key
    · exact ⟨visits, visit, [], rfl, own, by simp⟩
    · have before : key ∈ visits.map Visit.key := by
        simpa [Ne.symm own] using asked
      obtain ⟨older, previous, newer, rfl, same, others⟩ := ih before
      refine ⟨older, previous, newer ++ [visit], by simp, same, fun other member => ?_⟩
      rcases List.mem_append.mp member with member | member
      · exact others other member
      · rwa [List.mem_singleton.mp member]

theorem mem_take_recentKeys (others : ∀ other ∈ newer, other.key ≠ previous.key) (limit : Nat) :
    previous.key ∈ (recentKeys (older ++ previous :: newer)).take limit ↔
      (newer.map Visit.key).toFinset.card < limit := by
  have new : previous.key ∉ (newer.map Visit.key).reverse := by
    simpa using others
  have ranked : ∃ rest, recentKeys (older ++ previous :: newer) =
      (newer.map Visit.key).reverse.eraseDups ++ previous.key :: rest := by
    rw [recentKeys, List.map_append, List.map_cons, List.reverse_append, List.reverse_cons,
      List.append_assoc, List.singleton_append, List.eraseDups_append, List.cons_removeAll,
      if_pos (by simpa using others), List.eraseDups_cons]
    exact ⟨_, rfl⟩
  obtain ⟨rest, ranked⟩ := ranked
  rw [ranked, mem_take_append_cons (by rwa [List.mem_eraseDups]), length_eraseDups,
    List.toFinset_reverse]

theorem mem_take_recentKeys_iff {limit : Nat} :
    key ∈ (recentKeys visits).take limit ↔ AskedWithin limit visits key := by
  constructor
  · intro found
    have asked : key ∈ visits.map Visit.key := by
      simpa [recentKeys] using List.take_subset _ _ found
    obtain ⟨older, previous, newer, rfl, rfl, others⟩ := exists_last asked
    exact ⟨older, previous, newer, rfl, rfl, others, (mem_take_recentKeys others limit).mp found⟩
  · intro within
    obtain ⟨older, previous, newer, rfl, rfl, others, few⟩ := within
    exact (mem_take_recentKeys others limit).mpr few

end Last

namespace Cache

open Lru

/-- A call is answered by its lookup, with what the cache holds under its key. -/
def Reuses (cache : Cache) (visit : Visit) : Prop :=
  let made := cache.compile visit.now visit.request
  ∃ entry ∈ cache.entries, entry.key = visit.key ∧
    (cache.lookup (cache.isExpired visit.now) visit.key).answer = some entry.compilation ∧
    made.answer = entry.compilation ∧
    made.events = [.hit visit.key.schema entry.compilation.failure?] ∧
    made.cache.next = cache.next

/-- A call finds nothing, compiles, and stores what comes out, which may cost another entry. -/
def Recompiles (cache : Cache) (visit : Visit) : Prop :=
  let made := cache.compile visit.now visit.request
  (cache.lookup (cache.isExpired visit.now) visit.key).answer = none ∧
    made.answer = ⟨cache.next, visit.request.outcome⟩ ∧
    made.events = .miss visit.key.schema :: .caching visit.key.schema made.answer.failure? ::
      ((cache.keys.drop (cache.limit - 1)).map fun key => .evicted key.schema) ∧
    made.cache.next = cache.next + 1

section Reuses

variable {visit : Visit} {cache : Cache} {entry : CacheEntry}

theorem reuses_of_live (live : cache.Live (cache.isExpired visit.now) visit.key entry) :
    cache.Reuses visit := by
  obtain ⟨member, own⟩ := mem_of_found live.1
  have effect := compile_of_live live
  exact ⟨entry, member, own, by rw [lookup_of_live live], by rw [effect], by rw [effect]; rfl,
    by rw [effect]; rfl⟩

theorem recompiles_of_absent (bounded : cache.entries.length ≤ cache.limit)
    (absent : cache.find? visit.key = none) : cache.Recompiles visit := by
  have dead (held) : ¬ cache.Live (cache.isExpired visit.now) visit.key held :=
    not_live_of_absent absent held
  have effect := compile_of_dead bounded dead
  have events := missEvents_of_absent absent
  exact ⟨by rw [lookup_of_dead dead], by rw [effect], by rw [effect, events]; rfl,
    by rw [effect]⟩

theorem Reuses.contains (reuses : cache.Reuses visit) : cache.contains visit.key = true := by
  obtain ⟨entry, member, own, _⟩ := reuses
  exact contains_iff.mpr (List.mem_map.mpr ⟨entry, member, own⟩)

theorem Recompiles.not_reuses (recompiles : cache.Recompiles visit) : ¬ cache.Reuses visit := by
  intro reuses
  obtain ⟨entry, _, _, found, _⟩ := reuses
  cases recompiles.1.symm.trans found

end Reuses

/-- While no other call of its key comes, what the cache holds under it is the answer to the last
one. -/
theorem compilation_of_mem_serve {settings : Settings} {older newer : List Visit} {previous : Visit}
    (others : ∀ other ∈ newer, other.key ≠ previous.key) {entry : CacheEntry}
    (member : entry ∈ ((ofSettings settings).serve (older ++ previous :: newer)).entries)
    (own : entry.key = previous.key) : entry.compilation =
      (((ofSettings settings).serve older).compile previous.now previous.request).answer := by
  induction newer using List.reverseRecOn with
  | nil =>
    rw [serve_concat] at member
    exact compilation_of_mem_compile (ranks_serve settings older).bounded member own
  | append_singleton newer visit ih =>
    have before := ranks_serve settings (older ++ previous :: newer)
    have other : entry.key ≠ visit.request.key := by
      rw [own]
      exact (others visit List.mem_concat_self).symm
    rw [← List.cons_append, ← List.append_assoc, serve_concat] at member
    apply ih fun other inside => others other (List.mem_append_left _ inside)
    exact mem_of_mem_compile before.bounded member other

/-- As long as nothing expires, a cache that serves calls one after another holds the keys asked for
most recently, each once and as many as it has room for. A call is answered from the cache exactly
if fewer other keys than that have been asked for since the last call of its key, and then with the
answer to that one; else it compiles. -/
theorem holds_most_recent_keys (settings : Settings) (visits : List Visit) (visit : Visit)
    (lasting : settings.Outlasts (visits ++ [visit])) :
    let cache := (ofSettings settings).serve visits
    let made := cache.compile visit.now visit.request
    made.cache.keys = (recentKeys (visits ++ [visit])).take settings.limit ∧
    (cache.Reuses visit ↔ AskedWithin settings.limit visits visit.key) ∧
    (cache.Recompiles visit ↔ ¬ AskedWithin settings.limit visits visit.key) ∧
    ∀ older previous newer, visits = older ++ previous :: newer → previous.key = visit.key →
      (∀ other ∈ newer, other.key ≠ visit.key) → cache.Reuses visit →
        made.answer =
          (((ofSettings settings).serve older).compile previous.now previous.request).answer := by
  intro cache made
  have ranks := ranks_serve settings visits
  have held_iff : cache.contains visit.key = true ↔
      AskedWithin settings.limit visits visit.key := by
    rw [← mem_take_recentKeys_iff, ← ranks.keys]
    exact contains_iff
  have reuses (held : cache.contains visit.key = true) : cache.Reuses visit := by
    obtain ⟨entry, found⟩ := Option.isSome_iff_exists.mp held
    exact reuses_of_live ⟨found, ranks.lives lasting (mem_of_found found).1⟩
  have recompiles (new : ¬ cache.contains visit.key = true) : cache.Recompiles visit :=
    recompiles_of_absent ranks.bounded (Option.not_isSome_iff_eq_none.mp new)
  refine ⟨(ranks.compile visit).keys, ?_, ?_, ?_⟩
  · exact ⟨fun reused => held_iff.mp reused.contains, fun within => reuses (held_iff.mpr within)⟩
  · constructor
    · intro recompiled within
      exact recompiled.not_reuses (reuses (held_iff.mpr within))
    · intro beyond
      exact recompiles (mt held_iff.mp beyond)
  · intro older previous newer split same others reused
    obtain ⟨entry, member, own, _, answer, _⟩ := reused
    subst split
    rw [← same] at others own
    exact answer.trans (compilation_of_mem_serve others member own)

end Cache

namespace Sample

def brief : Settings := { limit := 2, ttl? := some ⟨10, by decide⟩ }

def turn (now : Nat) (members : List (String × Literal)) : Visit :=
  ⟨now, ⟨⟨⟨1⟩, (cards []).view⟩, (cards members).spec⟩⟩

/-- Between two calls that fail for a key that is no name there are two of another key. -/
def turns : List Visit :=
  [turn 0 [("open", .null), ("late", .null)], turn 1 [("no name", .null)],
    turn 2 [("late", .null), ("open", .null)], turn 9 [("open", .null), ("late", .null)]]

end Sample

theorem holds_most_recent_keys_turns :
    let cache := (Cache.ofSettings Sample.brief).serve Sample.turns
    let again := Sample.turn 9 [("no name", .null)]
    let new := Sample.turn 9 [("late", .null)]
    Sample.brief.Outlasts (Sample.turns ++ [again]) ∧ cache.Reuses again ∧
      (cache.compile again.now again.request).answer.serial = 1 ∧
      (cache.compile again.now again.request).answer.failure?.isSome = true ∧
    Sample.brief.Outlasts (Sample.turns ++ [new]) ∧ cache.Recompiles new ∧
      (cache.compile new.now new.request).events =
        [.miss ⟨1⟩, .caching ⟨1⟩ none, .evicted ⟨1⟩] := by
  intro cache again new
  have lasting : Sample.brief.Outlasts (Sample.turns ++ [again]) := by
    intro ttl given
    cases given
    simp [again, Sample.turns, Sample.turn]
  have lasting' : Sample.brief.Outlasts (Sample.turns ++ [new]) := by
    intro ttl given
    cases given
    simp [new, Sample.turns, Sample.turn]
  have within : AskedWithin Sample.brief.limit Sample.turns again.key :=
    ⟨Sample.turns.take 1, Sample.turn 1 [("no name", .null)], Sample.turns.drop 2, rfl, rfl,
      by decide +kernel, by decide +kernel⟩
  have never : ¬ AskedWithin Sample.brief.limit Sample.turns new.key := by
    rw [← mem_take_recentKeys_iff]
    decide +kernel
  obtain ⟨_, reuses, _⟩ :=
    Cache.holds_most_recent_keys Sample.brief Sample.turns again lasting
  obtain ⟨_, _, recompiles, _⟩ :=
    Cache.holds_most_recent_keys Sample.brief Sample.turns new lasting'
  exact ⟨lasting, reuses.mpr within, by decide +kernel, by decide +kernel, lasting',
    recompiles.mpr never, by decide +kernel⟩

end PathQuery
