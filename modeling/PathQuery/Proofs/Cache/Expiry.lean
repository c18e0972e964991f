import PathQuery.Proofs.Cache.Capacity

namespace PathQuery

namespace SchemaIds

def referAll (ids : SchemaIds) : List SchemaView → List SchemaRef
  | [] => []
  | view :: rest => (ids.refer view).1 :: (ids.refer view).2.referAll rest

theorem map_id_referAll (ids : SchemaIds) (views : List SchemaView) :
    (ids.referAll views).map SchemaRef.id =
      (List.range views.length).map fun index => ⟨ids.next + .ofNat index⟩ := by
  induction views generalizing ids with
  | nil => rfl
  | cons view rest ih =>
    rw [referAll, List.map_cons, ih, List.length_cons, List.range_succ_eq_map, List.map_cons,
      List.map_map]
    congr 1
    · simp [refer]
    · refine List.map_congr_left fun index _ => ?_
      simp [refer, UInt64.ofNat_add, UInt64.add_assoc, UInt64.add_comm]

theorem nodup_referAll (ids : SchemaIds) {views : List SchemaView}
    (few : views.length < UInt64.size) : ((ids.referAll views).map SchemaRef.id).Nodup := by
  rw [map_id_referAll]
  refine List.Nodup.map_on (fun index here index' here' same => ?_) List.nodup_range
  rw [SchemaId.mk.injEq, UInt64.add_right_inj] at same
  rw [List.mem_range] at here here'
  have number := congrArg UInt64.toNat same
  rwa [UInt64.toNat_ofNat_of_lt' (by omega), UInt64.toNat_ofNat_of_lt' (by omega)] at number

end SchemaIds

inductive Operation where
  | compile (request : CompileRequest)
  | clear
  | invalidate (schema : SchemaId)

namespace Operation

def request? : Operation → Option CompileRequest
  | .compile request => some request
  | .clear | .invalidate _ => none

/-- What is left of the keys, the most recently used one first, when there is room for so many. -/
def rank (limit : Nat) (keys : List CacheKey) : Operation → List CacheKey
  | .compile request => (request.key :: keys.filter (· ≠ request.key)).take limit
  | .clear => []
  | .invalidate schema => keys.filter fun key => key.schema ≠ schema

end Operation

def requests (operations : List Operation) : List CompileRequest :=
  operations.filterMap Operation.request?

theorem mem_requests_concat {operations : List Operation} {operation : Operation}
    {request : CompileRequest} : request ∈ requests (operations ++ [operation]) ↔
      request ∈ requests operations ∨ operation.request? = some request := by
  simp [requests]

def ranking (limit : Nat) (operations : List Operation) : List CacheKey :=
  operations.foldl (Operation.rank limit) []

theorem ranking_concat (limit : Nat) (operations : List Operation) (operation : Operation) :
    ranking limit (operations ++ [operation]) =
      operation.rank limit (ranking limit operations) := by
  rw [ranking, List.foldl_append]
  rfl

theorem nodup_ranking (limit : Nat) (operations : List Operation) :
    (ranking limit operations).Nodup := by
  induction operations using List.reverseRecOn with
  | nil => exact List.nodup_nil
  | append_singleton operations operation ih =>
    rw [ranking_concat]
    cases operation with
    | compile request =>
      have front : (request.key :: (ranking limit operations).filter (· ≠ request.key)).Nodup :=
        List.nodup_cons.mpr ⟨by simp, ih.filter _⟩
      exact front.sublist (List.take_sublist _ _)
    | clear => exact List.nodup_nil
    | invalidate schema => exact ih.filter _

theorem Operation.length_rank_le {limit : Nat} {keys : List CacheKey} (short : keys.length ≤ limit)
    (operation : Operation) : (operation.rank limit keys).length ≤ limit := by
  cases operation with
  | compile request => exact List.length_take_le _ _
  | clear => exact Nat.zero_le _
  | invalidate schema => exact (List.length_filter_le _ _).trans short

theorem length_ranking_le (limit : Nat) (operations : List Operation) :
    (ranking limit operations).length ≤ limit := by
  induction operations using List.reverseRecOn with
  | nil => exact Nat.zero_le _
  | append_singleton operations operation ih =>
    rw [ranking_concat]
    exact operation.length_rank_le ih

namespace Cache

open Lru

variable {cache other : Cache} {now : Nat} {request : CompileRequest}

def operate (cache : Cache) (now : Nat) : Operation → Cache
  | .compile request => (cache.compile now request).cache
  | .clear => cache.clear
  | .invalidate schema => (cache.invalidate schema).cache

def operateAll (cache : Cache) (clock : Nat → Nat) (operations : List Operation) : Cache :=
  operations.zipIdx.foldl (fun cache next => cache.operate (clock next.2) next.1) cache

theorem operateAll_concat (cache : Cache) (clock : Nat → Nat) (operations : List Operation)
    (operation : Operation) :
    cache.operateAll clock (operations ++ [operation]) =
      (cache.operateAll clock operations).operate (clock operations.length) operation := by
  rw [operateAll, List.zipIdx_append, List.foldl_append, Nat.zero_add, List.zipIdx_singleton]
  rfl

theorem evictions_missEvents (cache : Cache) (request : CompileRequest) :
    evictions (cache.missEvents request) =
      ((cache.keys.filter (· ≠ request.key)).drop (cache.limit - 1)).map CacheKey.schema := by
  rw [← evictions_evicted]
  unfold missEvents
  split <;> rfl

theorem missEvents_congr (keys : cache.keys = other.keys) (limit : cache.limit = other.limit)
    (request : CompileRequest) : cache.missEvents request = other.missEvents request := by
  rw [missEvents, missEvents, keys, limit]
  rfl

section Operate

variable (bounded : cache.entries.length ≤ cache.limit)

include bounded

theorem settings_operate (now : Nat) (operation : Operation) :
    (cache.operate now operation).limit = cache.limit ∧
      (cache.operate now operation).ttl? = cache.ttl? := by
  cases operation with
  | compile request => exact settings_compile bounded
  | clear => exact ⟨rfl, rfl⟩
  | invalidate schema =>
    rw [operate, invalidate_eq]
    exact ⟨rfl, rfl⟩

/-- Neither time nor expiry makes a difference to the keys. -/
theorem keys_operate (positive : 0 < cache.limit) (now : Nat) (operation : Operation) :
    (cache.operate now operation).keys = operation.rank cache.limit cache.keys := by
  cases operation with
  | compile request => exact keys_compile positive bounded now request
  | clear => rfl
  | invalidate schema =>
    rw [operate, invalidate_eq, Operation.rank, keys, keys, List.filter_map]
    rfl

theorem mem_operate {operation : Operation} {entry : CacheEntry}
    (member : entry ∈ (cache.operate now operation).entries) :
    entry ∈ cache.entries ∨ ∃ request, operation = .compile request ∧
      entry.key = request.key ∧ entry.compilation = ⟨cache.next, request.outcome⟩ ∧
      (cache.operate now operation).next = cache.next + 1 := by
  cases operation with
  | compile request =>
    rcases compile_cases bounded now request with hit | miss
    · obtain ⟨held, live, effect⟩ := hit
      rw [operate, effect] at member
      exact .inl (mem_touch (mem_of_found live.1).1 member)
    · rw [operate, miss.2] at member
      rcases List.mem_cons.mp member with rfl | inside
      · exact .inr ⟨request, rfl, rfl, rfl, by rw [operate, miss.2]⟩
      · exact .inl (mem_others.mp (List.take_subset _ _ inside)).1
  | clear => cases member
  | invalidate schema => exact .inl ((cache.invalidate_sublist schema).subset member)

theorem evictions_compile (now : Nat) (request : CompileRequest) :
    evictions (cache.compile now request).events =
      ((cache.keys.filter (· ≠ request.key)).drop (cache.limit - 1)).map CacheKey.schema := by
  rcases compile_cases bounded now request with hit | miss
  · obtain ⟨held, live, effect⟩ := hit
    obtain ⟨member, own⟩ := mem_of_found live.1
    have few := length_keys_filter_lt bounded (List.mem_map.mpr ⟨held, member, own⟩)
    rw [effect, List.drop_eq_nil_of_le (Nat.le_sub_one_of_lt few)]
    rfl
  · rw [miss.2]
    exact evictions_missEvents cache request

end Operate

theorem answer_invalidate (cache : Cache) (schema : SchemaId) :
    (cache.invalidate schema).answer = cache.keys.countP fun key => key.schema = schema := by
  rw [invalidate_eq, keys, List.countP_map]
  rfl

theorem events_invalidate (cache : Cache) (schema : SchemaId) :
    (cache.invalidate schema).events = [.invalidated schema (cache.invalidate schema).answer] :=
  rfl

theorem next_operate_le (bounded : cache.entries.length ≤ cache.limit) (now : Nat)
    (operation : Operation) : cache.next ≤ (cache.operate now operation).next := by
  cases operation with
  | compile request =>
    rcases compile_cases bounded now request with hit | miss
    · obtain ⟨held, _, effect⟩ := hit
      rw [operate, effect]
      exact Nat.le_refl _
    · rw [operate, miss.2]
      exact Nat.le_succ _
  | clear => exact Nat.le_refl _
  | invalidate schema => exact Nat.le_refl _

/-- The cache has the keys that the operations rank highest, each with the outcome of one of their
requests. -/
structure Follows (settings : Settings) (operations : List Operation) (cache : Cache) : Prop where
  limit : cache.limit = settings.limit
  ttl : cache.ttl? = settings.ttl?
  keys : cache.keys = ranking settings.limit operations
  own : ∀ entry ∈ cache.entries, ∃ request ∈ requests operations,
    request.key = entry.key ∧ request.outcome = entry.compilation.outcome
  past : ∀ entry ∈ cache.entries, entry.compilation.serial < cache.next

section Follows

variable {settings : Settings} {operations : List Operation}
  (follows : cache.Follows settings operations)

include follows

theorem Follows.size_eq : cache.size = (ranking settings.limit operations).length := by
  rw [← follows.keys, Cache.keys, List.length_map, size]

theorem Follows.positive : 0 < cache.limit := follows.limit ▸ settings.limit_positive

theorem Follows.distinct : cache.Distinct := by
  rw [Distinct, ← Cache.keys, follows.keys]
  exact nodup_ranking _ _

theorem Follows.bounded : cache.entries.length ≤ cache.limit := by
  rw [follows.limit]
  exact follows.size_eq.le.trans (length_ranking_le _ _)

theorem Follows.operate (now : Nat) (operation : Operation) :
    (cache.operate now operation).Follows settings (operations ++ [operation]) where
  limit := (settings_operate follows.bounded now operation).1.trans follows.limit
  ttl := (settings_operate follows.bounded now operation).2.trans follows.ttl
  keys := by
    rw [keys_operate follows.bounded follows.positive, ranking_concat, follows.keys, follows.limit]
  own entry member := by
    rcases mem_operate follows.bounded member with before | new
    · obtain ⟨request, made, its⟩ := follows.own entry before
      exact ⟨request, mem_requests_concat.mpr (.inl made), its⟩
    · obtain ⟨request, rfl, key, compilation, _⟩ := new
      exact ⟨request, mem_requests_concat.mpr (.inr rfl), key.symm, by rw [compilation]⟩
  past entry member := by
    rcases mem_operate follows.bounded member with before | new
    · exact (follows.past entry before).trans_le (next_operate_le follows.bounded now operation)
    · obtain ⟨request, _, _, compilation, next⟩ := new
      rw [compilation, next]
      exact Nat.lt_succ_self _

theorem Follows.outcome_eq {refs : List SchemaRef} (distinct : (refs.map SchemaRef.id).Nodup)
    {request : CompileRequest} (known : request.schema ∈ refs)
    (knowns : ∀ made ∈ requests operations, made.schema ∈ refs) (now : Nat) :
    (cache.compile now request).answer.outcome = request.outcome := by
  rcases compile_cases follows.bounded now request with hit | miss
  · obtain ⟨held, live, effect⟩ := hit
    obtain ⟨member, own⟩ := mem_of_found live.1
    obtain ⟨made, earlier, key, outcome⟩ := follows.own held member
    have same : made.key = request.key := key.trans own
    have schema : made.schema = request.schema :=
      List.inj_on_of_nodup_map distinct (knowns made earlier) known (congrArg CacheKey.schema same)
    rw [effect, ← outcome, CompileRequest.outcome_eq_of_key schema same]
  · rw [miss.2]

end Follows

theorem follows_operateAll (settings : Settings) (clock : Nat → Nat)
    (operations : List Operation) :
    ((ofSettings settings).operateAll clock operations).Follows settings operations := by
  induction operations using List.reverseRecOn with
  | nil => exact ⟨rfl, rfl, rfl, fun _ => nofun, fun _ => nofun⟩
  | append_singleton operations operation ih =>
    rw [operateAll_concat]
    exact ih.operate _ operation

theorem compile_of_zero (bounded : cache.entries.length ≤ cache.limit)
    (strict : cache.ttl? = some .zero) (now : Nat) (request : CompileRequest) :
    (cache.compile now request).answer = ⟨cache.next, request.outcome⟩ ∧
      (cache.compile now request).cache.next = cache.next + 1 ∧
      (cache.compile now request).events = cache.missEvents request := by
  have dead (held : CacheEntry) : ¬ cache.Live (cache.isExpired now) request.key held := by
    simp [Live, isExpired, strict, Duration.zero]
  rw [compile_of_dead bounded dead]
  exact ⟨rfl, rfl, rfl⟩

theorem compile_of_none (distinct : cache.Distinct) (lasting : cache.ttl? = none)
    {held : CacheEntry} (member : held ∈ cache.entries) (own : held.key = request.key)
    (now : Nat) :
    (cache.compile now request).answer = held.compilation ∧
      (cache.compile now request).events =
        [.hit request.key.schema held.compilation.failure?] := by
  have fresh : cache.isExpired now held = false := by simp [isExpired, lasting]
  rw [compile_of_live ⟨find?_eq_some distinct member own, fresh⟩]
  exact ⟨rfl, rfl⟩

theorem compile_of_absent (bounded : cache.entries.length ≤ cache.limit)
    (absent : request.key ∉ cache.keys) (now : Nat) :
    (cache.compile now request).answer = ⟨cache.next, request.outcome⟩ ∧
      (cache.compile now request).events = cache.missEvents request := by
  rw [compile_of_dead bounded (not_live_of_absent (find?_eq_none_iff_notMem.mpr absent))]
  exact ⟨rfl, rfl⟩

theorem next_operateAll_of_zero {settings : Settings} (strict : settings.ttl? = some .zero)
    (clock : Nat → Nat) (operations : List Operation) :
    ((ofSettings settings).operateAll clock operations).next = (requests operations).length := by
  induction operations using List.reverseRecOn with
  | nil => rfl
  | append_singleton operations operation ih =>
    have follows := follows_operateAll settings clock operations
    rw [operateAll_concat, requests, List.filterMap_append, ← requests, List.length_append, ← ih]
    cases operation with
    | compile request =>
      exact (compile_of_zero follows.bounded (follows.ttl.trans strict) _ request).2.1
    | clear => rfl
    | invalidate schema => rfl

/-- With the least time to live and with none, a cache goes through the same keys in the same order
of use, drops as many entries and evicts the same. With the least time each call compiles, so its
answer is one that has not been there before, where the other cache has a hit if it holds the key;
but it says the same as the answer from the other cache. -/
theorem zero_ttl_keeps_order_of_use (settings : Settings) (clock clock' : Nat → Nat)
    (operations : List Operation) :
    let strict := (ofSettings { settings with ttl? := some .zero }).operateAll clock operations
    let lasting := (ofSettings { settings with ttl? := none }).operateAll clock' operations
    (strict.keys = lasting.keys ∧ strict.size = lasting.size) ∧
    (∀ schema, (strict.invalidate schema).answer = (lasting.invalidate schema).answer ∧
      (strict.invalidate schema).events = (lasting.invalidate schema).events) ∧
    ∀ now now' request,
      evictions (strict.compile now request).events =
        evictions (lasting.compile now' request).events ∧
      (strict.compile now request).answer =
        ⟨(requests operations).length, request.outcome⟩ ∧
      (∀ entry ∈ strict.entries, entry.compilation.serial < (requests operations).length) ∧
      (∀ held ∈ lasting.entries, held.key = request.key →
        (lasting.compile now' request).answer = held.compilation ∧
        (lasting.compile now' request).events =
          [.hit request.key.schema held.compilation.failure?] ∧
        (strict.compile now request).events =
          [.expired request.key.schema, .miss request.key.schema,
            .caching request.key.schema (strict.compile now request).answer.failure?]) ∧
      (request.key ∉ lasting.keys →
        (lasting.compile now' request).answer = ⟨lasting.next, request.outcome⟩ ∧
        (strict.compile now request).events = (lasting.compile now' request).events) ∧
      ∀ views : List SchemaView, views.length < UInt64.size →
        (∀ made ∈ requests operations ++ [request],
          made.schema ∈ SchemaIds.first.referAll views) →
        (strict.compile now request).answer.outcome =
          (lasting.compile now' request).answer.outcome := by
  intro strict lasting
  have one := follows_operateAll { settings with ttl? := some .zero } clock operations
  have other := follows_operateAll { settings with ttl? := none } clock' operations
  have next : strict.next = (requests operations).length :=
    next_operateAll_of_zero rfl clock operations
  have keys : strict.keys = lasting.keys := one.keys.trans other.keys.symm
  have limit : strict.limit = lasting.limit := one.limit.trans other.limit.symm
  refine ⟨⟨keys, one.size_eq.trans other.size_eq.symm⟩, fun schema => ?_,
    fun now now' request => ?_⟩
  · rw [events_invalidate, events_invalidate, answer_invalidate, answer_invalidate, keys]
    exact ⟨rfl, rfl⟩
  obtain ⟨answer, -, events⟩ := compile_of_zero one.bounded one.ttl now request
  refine ⟨?_, by rw [← next]; exact answer, by rw [← next]; exact one.past,
    fun held member own => ?_, fun absent => ?_, fun views few known => ?_⟩
  · rw [evictions_compile one.bounded, evictions_compile other.bounded, keys, limit]
  · obtain ⟨answer', events'⟩ := compile_of_none other.distinct other.ttl member own now'
    have there : request.key ∈ strict.keys := by
      rw [keys]
      exact List.mem_map.mpr ⟨held, member, own⟩
    refine ⟨answer', events', ?_⟩
    rw [events, answer]
    exact missEvents_of_held one.bounded there
  · obtain ⟨answer', events'⟩ := compile_of_absent other.bounded absent now'
    refine ⟨answer', ?_⟩
    rw [events, events']
    exact missEvents_congr keys limit request
  · have distinct := SchemaIds.first.nodup_referAll few
    have knowns : ∀ made ∈ requests operations, made.schema ∈ SchemaIds.first.referAll views :=
      fun made earlier => known made (List.mem_append_left _ earlier)
    have its := known request List.mem_concat_self
    exact (one.outcome_eq distinct its knowns now).trans
      (other.outcome_eq distinct its knowns now').symm

end Cache

namespace Sample

def ask (schema : UInt64) (members : List (String × Literal)) : CompileRequest :=
  ⟨⟨⟨schema⟩, (cards []).view⟩, (cards members).spec⟩

/-- With room for two, the fourth and the sixth call cost another key its entry. -/
def shifts : List Operation :=
  [.compile (ask 1 [("open", .null)]), .clear, .compile (ask 2 [("open", .null)]),
    .compile (ask 1 [("no name", .null)]), .compile (ask 1 [("late", .null)]),
    .compile (ask 1 [("no name", .null)]), .compile (ask 2 [("open", .null)]), .invalidate ⟨2⟩]

end Sample

theorem zero_ttl_keeps_order_of_use_shifts :
    let request := Sample.ask 1 [("no name", .null)]
    let strict := (Cache.ofSettings { Sample.brief with ttl? := some .zero }).operateAll id
      Sample.shifts
    let lasting := (Cache.ofSettings { Sample.brief with ttl? := none }).operateAll id
      Sample.shifts
    strict.keys = lasting.keys ∧
      (strict.compile 9 request).answer.serial = 6 ∧
      (strict.compile 9 request).events = [.expired ⟨1⟩, .miss ⟨1⟩,
        .caching ⟨1⟩ (strict.compile 9 request).answer.failure?] ∧
      (lasting.compile 9 request).answer.serial = 2 ∧
      (lasting.compile 9 request).events =
        [.hit ⟨1⟩ (lasting.compile 9 request).answer.failure?] ∧
      (strict.compile 9 request).answer.outcome = (lasting.compile 9 request).answer.outcome := by
  intro request strict lasting
  obtain ⟨⟨keys, -⟩, -, compiles⟩ :=
    Cache.zero_ttl_keeps_order_of_use Sample.brief id id Sample.shifts
  obtain ⟨-, answer, -, hits, -, same⟩ := compiles 9 9 request
  have there : request.key ∈ lasting.keys := by decide +kernel
  obtain ⟨held, member, own⟩ := List.mem_map.mp there
  obtain ⟨kept, hit, again⟩ := hits held member own
  have known : ∀ made ∈ requests Sample.shifts ++ [request], made.schema ∈
      SchemaIds.first.referAll [(Sample.cards []).view, (Sample.cards []).view] := by
    intro made member
    simp only [request, Sample.shifts, requests, Operation.request?, List.filterMap_cons,
      List.filterMap_nil, List.cons_append, List.nil_append, List.mem_cons, List.not_mem_nil,
      or_false] at member
    rcases member with rfl | rfl | rfl | rfl | rfl | rfl | rfl
    all_goals simp [Sample.ask, SchemaIds.referAll, SchemaIds.refer, SchemaIds.first]
  refine ⟨keys, congrArg Compilation.serial answer, again, by decide +kernel, ?_, ?_⟩
  · rw [kept]
    exact hit
  · exact same [(Sample.cards []).view, (Sample.cards []).view] (by decide) known

end PathQuery
