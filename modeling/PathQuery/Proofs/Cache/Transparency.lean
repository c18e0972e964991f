import PathQuery.Proofs.Cache.Service
import PathQuery.Proofs.Relevance

namespace PathQuery

theorem CompileRequest.outcome_eq_of_key {request other : CompileRequest}
    (schema : request.schema = other.schema) (key : request.key = other.key) :
    request.outcome = other.outcome := by
  have same : Query.Alike ⟨other.schema.view, other.spec⟩ request.spec :=
    Query.alike_of_same (congrArg CacheKey.spec key).symm
  rw [outcome, outcome, schema, same.compile_eq]

namespace Service

variable {service after : Service} {action : Action} {key : CacheKey} {compilation : Compilation}

/-- The cache holds the compilation under the key, or a request of the key was answered with it. -/
inductive Knows (service : Service) : CacheKey → Compilation → Prop
  | held {entry : CacheEntry} (member : entry ∈ service.cache.entries) :
    service.Knows entry.key entry.compilation
  | told {call : Call} {compilation : Compilation} (made : call ∈ service.calls)
    (answered : call.answer? = some compilation) : service.Knows call.request.key compilation

theorem Knows.mono (knows : after.Knows key compilation)
    (entries : after.cache.entries ⊆ service.cache.entries)
    (calls : after.calls ⊆ service.calls) : service.Knows key compilation := by
  cases knows with
  | held member => exact .held (entries member)
  | told made answered => exact .told (calls made) answered

structure Numbered (service : Service) : Prop where
  given : service.refs.map SchemaRef.id =
    (List.range service.refs.length).map fun index => ⟨.ofNat (index + 1)⟩
  next : service.ids = ⟨.ofNat (service.refs.length + 1)⟩

/-- What is known under a key is the outcome of a request of that key, and its serial goes with no
other key. -/
structure Sound (service : Service) : Prop where
  referred : ∀ call ∈ service.calls, call.request.schema ∈ service.refs
  own : ∀ key compilation, service.Knows key compilation → ∃ request : CompileRequest,
    request.schema ∈ service.refs ∧ request.key = key ∧ request.outcome = compilation.outcome
  past : ∀ key compilation, service.Knows key compilation →
    compilation.serial < service.cache.next
  unique : ∀ key compilation key' compilation', service.Knows key compilation →
    service.Knows key' compilation' → compilation.serial = compilation'.serial → key = key'

theorem numbered_start (settings : Settings) : (start settings).Numbered :=
  ⟨rfl, rfl⟩

theorem not_knows_start {settings : Settings} : ¬ (start settings).Knows key compilation := by
  intro knows
  cases knows with
  | held member => cases member
  | told made => cases made

theorem sound_start (settings : Settings) : (start settings).Sound where
  referred _ made := by cases made
  own _ _ knows := absurd knows not_knows_start
  past _ _ knows := absurd knows not_knows_start
  unique _ _ _ _ knows := absurd knows not_knows_start

theorem Numbered.step (numbered : service.Numbered) (stepped : service.step action = some after) :
    after.Numbered := by
  obtain ⟨given, next⟩ := numbered
  rcases refs_of_step stepped with refers | same
  · obtain ⟨view, rfl⟩ := refers
    constructor
    · simp [refer, SchemaIds.refer, given, next, List.range_succ]
    · simp [refer, SchemaIds.refer, next]
  · exact ⟨by rw [same.1, given], by rw [same.1, same.2, next]⟩

theorem Numbered.nodup (numbered : service.Numbered) (few : service.refs.length < UInt64.size) :
    (service.refs.map SchemaRef.id).Nodup := by
  rw [numbered.given]
  refine List.Nodup.map_on (fun index here index' here' same => ?_) List.nodup_range
  have number := congrArg (fun id => id.serial.toNat) same
  rw [List.mem_range] at here here'
  dsimp only at number
  rw [UInt64.toNat_ofNat_of_lt' (by omega), UInt64.toNat_ofNat_of_lt' (by omega)] at number
  omega

theorem Knows.of_lookup {expired : CacheEntry → Bool} {request : CompileRequest}
    (knows : (service.lookup expired request).Knows key compilation) :
    service.Knows key compilation := by
  cases knows with
  | held member => exact .held (Cache.mem_lookup member)
  | told made answered =>
    rcases List.mem_append.mp made with made | made
    · exact .told made answered
    · obtain rfl := List.mem_singleton.mp made
      obtain ⟨entry, member, own, rfl⟩ := Cache.held_of_answer_lookup answered
      exact own ▸ .held member

/-- Going from one state to the next makes at most one compilation: that of a call from before,
under the next serial. -/
def Learns (service after : Service) : Prop :=
  (after.cache.next = service.cache.next ∧
    ∀ key compilation, after.Knows key compilation → service.Knows key compilation) ∨
  ∃ call ∈ service.calls, after.cache.next = service.cache.next + 1 ∧
    ∀ key compilation, after.Knows key compilation → service.Knows key compilation ∨
      key = call.request.key ∧ compilation = ⟨service.cache.next, call.request.outcome⟩

theorem learns_finish {index : Nat} {request : CompileRequest}
    (pending : service.calls[index]? = some ⟨request, none⟩) (expired : CacheEntry → Bool)
    (now : Nat) : service.Learns (service.finish index expired now request) := by
  rcases service.cache.answer_store expired now request.key request.outcome with there | made
  · -- The call drops its own outcome for one that came first; that one is of its key too.
    obtain ⟨next, kept, entry, member, own, answer⟩ := there
    refine .inl ⟨next, fun key compilation knows => ?_⟩
    cases knows with
    | held member => exact .held (kept _ member)
    | told made answered =>
      rcases List.mem_or_eq_of_mem_set made with made | rfl
      · exact .told made answered
      · cases answered
        have known : service.Knows entry.key entry.compilation := .held member
        rwa [own, answer] at known
  · obtain ⟨next, answer, kept⟩ := made
    refine .inr ⟨_, List.mem_of_getElem? pending, next, fun key compilation knows => ?_⟩
    cases knows with
    | held member =>
      rcases kept _ member with member | new
      · exact .inl (.held member)
      · exact .inr ⟨new.1, new.2.trans answer⟩
    | told made answered =>
      rcases List.mem_or_eq_of_mem_set made with made | rfl
      · exact .inl (.told made answered)
      · cases answered
        exact .inr ⟨rfl, answer⟩

theorem learns_of_step (stepped : service.step action = some after) : service.Learns after := by
  rcases step_cases stepped with refers | looks | finishes | rfl | invalidates
  · obtain ⟨view, rfl⟩ := refers
    exact .inl ⟨rfl, fun _ _ knows => knows.mono (.refl _) (.refl _)⟩
  · obtain ⟨request, expired, _, rfl⟩ := looks
    exact .inl ⟨Cache.next_lookup, fun _ _ knows => knows.of_lookup⟩
  · obtain ⟨index, request, expired, now, pending, rfl⟩ := finishes
    exact learns_finish pending expired now
  · exact .inl ⟨rfl, fun _ _ knows => knows.mono (List.nil_subset _) (.refl _)⟩
  · obtain ⟨schema, rfl⟩ := invalidates
    exact .inl ⟨rfl, fun _ _ knows => knows.mono
      (service.cache.invalidate_sublist schema).subset (.refl _)⟩

section Sound

variable (sound : service.Sound) (refs : service.refs ⊆ after.refs)
  (referred : ∀ call ∈ after.calls, call.request.schema ∈ after.refs)

include sound refs referred

theorem Sound.keep (next : after.cache.next = service.cache.next)
    (before : ∀ key compilation, after.Knows key compilation → service.Knows key compilation) :
    after.Sound where
  referred := referred
  own key compilation knows := by
    obtain ⟨request, known, its⟩ := sound.own key compilation (before key compilation knows)
    exact ⟨request, refs known, its⟩
  past key compilation knows := next ▸ sound.past _ _ (before _ _ knows)
  unique _ _ _ _ knows knows' := sound.unique _ _ _ _ (before _ _ knows) (before _ _ knows')

theorem Sound.learn {call : Call} (made : call ∈ service.calls)
    (next : after.cache.next = service.cache.next + 1)
    (before : ∀ key compilation, after.Knows key compilation → service.Knows key compilation ∨
      key = call.request.key ∧ compilation = ⟨service.cache.next, call.request.outcome⟩) :
    after.Sound where
  referred := referred
  own key compilation knows := by
    rcases before key compilation knows with old | ⟨rfl, rfl⟩
    · obtain ⟨request, known, its⟩ := sound.own key compilation old
      exact ⟨request, refs known, its⟩
    · exact ⟨call.request, refs (sound.referred call made), rfl, rfl⟩
  past key compilation knows := by
    rw [next]
    rcases before key compilation knows with old | ⟨rfl, rfl⟩
    · exact (sound.past key compilation old).trans (Nat.lt_succ_self _)
    · exact Nat.lt_succ_self _
  unique key compilation key' compilation' knows knows' same := by
    rcases before key compilation knows with old | ⟨rfl, rfl⟩
    · rcases before key' compilation' knows' with old' | ⟨rfl, rfl⟩
      · exact sound.unique key compilation key' compilation' old old' same
      · exact absurd same (sound.past key compilation old).ne
    · rcases before key' compilation' knows' with old' | ⟨rfl, rfl⟩
      · exact absurd same.symm (sound.past key' compilation' old').ne
      · rfl

end Sound

theorem Sound.step (sound : service.Sound) (stepped : service.step action = some after) :
    after.Sound := by
  have refs : service.refs ⊆ after.refs := fun _ known => mem_refs_of_step stepped known
  have referred : ∀ call ∈ after.calls, call.request.schema ∈ after.refs := by
    intro call made
    apply refs
    rcases request_of_step stepped made with before | known
    · obtain ⟨before, made, same⟩ := before
      exact same ▸ sound.referred before made
    · exact known
  rcases learns_of_step stepped with nothing | learned
  · exact sound.keep refs referred nothing.1 nothing.2
  · obtain ⟨call, made, next, before⟩ := learned
    exact sound.learn refs referred made next before

theorem numbered_of_run {settings : Settings} {actions : List Action}
    (ran : (start settings).run actions = some service) : service.Numbered :=
  holds_of_run (numbered_start settings) Numbered.step ran

theorem sound_of_run {settings : Settings} {actions : List Action}
    (ran : (start settings).run actions = some service) : service.Sound :=
  holds_of_run (sound_start settings) Sound.step ran

section Distinct

variable (sound : service.Sound) (distinct : (service.refs.map SchemaRef.id).Nodup)

include sound distinct

theorem Sound.outcome_eq {request : CompileRequest} (known : request.schema ∈ service.refs)
    (knows : service.Knows request.key compilation) : compilation.outcome = request.outcome := by
  obtain ⟨other, known', key, outcome⟩ := sound.own _ _ knows
  have schema : other.schema = request.schema :=
    List.inj_on_of_nodup_map distinct known' known (congrArg CacheKey.schema key)
  rw [← outcome, CompileRequest.outcome_eq_of_key schema key]

theorem Sound.answer_eq {call : Call} (made : call ∈ service.calls)
    (answered : call.answer? = some compilation) :
    compilation.outcome = call.request.outcome :=
  sound.outcome_eq distinct (sound.referred call made) (.told made answered)

theorem Sound.request_eq {call call' : Call} {compilation' : Compilation}
    (made : call ∈ service.calls) (made' : call' ∈ service.calls)
    (answered : call.answer? = some compilation) (answered' : call'.answer? = some compilation')
    (shared : compilation.serial = compilation'.serial) :
    call.request.schema = call'.request.schema ∧ call.request.spec.Same call'.request.spec := by
  have key := sound.unique _ _ _ _ (.told made answered) (.told made' answered') shared
  refine ⟨?_, congrArg CacheKey.spec key⟩
  exact List.inj_on_of_nodup_map distinct (sound.referred call made)
    (sound.referred call' made') (congrArg CacheKey.schema key)

end Distinct

end Service

/-- However calls, clearings and invalidations come between each other and whatever has expired: an
answer is what compiling the call's own spec against its own schema gives, calls that share one are
of one reference and of specs that differ in the order of members at most, and a call that has
missed, or one made in one go, gets the right answer too. -/
theorem calls_are_transparent (settings : Settings) (actions : List Action) (service : Service)
    (ran : (Service.start settings).run actions = some service)
    (few : service.refs.length < UInt64.size) :
    (∀ call ∈ service.calls, ∀ compilation, call.answer? = some compilation →
      compilation.outcome = compile call.request.schema.view call.request.spec) ∧
    (∀ call ∈ service.calls, ∀ call' ∈ service.calls, ∀ compilation compilation',
      call.answer? = some compilation → call'.answer? = some compilation' →
        compilation.serial = compilation'.serial →
          call.request.schema = call'.request.schema ∧
            call.request.spec.Same call'.request.spec) ∧
    (∀ index request, service.calls[index]? = some ⟨request, none⟩ → ∀ expired now,
      ∃ after compilation, service.step (.finish index expired now) = some after ∧
        after.calls[index]? = some ⟨request, some compilation⟩ ∧
        compilation.outcome = compile request.schema.view request.spec) ∧
    ∀ schema ∈ service.refs, ∀ spec now,
      (service.cache.compile now ⟨schema, spec⟩).answer.outcome = compile schema.view spec := by
  have sound := Service.sound_of_run ran
  have distinct := (Service.numbered_of_run ran).nodup few
  refine ⟨?_, ?_, ?_, ?_⟩
  · exact fun call made compilation => sound.answer_eq distinct made
  · exact fun call made call' made' compilation compilation' => sound.request_eq distinct made made'
  · intro index request pending expired now
    have stepped := Service.step_finish pending expired now
    have answered := Service.calls_finish pending expired now
    refine ⟨_, _, stepped, answered, ?_⟩
    exact (sound.step stepped).answer_eq distinct (List.mem_of_getElem? answered) rfl
  · intro schema known spec now
    obtain ⟨index, found⟩ := List.getElem?_of_mem known
    obtain ⟨more, after, went, refs, _, calls⟩ := Service.exists_run_compile found spec now
    have sound' := Service.holds_of_run sound Service.Sound.step went
    exact sound'.answer_eq (refs ▸ distinct) (calls ▸ List.mem_concat_self) rfl

namespace Sample

/-- Two references to one schema in use side by side, a request that differs in the order of
members, and a call that is still compiling when the cache is cleared. -/
def visits : List Action :=
  let view := (cards []).view
  let one : Spec := (cards [("open", .bool true), ("late", .bool false)]).spec
  let same : Spec := (cards [("late", .bool false), ("open", .bool true)]).spec
  let never : CacheEntry → Bool := fun _ => false
  [.refer view, .refer view, .lookup 0 one never, .lookup 1 one never, .finish 0 never 0,
    .lookup 0 same never, .clear, .finish 1 never 0]

end Sample

theorem calls_are_transparent_visits :
    ∃ service, (Service.start .default).run Sample.visits = some service ∧
      service.calls.map (fun call => call.answer?.map Compilation.serial) =
        [some 0, some 1, some 0] ∧
      ∀ call ∈ service.calls, ∀ compilation, call.answer? = some compilation →
        compilation.outcome = compile call.request.schema.view call.request.spec := by
  have ends : ((Service.start .default).run Sample.visits).map (fun service =>
      (service.refs.length, service.calls.map fun call => call.answer?.map Compilation.serial)) =
        some (2, [some 0, some 1, some 0]) := by
    decide +kernel
  obtain ⟨service, ran, ends⟩ := Option.map_eq_some_iff.mp ends
  obtain ⟨two, serials⟩ := Prod.mk.inj ends
  have few : service.refs.length < UInt64.size := by rw [two]; decide
  exact ⟨service, ran, serials,
    (calls_are_transparent .default Sample.visits service ran few).1⟩

end PathQuery
