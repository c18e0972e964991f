import PathQuery.Proofs.Cache.Transparency
import Mathlib.Data.Finset.Card
import Mathlib.Data.Nat.Find

namespace PathQuery

namespace Cache

open Lru

variable {cache : Cache} {expired : CacheEntry → Bool} {key : CacheKey} {entry : CacheEntry}

def Distinct (cache : Cache) : Prop := (cache.entries.map CacheEntry.key).Nodup

theorem Distinct.eq_of_key (distinct : cache.Distinct) {other : CacheEntry}
    (one : entry ∈ cache.entries) (another : other ∈ cache.entries) (same : entry.key = other.key) :
    entry = other :=
  List.inj_on_of_nodup_map distinct one another same

theorem Distinct.touch_perm (distinct : cache.Distinct) (member : entry ∈ cache.entries) :
    (cache.touch entry).entries.Perm cache.entries := by
  have nodup := List.Nodup.of_map _ distinct
  have front : (entry :: cache.others entry.key).Nodup :=
    List.nodup_cons.mpr ⟨fun inside => (mem_others.mp inside).2 rfl, nodup.filter _⟩
  refine (List.perm_ext_iff_of_nodup front nodup).mpr fun other => ?_
  rw [List.mem_cons, mem_others]
  constructor
  · intro found
    rcases found with rfl | found
    · exact member
    · exact found.1
  · intro found
    by_cases same : other.key = entry.key
    · exact .inl (distinct.eq_of_key found member same)
    · exact .inr ⟨found, same⟩

theorem limit_lookup : (cache.lookup expired key).cache.limit = cache.limit := by
  rcases cache.lookup_cases expired key with hit | old | miss
  · obtain ⟨held, _, looked⟩ := hit
    rw [looked]
    rfl
  · obtain ⟨held, _, _, looked⟩ := old
    rw [looked]
  · rw [miss.2]

theorem limit_store {now : Nat} {outcome : Outcome} :
    (cache.store expired now key outcome).cache.limit = cache.limit := by
  rcases cache.store_cases expired now key outcome with kept | made
  · obtain ⟨entry, _, effect⟩ := kept
    rw [effect]
    rfl
  · obtain ⟨_, _, _, _, effect⟩ := made
    rw [effect]

theorem limit_invalidate {schema : SchemaId} :
    (cache.invalidate schema).cache.limit = cache.limit := by
  rw [invalidate_eq]

section Lasting

variable (lasting : ∀ entry, expired entry = false)

include lasting

theorem lookup_of_lasting (key : CacheKey) :
    (∃ entry ∈ cache.entries, entry.key = key ∧
      (cache.lookup expired key).answer = some entry.compilation ∧
      (cache.lookup expired key).cache = cache.touch entry) ∨
    (cache.find? key = none ∧ (cache.lookup expired key).answer = none ∧
      (cache.lookup expired key).cache = cache) := by
  rcases cache.lookup_cases expired key with hit | old | miss
  · obtain ⟨entry, live, looked⟩ := hit
    obtain ⟨member, own⟩ := mem_of_found live.1
    exact .inl ⟨entry, member, own, by rw [looked], by rw [looked]⟩
  · obtain ⟨entry, _, late, _⟩ := old
    rw [lasting entry] at late
    cases late
  · exact .inr ⟨miss.1, by rw [miss.2], by rw [miss.2]⟩

theorem store_of_lasting (now : Nat) (key : CacheKey) (outcome : Outcome)
    (room : cache.find? key = none → cache.entries.length < cache.limit) :
    (∃ entry ∈ cache.entries, entry.key = key ∧
      (cache.store expired now key outcome).answer = entry.compilation ∧
      (cache.store expired now key outcome).cache = cache.touch entry) ∨
    (cache.find? key = none ∧
      (cache.store expired now key outcome).answer = ⟨cache.next, outcome⟩ ∧
      (cache.store expired now key outcome).cache =
        { cache with
          entries := ⟨key, ⟨cache.next, outcome⟩, now⟩ :: cache.entries
          next := cache.next + 1 }) := by
  rcases cache.store_cases expired now key outcome with kept | made
  · obtain ⟨entry, live, effect⟩ := kept
    obtain ⟨member, own⟩ := mem_of_found live.1
    exact .inl ⟨entry, member, own, by rw [effect], by rw [effect]⟩
  · have absent : cache.find? key = none :=
      Option.eq_none_iff_forall_ne_some.mpr fun entry found => made.1 entry ⟨found, lasting entry⟩
    have free := room absent
    have effect := store_of_absent absent free.le expired now outcome
    rw [List.take_of_length_le (Nat.le_sub_one_of_lt free)] at effect
    exact .inr ⟨absent, by rw [effect], by rw [effect]⟩

end Lasting

end Cache

def Action.Lasting : Action → Prop
  | .refer _ => True
  | .lookup _ _ expired | .finish _ expired _ => ∀ entry, expired entry = false
  | .clear | .invalidate _ => False

namespace Service

variable {service after : Service} {action : Action}

def keys (service : Service) : Finset CacheKey :=
  (service.calls.map fun call => call.request.key).toFinset

theorem mem_keys {key : CacheKey} :
    key ∈ service.keys ↔ ∃ call ∈ service.calls, call.request.key = key := by
  simp [keys]

def Roomy (service : Service) : Prop := service.keys.card ≤ service.cache.limit

/-- The cache holds the answers given so far, one for each key. -/
structure Settled (service : Service) : Prop where
  distinct : service.cache.Distinct
  held : ∀ call ∈ service.calls, ∀ compilation, call.answer? = some compilation →
    ∃ entry ∈ service.cache.entries, entry.key = call.request.key ∧
      entry.compilation = compilation
  given : ∀ entry ∈ service.cache.entries, ∃ call ∈ service.calls,
    call.request.key = entry.key ∧ call.answer? = some entry.compilation

theorem settled_start (settings : Settings) : (start settings).Settled where
  distinct := List.nodup_nil
  held _ made := by cases made
  given _ member := by cases member

theorem cases_of_lasting (lasting : action.Lasting) (stepped : service.step action = some after) :
    (∃ view, after = service.refer view) ∨
    (∃ request expired, (∀ entry, expired entry = false) ∧
      after = service.lookup expired request) ∨
    ∃ index request expired now, (∀ entry, expired entry = false) ∧
      service.calls[index]? = some ⟨request, none⟩ ∧
      after = service.finish index expired now request := by
  cases action with
  | refer view => exact .inl ⟨view, (Option.some.inj stepped).symm⟩
  | lookup index spec expired =>
    obtain ⟨schema, _, rfl⟩ := Option.map_eq_some_iff.mp stepped
    exact .inr (.inl ⟨⟨schema, spec⟩, expired, lasting, rfl⟩)
  | finish index expired now =>
    simp only [step] at stepped
    split at stepped
    · next request pending =>
      exact .inr (.inr ⟨index, request, expired, now, lasting, pending,
        (Option.some.inj stepped).symm⟩)
    · cases stepped
  | clear => exact lasting.elim
  | invalidate schema => exact lasting.elim

section Finish

variable {index : Nat} {request : CompileRequest}
  (pending : service.calls[index]? = some ⟨request, none⟩)

include pending

theorem mem_calls_finish (expired : CacheEntry → Bool) (now : Nat) {call : Call}
    (made : call ∈ service.calls) (answered : call.answer? ≠ none) :
    call ∈ (service.finish index expired now request).calls := by
  obtain ⟨place, found⟩ := List.getElem?_of_mem made
  have elsewhere : index ≠ place := by
    intro same
    rw [← same, pending] at found
    cases found
    exact answered rfl
  exact List.mem_of_getElem? ((List.getElem?_set_ne elsewhere).trans found)

theorem keys_finish (expired : CacheEntry → Bool) (now : Nat) :
    (service.finish index expired now request).keys = service.keys := by
  have here : service.calls.map (fun call => call.request.key) =
      (service.calls.set index ⟨request, some
        (service.cache.store expired now request.key request.outcome).answer⟩).map
          fun call => call.request.key := by
    refine List.ext_getElem? fun place => ?_
    rw [List.getElem?_map, List.getElem?_map, List.getElem?_set]
    split
    · next same =>
      rw [← same, pending, if_pos (List.getElem?_eq_some_iff.mp pending).1]
      rfl
    · rfl
  exact congrArg List.toFinset here.symm

end Finish

theorem keys_subset_lookup (expired : CacheEntry → Bool) (request : CompileRequest) :
    service.keys ⊆ (service.lookup expired request).keys := by
  intro key asked
  obtain ⟨call, made, own⟩ := mem_keys.mp asked
  exact mem_keys.mpr ⟨call, List.mem_append_left _ made, own⟩

namespace Settled

variable (settled : service.Settled) {expired : CacheEntry → Bool}
  (lasting : ∀ entry, expired entry = false)

include settled

/-- A cache that keeps its entries stays settled if new answers and new entries go together. -/
theorem extend (distinct : after.cache.Distinct)
    (kept : service.cache.entries ⊆ after.cache.entries)
    (told : ∀ call ∈ service.calls, call.answer? ≠ none → call ∈ after.calls)
    (calls : ∀ call ∈ after.calls, call ∈ service.calls ∨
      ∀ compilation, call.answer? = some compilation → ∃ entry ∈ after.cache.entries,
        entry.key = call.request.key ∧ entry.compilation = compilation)
    (entries : ∀ entry ∈ after.cache.entries, entry ∈ service.cache.entries ∨
      ∃ call ∈ after.calls, call.request.key = entry.key ∧
        call.answer? = some entry.compilation) : after.Settled where
  distinct := distinct
  held call made compilation answered := by
    rcases calls call made with before | new
    · obtain ⟨entry, member, its⟩ := settled.held call before compilation answered
      exact ⟨entry, kept member, its⟩
    · exact new compilation answered
  given entry member := by
    rcases entries entry member with before | new
    · obtain ⟨call, made, own, answered⟩ := settled.given entry before
      exact ⟨call, told call made (by simp [answered]), own, answered⟩
    · exact new

theorem lt_limit (roomy : service.Roomy) {call : Call} (made : call ∈ service.calls)
    (absent : service.cache.find? call.request.key = none) :
    service.cache.entries.length < service.cache.limit := by
  have new := Lru.find?_eq_none_iff_notMem.mp absent
  have asked : (call.request.key :: service.cache.entries.map CacheEntry.key).toFinset ⊆
      service.keys := by
    intro key there
    rcases List.mem_cons.mp (List.mem_toFinset.mp there) with rfl | there
    · exact mem_keys.mpr ⟨call, made, rfl⟩
    · obtain ⟨entry, member, rfl⟩ := List.mem_map.mp there
      obtain ⟨other, made, own, -⟩ := settled.given entry member
      exact mem_keys.mpr ⟨other, made, own⟩
  have count := (Finset.card_le_card asked).trans roomy
  rw [List.toFinset_card_of_nodup (List.nodup_cons.mpr ⟨new, settled.distinct⟩), List.length_cons,
    List.length_map] at count
  exact count

section Finish

variable {index : Nat} {request : CompileRequest}
  (pending : service.calls[index]? = some ⟨request, none⟩) {now : Nat}

include pending

theorem extend_finish (distinct : (service.finish index expired now request).cache.Distinct)
    (kept : service.cache.entries ⊆ (service.finish index expired now request).cache.entries)
    (held : ∃ entry ∈ (service.finish index expired now request).cache.entries,
      entry.key = request.key ∧ entry.compilation =
        (service.cache.store expired now request.key request.outcome).answer)
    (entries : ∀ entry ∈ (service.finish index expired now request).cache.entries,
      entry ∈ service.cache.entries ∨ entry.key = request.key ∧ entry.compilation =
        (service.cache.store expired now request.key request.outcome).answer) :
    (service.finish index expired now request).Settled := by
  refine settled.extend distinct kept
    (fun call made answered => mem_calls_finish pending expired now made answered) ?_ ?_
  · intro call made
    apply (List.mem_or_eq_of_mem_set made).imp_right
    intro same compilation answered
    rw [same] at answered ⊢
    cases answered
    exact held
  · intro entry member
    apply (entries entry member).imp_right
    intro new
    exact ⟨_, List.mem_of_getElem? (calls_finish pending expired now), new.1.symm,
      congrArg some new.2.symm⟩

theorem finish_kept {entry : CacheEntry} (member : entry ∈ service.cache.entries)
    (own : entry.key = request.key)
    (answer : (service.cache.store expired now request.key request.outcome).answer =
      entry.compilation)
    (cache : (service.finish index expired now request).cache = service.cache.touch entry) :
    (service.finish index expired now request).Settled ∧
      service.cache.entries ⊆ (service.finish index expired now request).cache.entries := by
  have same : (service.finish index expired now request).cache.entries.Perm
      service.cache.entries := by
    rw [cache]
    exact settled.distinct.touch_perm member
  refine ⟨settled.extend_finish pending ?_ same.symm.subset ?_ ?_, same.symm.subset⟩
  · exact (same.map CacheEntry.key).nodup_iff.mpr settled.distinct
  · exact ⟨entry, same.symm.subset member, own, answer.symm⟩
  · exact fun other inside => .inl (same.subset inside)

theorem finish_stored (absent : service.cache.find? request.key = none)
    (answer : (service.cache.store expired now request.key request.outcome).answer =
      ⟨service.cache.next, request.outcome⟩)
    (cache : (service.finish index expired now request).cache = { service.cache with
      entries := ⟨request.key, ⟨service.cache.next, request.outcome⟩, now⟩ ::
        service.cache.entries
      next := service.cache.next + 1 }) :
    (service.finish index expired now request).Settled ∧
      service.cache.entries ⊆ (service.finish index expired now request).cache.entries := by
  have more : (service.finish index expired now request).cache.entries =
      ⟨request.key, ⟨service.cache.next, request.outcome⟩, now⟩ :: service.cache.entries := by
    rw [cache]
  have kept : service.cache.entries ⊆
      (service.finish index expired now request).cache.entries := by
    rw [more]
    exact List.subset_cons_self _ _
  refine ⟨settled.extend_finish pending ?_ kept ?_ ?_, kept⟩
  · rw [Cache.Distinct, more]
    exact List.nodup_cons.mpr ⟨Lru.find?_eq_none_iff_notMem.mp absent, settled.distinct⟩
  · exact ⟨_, more ▸ List.mem_cons_self, rfl, answer.symm⟩
  · intro entry member
    rw [more] at member
    rcases List.mem_cons.mp member with rfl | before
    · exact .inr ⟨rfl, answer.symm⟩
    · exact .inl before

end Finish

include lasting

theorem lookup (request : CompileRequest) :
    (service.lookup expired request).Settled ∧
      service.cache.entries ⊆ (service.lookup expired request).cache.entries := by
  have told : ∀ call ∈ service.calls, call.answer? ≠ none →
      call ∈ (service.lookup expired request).calls :=
    fun call made _ => List.mem_append_left _ made
  rcases Cache.lookup_of_lasting lasting request.key with hit | miss
  · obtain ⟨entry, member, own, answer, cache⟩ := hit
    have same : (service.lookup expired request).cache.entries.Perm service.cache.entries := by
      rw [show (service.lookup expired request).cache = _ from cache]
      exact settled.distinct.touch_perm member
    refine ⟨settled.extend ?_ same.symm.subset told ?_ ?_, same.symm.subset⟩
    · exact (same.map CacheEntry.key).nodup_iff.mpr settled.distinct
    · intro call made
      apply (List.mem_append.mp made).imp_right
      intro made compilation answered
      rw [List.mem_singleton.mp made, answer] at answered
      cases answered
      refine ⟨entry, same.symm.subset member, own.trans ?_, rfl⟩
      rw [List.mem_singleton.mp made]
    · exact fun other inside => .inl (same.subset inside)
  · obtain ⟨_, answer, cache⟩ := miss
    have same : (service.lookup expired request).cache = service.cache := cache
    rw [same]
    refine ⟨settled.extend ?_ ?_ told ?_ ?_, List.Subset.refl _⟩
    · exact same.symm ▸ settled.distinct
    · rw [same]
      exact List.Subset.refl _
    · intro call made
      apply (List.mem_append.mp made).imp_right
      intro made compilation answered
      rw [List.mem_singleton.mp made, answer] at answered
      cases answered
    · exact fun other inside => .inl (same ▸ inside)

theorem finish (roomy : service.Roomy) {index : Nat} {request : CompileRequest}
    (pending : service.calls[index]? = some ⟨request, none⟩) (now : Nat) :
    (service.finish index expired now request).Settled ∧
      service.cache.entries ⊆ (service.finish index expired now request).cache.entries := by
  have room := settled.lt_limit roomy (List.mem_of_getElem? pending)
  rcases Cache.store_of_lasting lasting now request.key request.outcome room with kept | made
  · obtain ⟨entry, member, own, answer, cache⟩ := kept
    exact settled.finish_kept pending member own answer cache
  · obtain ⟨absent, answer, cache⟩ := made
    exact settled.finish_stored pending absent answer cache

end Settled

theorem keys_subset_of_lasting (lasting : action.Lasting)
    (stepped : service.step action = some after) : service.keys ⊆ after.keys := by
  rcases cases_of_lasting lasting stepped with refers | looks | finishes
  · obtain ⟨view, rfl⟩ := refers
    exact Finset.Subset.refl _
  · obtain ⟨request, expired, _, rfl⟩ := looks
    exact keys_subset_lookup expired request
  · obtain ⟨index, request, expired, now, _, pending, rfl⟩ := finishes
    rw [keys_finish pending]

theorem limit_of_step (stepped : service.step action = some after) :
    after.cache.limit = service.cache.limit := by
  rcases step_cases stepped with refers | looks | finishes | rfl | invalidates
  · obtain ⟨view, rfl⟩ := refers
    rfl
  · obtain ⟨request, expired, _, rfl⟩ := looks
    exact Cache.limit_lookup
  · obtain ⟨index, request, expired, now, _, rfl⟩ := finishes
    exact Cache.limit_store
  · rfl
  · obtain ⟨schema, rfl⟩ := invalidates
    exact Cache.limit_invalidate

theorem Roomy.of_lasting (roomy : after.Roomy) (lasting : action.Lasting)
    (stepped : service.step action = some after) : service.Roomy := by
  rw [Roomy, limit_of_step stepped] at roomy
  exact (Finset.card_le_card (keys_subset_of_lasting lasting stepped)).trans roomy

theorem Settled.step (settled : service.Settled) (roomy : service.Roomy)
    (lasting : action.Lasting) (stepped : service.step action = some after) :
    after.Settled ∧ service.cache.entries ⊆ after.cache.entries := by
  rcases cases_of_lasting lasting stepped with refers | looks | finishes
  · obtain ⟨view, rfl⟩ := refers
    exact ⟨⟨settled.distinct, settled.held, settled.given⟩, List.Subset.refl _⟩
  · obtain ⟨request, expired, lasting, rfl⟩ := looks
    exact settled.lookup lasting request
  · obtain ⟨index, request, expired, now, lasting, pending, rfl⟩ := finishes
    exact settled.finish lasting roomy pending now

theorem Settled.run (settled : service.Settled) {actions : List Action}
    (lasting : ∀ action ∈ actions, action.Lasting) (ran : service.run actions = some after)
    (roomy : after.Roomy) : after.Settled ∧ service.cache.entries ⊆ after.cache.entries := by
  suffices kept : after.Roomy → after.Settled ∧ service.cache.entries ⊆ after.cache.entries from
    kept roomy
  refine holds_of_run_of (P := fun state =>
      state.Roomy → state.Settled ∧ service.cache.entries ⊆ state.cache.entries)
    (fun _ => ⟨settled, List.Subset.refl _⟩) ?_ lasting ran
  intro before action next lasting kept stepped roomy
  have roomyBefore := roomy.of_lasting lasting stepped
  obtain ⟨settled, entries⟩ := kept roomyBefore
  obtain ⟨settled, more⟩ := settled.step roomyBefore lasting stepped
  exact ⟨settled, List.Subset.trans entries more⟩

theorem Roomy.of_run {actions : List Action} (roomy : after.Roomy)
    (lasting : ∀ action ∈ actions, action.Lasting) (ran : service.run actions = some after) :
    service.Roomy := by
  suffices back : after.Roomy → service.Roomy from back roomy
  exact holds_of_run_of (P := fun state => state.Roomy → service.Roomy) id
    (fun lasting back stepped roomy => back (roomy.of_lasting lasting stepped)) lasting ran

/-- The entry is there at some point of the run, and until then there is none of its key. -/
def FirstStored (service : Service) (actions : List Action) (entry : CacheEntry) : Prop :=
  ∃ done state, done <+: actions ∧ service.run done = some state ∧ entry ∈ state.cache.entries ∧
    ∀ sooner earlier, sooner <+: done → sooner ≠ done → service.run sooner = some earlier →
      ∀ other ∈ earlier.cache.entries, other.key ≠ entry.key

theorem exists_firstStored {actions : List Action} (ran : service.run actions = some after)
    {entry : CacheEntry} (member : entry ∈ after.cache.entries) :
    ∃ first, service.FirstStored actions first ∧ first.key = entry.key := by
  classical
  have ends : ∃ n state, service.run (actions.take n) = some state ∧
      ∃ other ∈ state.cache.entries, other.key = entry.key :=
    ⟨actions.length, after, by rwa [List.take_length], entry, member, rfl⟩
  obtain ⟨state, here, first, inside, own⟩ := Nat.find_spec ends
  refine ⟨first, ⟨_, state, List.take_prefix _ _, here, inside, ?_⟩, own⟩
  intro sooner earlier short different there other found same
  have less : sooner.length < Nat.find ends := by
    have bound := short.length_le
    rw [List.length_take] at bound
    apply lt_of_le_of_ne (by omega)
    intro long
    apply different (short.eq_of_length _)
    rw [List.length_take]
    omega
  have taken : sooner = actions.take sooner.length :=
    List.prefix_iff_eq_take.mp (short.trans (List.take_prefix _ _))
  exact Nat.find_min ends less ⟨earlier, taken ▸ there, other, found, same.trans own⟩

/-- What is stored first under a key is what the cache holds under it from then on. -/
theorem Settled.mem_of_firstStored (settled : service.Settled) {actions : List Action}
    (lasting : ∀ action ∈ actions, action.Lasting) (ran : service.run actions = some after)
    (roomy : after.Roomy) {entry : CacheEntry} (first : service.FirstStored actions entry) :
    entry ∈ after.cache.entries := by
  obtain ⟨done, state, ⟨rest, rfl⟩, here, inside, -⟩ := first
  rw [run_append, here] at ran
  have later : ∀ action ∈ rest, action.Lasting :=
    fun action member => lasting action (List.mem_append_right _ member)
  have sooner : ∀ action ∈ done, action.Lasting :=
    fun action member => lasting action (List.mem_append_left _ member)
  have middle := (settled.run sooner here (roomy.of_run later ran)).1
  exact (middle.run later ran roomy).2 inside

theorem Settled.answer_unique (settled : service.Settled) {call call' : Call}
    (made : call ∈ service.calls) (made' : call' ∈ service.calls)
    (key : call.request.key = call'.request.key) {compilation compilation' : Compilation}
    (answered : call.answer? = some compilation) (answered' : call'.answer? = some compilation') :
    compilation = compilation' := by
  obtain ⟨entry, member, own, rfl⟩ := settled.held call made compilation answered
  obtain ⟨entry', member', own', rfl⟩ := settled.held call' made' compilation' answered'
  rw [settled.distinct.eq_of_key member member' (own.trans (key.trans own'.symm))]

theorem Settled.mem_keys_iff (settled : service.Settled) (key : CacheKey) :
    key ∈ service.cache.entries.map CacheEntry.key ↔
      ∃ call ∈ service.calls, call.answer?.isSome = true ∧ call.request.key = key := by
  rw [List.mem_map]
  constructor
  · intro held
    obtain ⟨entry, member, rfl⟩ := held
    obtain ⟨call, made, own, answered⟩ := settled.given entry member
    exact ⟨call, made, by rw [answered]; rfl, own⟩
  · intro asked
    obtain ⟨call, made, answered, rfl⟩ := asked
    obtain ⟨compilation, answered⟩ := Option.isSome_iff_exists.mp answered
    obtain ⟨entry, member, own, -⟩ := settled.held call made compilation answered
    exact ⟨entry, member, own⟩

end Service

/-- While entries last and there is room for the keys asked for, the calls of a key are answered
with one compilation, the first that is stored under it, and the cache holds one entry for each key
with an answer. A call that is still compiling can finish, and drops its own outcome for that
compilation. -/
theorem calls_converge (settings : Settings) (actions : List Action) (service : Service)
    (lasting : ∀ action ∈ actions, action.Lasting)
    (ran : (Service.start settings).run actions = some service)
    (room : (service.calls.map fun call => call.request.key).toFinset.card ≤ settings.limit) :
    (∀ call ∈ service.calls, ∀ compilation, call.answer? = some compilation →
      ∃ entry ∈ service.cache.entries, (Service.start settings).FirstStored actions entry ∧
        entry.key = call.request.key ∧ entry.compilation = compilation) ∧
    (∀ call ∈ service.calls, ∀ call' ∈ service.calls, call.request.key = call'.request.key →
      ∀ compilation compilation', call.answer? = some compilation →
        call'.answer? = some compilation' → compilation = compilation') ∧
    (service.cache.entries.map CacheEntry.key).Nodup ∧
    (∀ key, key ∈ service.cache.entries.map CacheEntry.key ↔
      ∃ call ∈ service.calls, call.answer?.isSome = true ∧ call.request.key = key) ∧
    ∀ index request, service.calls[index]? = some ⟨request, none⟩ →
      ∀ expired now, (∀ entry, expired entry = false) →
        ∃ after compilation, service.step (.finish index expired now) = some after ∧
          after.calls[index]? = some ⟨request, some compilation⟩ ∧
          ∀ call ∈ service.calls, call.request.key = request.key →
            ∀ compilation', call.answer? = some compilation' → compilation = compilation' := by
  have begins := Service.settled_start settings
  have limit : service.cache.limit = settings.limit :=
    Service.holds_of_run (P := fun state => state.cache.limit = settings.limit) rfl
      (fun same stepped => (Service.limit_of_step stepped).trans same) ran
  have roomy : service.Roomy := by rwa [Service.Roomy, limit]
  have settled := (begins.run lasting ran roomy).1
  refine ⟨?_, ?_, settled.distinct, settled.mem_keys_iff, ?_⟩
  · intro call made compilation answered
    obtain ⟨entry, member, own, same⟩ := settled.held call made compilation answered
    obtain ⟨first, stored, key⟩ := Service.exists_firstStored ran member
    have there := begins.mem_of_firstStored lasting ran roomy stored
    obtain rfl := settled.distinct.eq_of_key there member key
    exact ⟨first, there, stored, own, same⟩
  · intro call made call' made' key compilation compilation' answered answered'
    exact settled.answer_unique made made' key answered answered'
  · intro index request pending expired now lasting
    have stepped := Service.step_finish pending expired now
    have told := Service.calls_finish pending expired now
    refine ⟨_, _, stepped, told, fun call made key compilation' answered' => ?_⟩
    have after := (settled.finish lasting roomy pending now).1
    have still := Service.mem_calls_finish pending expired now made (by simp [answered'])
    exact after.answer_unique (List.mem_of_getElem? told) still key.symm rfl answered'

namespace Sample

/-- Three calls of one key that all miss, one of another key in between, and a late one, on a cache
without a time to live. -/
def rush : List Action :=
  let board := (cards []).spec
  let filtered := (cards [("open", .bool true)]).spec
  let expired := (Cache.ofSettings .default).isExpired
  [.refer (cards []).view, .lookup 0 board (expired 1), .lookup 0 board (expired 2),
    .lookup 0 filtered (expired 3), .lookup 0 board (expired 4), .finish 1 (expired 5) 5,
    .finish 2 (expired 6) 6, .finish 0 (expired 7) 7, .finish 3 (expired 8) 8,
    .lookup 0 board (expired 9)]

end Sample

theorem calls_converge_rush :
    (∀ action ∈ Sample.rush, action.Lasting) ∧
    ∃ service, (Service.start .default).run Sample.rush = some service ∧
      service.calls.map (fun call => call.answer?.map Compilation.serial) =
        [some 0, some 0, some 1, some 0, some 0] ∧
      (service.calls.map fun call => call.request.key).toFinset.card ≤ Settings.default.limit ∧
      (service.cache.entries.map CacheEntry.key).Nodup ∧
      ∀ call ∈ service.calls, ∀ call' ∈ service.calls, call.request.key = call'.request.key →
        ∀ compilation compilation', call.answer? = some compilation →
          call'.answer? = some compilation' → compilation = compilation' := by
  have lasting : ∀ action ∈ Sample.rush, action.Lasting := by
    simp [Sample.rush, Action.Lasting, Cache.isExpired, Cache.ofSettings, Settings.default]
  have ends : ((Service.start .default).run Sample.rush).map (fun service =>
      ((service.calls.map fun call => call.request.key).toFinset.card,
        service.calls.map fun call => call.answer?.map Compilation.serial)) =
        some (2, [some 0, some 0, some 1, some 0, some 0]) := by
    decide +kernel
  obtain ⟨service, ran, ends⟩ := Option.map_eq_some_iff.mp ends
  obtain ⟨two, serials⟩ := Prod.mk.inj ends
  have room : (service.calls.map fun call => call.request.key).toFinset.card ≤
      Settings.default.limit := by
    rw [two]
    decide
  have converge := calls_converge .default Sample.rush service lasting ran room
  exact ⟨lasting, service, ran, serials, room, converge.2.2.1, converge.2.1⟩

end PathQuery
