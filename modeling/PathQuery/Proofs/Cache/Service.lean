import PathQuery.Proofs.Cache.Basic

namespace PathQuery

structure Call where
  request : CompileRequest
  answer? : Option Compilation

structure Service where
  ids : SchemaIds
  refs : List SchemaRef
  cache : Cache
  calls : List Call

/-- What happens next; schemas and calls go by their places. -/
inductive Action where
  | refer (view : SchemaView)
  | lookup (schema : Nat) (spec : Spec) (expired : CacheEntry → Bool)
  | finish (call : Nat) (expired : CacheEntry → Bool) (now : Nat)
  | clear
  | invalidate (schema : SchemaId)

namespace Service

def start (settings : Settings) : Service := ⟨.first, [], .ofSettings settings, []⟩

variable (service : Service)

def refer (view : SchemaView) : Service :=
  let (schema, ids) := service.ids.refer view
  { service with ids, refs := service.refs ++ [schema] }

def lookup (expired : CacheEntry → Bool) (request : CompileRequest) : Service :=
  let found := service.cache.lookup expired request.key
  { service with cache := found.cache, calls := service.calls ++ [⟨request, found.answer⟩] }

def finish (index : Nat) (expired : CacheEntry → Bool) (now : Nat) (request : CompileRequest) :
    Service :=
  let stored := service.cache.store expired now request.key request.outcome
  { service with
    cache := stored.cache
    calls := service.calls.set index ⟨request, some stored.answer⟩ }

/-- There is no next state where no such schema is known or no such call is compiling. -/
def step : Action → Option Service
  | .refer view => some (service.refer view)
  | .lookup schema spec expired =>
    service.refs[schema]?.map fun schema => service.lookup expired ⟨schema, spec⟩
  | .finish index expired now =>
    match service.calls[index]? with
    | some ⟨request, none⟩ => some (service.finish index expired now request)
    | _ => none
  | .clear => some { service with cache := service.cache.clear }
  | .invalidate schema => some { service with cache := (service.cache.invalidate schema).cache }

def run (actions : List Action) : Option Service := actions.foldlM step service

variable {service} {after : Service} {action : Action}

/-- A property that holds at the start and is kept by each step of the kinds that are made holds
after the run. -/
theorem holds_of_run_of {P : Service → Prop} {kind : Action → Prop} (start : P service)
    (kept : ∀ {before action after}, kind action → P before → step before action = some after →
      P after)
    {actions : List Action} (kinds : ∀ action ∈ actions, kind action)
    (ran : service.run actions = some after) : P after := by
  induction actions generalizing service with
  | nil =>
    cases ran
    exact start
  | cons action rest ih =>
    rw [run, List.foldlM_cons, Option.bind_eq_bind, Option.bind_eq_some_iff] at ran
    obtain ⟨next, stepped, ran⟩ := ran
    obtain ⟨own, kinds⟩ := List.forall_mem_cons.mp kinds
    exact ih (kept own start stepped) kinds ran

theorem holds_of_run {P : Service → Prop} (start : P service)
    (kept : ∀ {before action after}, P before → step before action = some after → P after)
    {actions : List Action} (ran : service.run actions = some after) : P after :=
  holds_of_run_of start (fun _ => kept) (fun _ _ => trivial) ran

theorem run_append (first rest : List Action) :
    service.run (first ++ rest) = service.run first >>= fun middle => middle.run rest :=
  List.foldlM_append

theorem run_cons (stepped : service.step action = some after) (rest : List Action) :
    service.run (action :: rest) = after.run rest := by
  rw [run, List.foldlM_cons, stepped]
  rfl

theorem step_cases (stepped : service.step action = some after) :
    (∃ view, after = service.refer view) ∨
    (∃ request expired, request.schema ∈ service.refs ∧
      after = service.lookup expired request) ∨
    (∃ index request expired now, service.calls[index]? = some ⟨request, none⟩ ∧
      after = service.finish index expired now request) ∨
    after = { service with cache := service.cache.clear } ∨
    ∃ schema, after = { service with cache := (service.cache.invalidate schema).cache } := by
  cases action with
  | refer view => exact .inl ⟨view, (Option.some.inj stepped).symm⟩
  | lookup index spec expired =>
    obtain ⟨schema, known, rfl⟩ := Option.map_eq_some_iff.mp stepped
    exact .inr (.inl ⟨⟨schema, spec⟩, expired, List.mem_of_getElem? known, rfl⟩)
  | finish index expired now =>
    simp only [step] at stepped
    split at stepped
    · next request pending =>
      exact .inr (.inr (.inl ⟨index, request, expired, now, pending,
        (Option.some.inj stepped).symm⟩))
    · cases stepped
  | clear => exact .inr (.inr (.inr (.inl (Option.some.inj stepped).symm)))
  | invalidate schema =>
    exact .inr (.inr (.inr (.inr ⟨schema, (Option.some.inj stepped).symm⟩)))

theorem refs_of_step (stepped : service.step action = some after) :
    (∃ view, after = service.refer view) ∨
      after.refs = service.refs ∧ after.ids = service.ids := by
  rcases step_cases stepped with refers | looks | finishes | rfl | invalidates
  · exact .inl refers
  · obtain ⟨request, expired, _, rfl⟩ := looks
    exact .inr ⟨rfl, rfl⟩
  · obtain ⟨index, request, expired, now, _, rfl⟩ := finishes
    exact .inr ⟨rfl, rfl⟩
  · exact .inr ⟨rfl, rfl⟩
  · obtain ⟨schema, rfl⟩ := invalidates
    exact .inr ⟨rfl, rfl⟩

theorem mem_refs_of_step (stepped : service.step action = some after) {schema : SchemaRef}
    (known : schema ∈ service.refs) : schema ∈ after.refs := by
  rcases refs_of_step stepped with refers | same
  · obtain ⟨view, rfl⟩ := refers
    exact List.mem_append_left _ known
  · exact same.1 ▸ known

theorem request_of_step (stepped : service.step action = some after) {call : Call}
    (made : call ∈ after.calls) :
    (∃ before ∈ service.calls, before.request = call.request) ∨
      call.request.schema ∈ service.refs := by
  rcases step_cases stepped with refers | looks | finishes | rfl | invalidates
  · obtain ⟨view, rfl⟩ := refers
    exact .inl ⟨call, made, rfl⟩
  · obtain ⟨request, expired, known, rfl⟩ := looks
    rcases List.mem_append.mp made with made | made
    · exact .inl ⟨call, made, rfl⟩
    · obtain rfl := List.mem_singleton.mp made
      exact .inr known
  · obtain ⟨index, request, expired, now, pending, rfl⟩ := finishes
    rcases List.mem_or_eq_of_mem_set made with made | rfl
    · exact .inl ⟨call, made, rfl⟩
    · exact .inl ⟨_, List.mem_of_getElem? pending, rfl⟩
  · exact .inl ⟨call, made, rfl⟩
  · obtain ⟨schema, rfl⟩ := invalidates
    exact .inl ⟨call, made, rfl⟩

section Calls

variable {index : Nat} {schema : SchemaRef} {request : CompileRequest}

theorem step_lookup (known : service.refs[index]? = some schema) (spec : Spec)
    (expired : CacheEntry → Bool) :
    service.step (.lookup index spec expired) = some (service.lookup expired ⟨schema, spec⟩) := by
  rw [step, known]
  rfl

theorem step_finish (pending : service.calls[index]? = some ⟨request, none⟩)
    (expired : CacheEntry → Bool) (now : Nat) :
    service.step (.finish index expired now) =
      some (service.finish index expired now request) := by
  simp only [step, pending]

theorem calls_lookup (expired : CacheEntry → Bool) (request : CompileRequest) :
    (service.lookup expired request).calls[service.calls.length]? =
      some ⟨request, (service.cache.lookup expired request.key).answer⟩ :=
  List.getElem?_concat_length

theorem calls_finish (pending : service.calls[index]? = some ⟨request, none⟩)
    (expired : CacheEntry → Bool) (now : Nat) :
    (service.finish index expired now request).calls[index]? = some ⟨request,
      some (service.cache.store expired now request.key request.outcome).answer⟩ :=
  List.getElem?_set_self (List.getElem?_eq_some_iff.mp pending).1

/-- A whole call is a run: it looks up and, if that is a miss, finishes at once. -/
theorem exists_run_compile (known : service.refs[index]? = some schema) (spec : Spec)
    (now : Nat) :
    ∃ actions after, service.run actions = some after ∧ after.refs = service.refs ∧
      after.cache = (service.cache.compile now ⟨schema, spec⟩).cache ∧
      after.calls = service.calls ++
        [⟨⟨schema, spec⟩, some (service.cache.compile now ⟨schema, spec⟩).answer⟩] := by
  let expired := service.cache.isExpired now
  let looked := service.lookup expired ⟨schema, spec⟩
  have first : service.step (.lookup index spec expired) = some looked :=
    step_lookup known spec expired
  cases found : (service.cache.lookup expired (CompileRequest.key ⟨schema, spec⟩)).answer with
  | some compilation =>
    refine ⟨[.lookup index spec expired], looked, run_cons first [], rfl, ?_, ?_⟩
    all_goals simp [looked, lookup, Cache.compile, expired, found]
  | none =>
    have pending : looked.calls[service.calls.length]? = some ⟨⟨schema, spec⟩, none⟩ :=
      (calls_lookup expired _).trans (by rw [found])
    refine ⟨[.lookup index spec expired, .finish service.calls.length expired now], _,
      (run_cons first _).trans (run_cons (step_finish pending expired now) []), rfl, ?_, ?_⟩
    all_goals simp [looked, finish, lookup, Cache.compile, expired, found]

end Calls

end Service

end PathQuery
