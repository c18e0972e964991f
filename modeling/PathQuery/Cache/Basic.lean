import PathQuery.Cache.Lru
import PathQuery.Cache.Settings
import PathQuery.Compile
import PathQuery.Schema.Identity

namespace PathQuery

abbrev Outcome := Except CompileError Document

/-- A finished compilation; equal serials mean one and the same. -/
structure Compilation where
  serial : Nat
  outcome : Outcome

def Compilation.failure? (compilation : Compilation) : Option CompileError :=
  match compilation.outcome with
  | .error error => some error
  | .ok _ => none

structure CacheKey where
  schema : SchemaId
  /-- In canonical form, so that the order of members makes no difference. -/
  spec : Spec
deriving DecidableEq

structure CacheEntry where
  key : CacheKey
  compilation : Compilation
  storedAt : Nat

inductive CacheEvent where
  | hit (schema : SchemaId) (failure? : Option CompileError)
  | miss (schema : SchemaId)
  | expired (schema : SchemaId)
  | caching (schema : SchemaId) (failure? : Option CompileError)
  | evicted (schema : SchemaId)
  | storedMeanwhile (schema : SchemaId)
  | invalidated (schema : SchemaId) (count : Nat)
deriving DecidableEq

/-- The serial is that of the next compilation to be stored. -/
structure Cache extends Lru CacheEntry.key where
  ttl? : Option Duration
  next : Nat

structure CacheEffect (α : Type) where
  answer : α
  cache : Cache
  events : List CacheEvent

structure CompileRequest where
  schema : SchemaRef
  spec : Spec

namespace CompileRequest

def key (request : CompileRequest) : CacheKey := ⟨request.schema.id, request.spec.canonical⟩

def outcome (request : CompileRequest) : Outcome := compile request.schema.view request.spec

end CompileRequest

namespace Cache

def ofSettings (settings : Settings) : Cache where
  limit := settings.limit
  entries := []
  ttl? := settings.ttl?
  next := 0

def size (cache : Cache) : Nat := cache.entries.length

def isEmpty (cache : Cache) : Bool := cache.entries.isEmpty

def isExpired (cache : Cache) (now : Nat) (entry : CacheEntry) : Bool :=
  cache.ttl?.any fun ttl => ttl.nanoseconds ≤ now - entry.storedAt

def lookup (cache : Cache) (expired : CacheEntry → Bool) (key : CacheKey) :
    CacheEffect (Option Compilation) :=
  match cache.get key with
  | (none, _) => ⟨none, cache, [.miss key.schema]⟩
  | (some entry, used) =>
    if expired entry then
      ⟨none, { cache with toLru := used.pop key }, [.expired key.schema, .miss key.schema]⟩
    else
      ⟨some entry.compilation, { cache with toLru := used },
        [.hit key.schema entry.compilation.failure?]⟩

def store (cache : Cache) (expired : CacheEntry → Bool) (now : Nat) (key : CacheKey)
    (outcome : Outcome) : CacheEffect Compilation :=
  let (held?, used) := cache.get key
  match held?.filter fun entry => !expired entry with
  | some entry =>
    ⟨entry.compilation, { cache with toLru := used }, [.storedMeanwhile key.schema]⟩
  | none =>
    let compilation : Compilation := ⟨cache.next, outcome⟩
    let replaced := used.contains key
    let (gone?, pushed) := used.push ⟨key, compilation, now⟩
    let evicted? := gone?.filter fun _ => !replaced
    ⟨compilation, { cache with toLru := pushed, next := cache.next + 1 },
      .caching key.schema compilation.failure? ::
        (evicted?.map fun entry => .evicted entry.key.schema).toList⟩

def compile (cache : Cache) (now : Nat) (request : CompileRequest) : CacheEffect Compilation :=
  let found := cache.lookup (cache.isExpired now) request.key
  match found.answer with
  | some compilation => ⟨compilation, found.cache, found.events⟩
  | none =>
    let stored := found.cache.store (cache.isExpired now) now request.key request.outcome
    ⟨stored.answer, stored.cache, found.events ++ stored.events⟩

def compileAll (cache : Cache) (now : Nat) : List CompileRequest → CacheEffect (List Compilation)
  | [] => ⟨[], cache, []⟩
  | request :: rest =>
    let first := cache.compile now request
    let others := first.cache.compileAll now rest
    ⟨first.answer :: others.answer, others.cache, first.events ++ others.events⟩

/-- A request during whose own compilation others run to their end. A hit compiles nothing, so none
of them gets to run. -/
def compileDuring (cache : Cache) (now : Nat) (request : CompileRequest)
    (meanwhile : List CompileRequest) : CacheEffect (Compilation × List Compilation) :=
  let found := cache.lookup (cache.isExpired now) request.key
  match found.answer with
  | some compilation => ⟨(compilation, []), found.cache, found.events⟩
  | none =>
    let ran := found.cache.compileAll now meanwhile
    let stored := ran.cache.store (cache.isExpired now) now request.key request.outcome
    ⟨(stored.answer, ran.answer), stored.cache, found.events ++ ran.events ++ stored.events⟩

def clear (cache : Cache) : Cache := { cache with entries := [] }

def invalidate (cache : Cache) (schema : SchemaId) : CacheEffect Nat :=
  let keys := (cache.entries.map CacheEntry.key).filter fun key => key.schema = schema
  ⟨keys.length, { cache with toLru := keys.foldl Lru.pop cache.toLru },
    [.invalidated schema keys.length]⟩

end Cache

def Cache.describe (cache : Cache) : String :=
  let ttl := cache.ttl?.elim "None" fun ttl => "Some(" ++ ttl.inOneUnit ++ ")"
  "CompileCache \x7b len: " ++ toString cache.size ++ ", ttl: " ++ ttl ++ " \x7d"

end PathQuery
