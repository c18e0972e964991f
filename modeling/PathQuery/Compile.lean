import PathQuery.Assembly

namespace PathQuery

inductive Event where
  | resolving (level selections : Nat)
  | assembling (level selections : Nat)
  | failed (error : CompileError)
deriving DecidableEq

structure Trace (α : Type) where
  events : List Event
  outcome : Except CompileError α

namespace Trace

def lift {α : Type} (outcome : Except CompileError α) : Trace α := ⟨[], outcome⟩

def step {α : Type} (event : Event) (outcome : Except CompileError α) : Trace α :=
  ⟨[event], outcome⟩

def andThen {α β : Type} (trace : Trace α) (next : α → Trace β) : Trace β :=
  match trace.outcome with
  | .error error => ⟨trace.events, .error error⟩
  | .ok value => ⟨trace.events ++ (next value).events, (next value).outcome⟩

instance : Monad Trace where
  pure value := lift (.ok value)
  bind := andThen

def log {α : Type} (trace : Trace α) : List Event :=
  match trace.outcome with
  | .error error => trace.events ++ [.failed error]
  | .ok _ => trace.events

theorem outcome_bind {α β : Type} (trace : Trace α) (next : α → Trace β) :
    (trace >>= next).outcome = trace.outcome >>= fun value => (next value).outcome := by
  show (andThen trace next).outcome = _
  unfold andThen
  split <;> simp_all [bind, Except.bind]

theorem outcome_foldlM {α β : Type} (next : β → α → Trace β) (value : β) (as : List α) :
    (as.foldlM next value).outcome = as.foldlM (fun value a => (next value a).outcome) value := by
  induction as generalizing value with
  | nil => rfl
  | cons a rest ih =>
    rw [List.foldlM_cons, outcome_bind, List.foldlM_cons]
    simp only [ih]

end Trace

def resolve (view : SchemaView) (root : Name) (levels : Levels) : Trace Resolution :=
  levels.ascending.foldlM (fun resolution level =>
    .step (.resolving level.1 level.2.size) (resolution.addLevel view root level)) ∅

def assemble (plan : Plan) (levels : Levels) : Trace Assembly :=
  levels.descending.foldlM (fun assembly level =>
    .step (.assembling level.1 level.2.size) (Prod.snd <$> (plan.level level).run assembly)) .empty

def compileTraced (view : SchemaView) (spec : Spec) : Trace Document := do
  let root ← .lift (view.queryRoot?.elim (.error .noQueryRoot) .ok)
  let levels := Levels.ofPaths spec.fields.toList
  let resolution ← resolve view root levels
  let assembly ← assemble ⟨view, spec, resolution⟩ levels
  .lift assembly.document

def compile (view : SchemaView) (spec : Spec) : Except CompileError Document :=
  (compileTraced view spec).outcome

theorem compile_eq (view : SchemaView) (spec : Spec) :
    compile view spec = (do
      let root ← view.queryRoot?.elim (.error .noQueryRoot) .ok
      let levels := Levels.ofPaths spec.fields.toList
      let resolution ← levels.ascending.foldlM (Resolution.addLevel view root) ∅
      let assembly ← levels.descending.foldlM
        (fun assembly level => Prod.snd <$> (Plan.level ⟨view, spec, resolution⟩ level).run assembly)
        .empty
      assembly.document) := by
  simp only [compile, compileTraced, resolve, assemble, Trace.outcome_bind, Trace.outcome_foldlM,
    Trace.lift, Trace.step]

end PathQuery
