import PathQuery.Proofs.Compile
import PathQuery.Proofs.Spec.Reach

namespace PathQuery

open Std

namespace Trace

variable {α β : Type}

/-- A loop announces each step that it comes to: all of them, or those up to the first failure. -/
theorem foldlM_step (event : α → Event) (next : β → α → Except CompileError β) (as : List α)
    (start : β) :
    let trace : Trace β := as.foldlM (fun value a => step (event a) (next value a)) start
    (trace.events = as.map event ∧ ∃ value, trace.outcome = .ok value) ∨
    ∃ done a rest value error, as = done ++ a :: rest ∧ done.foldlM next start = .ok value ∧
      next value a = .error error ∧ trace.outcome = .error error ∧
      trace.events = (done ++ [a]).map event := by
  induction as generalizing start with
  | nil => exact .inl ⟨rfl, start, rfl⟩
  | cons a as ih =>
    intro trace
    have first : trace = andThen (step (event a) (next start a)) fun value =>
        as.foldlM (fun value a => step (event a) (next value a)) value :=
      List.foldlM_cons
    cases made : next start a with
    | error error =>
      rw [made] at first
      exact .inr ⟨[], a, as, start, error, rfl, rfl, made, by rw [first]; rfl, by rw [first]; rfl⟩
    | ok value =>
      rw [made] at first
      rcases ih value with all | stopped
      · obtain ⟨events, result, outcome⟩ := all
        refine .inl ⟨?_, result, by rw [first]; exact outcome⟩
        rw [first, List.map_cons, ← events]
        rfl
      · obtain ⟨done, b, rest, state, error, rfl, sofar, failed, outcome, events⟩ := stopped
        refine .inr ⟨a :: done, b, rest, state, error, rfl, ?_, failed, ?_, ?_⟩
        · rw [List.foldlM_cons, made]
          exact sofar
        · rw [first]
          exact outcome
        · rw [first, List.cons_append, List.map_cons, ← events]
          rfl

theorem andThen_of_error {trace : Trace α} {next : α → Trace β} {error : CompileError}
    (failed : trace.outcome = .error error) :
    andThen trace next = ⟨trace.events, .error error⟩ := by
  rw [andThen, failed]

theorem andThen_of_ok {trace : Trace α} {next : α → Trace β} {value : α}
    (ok : trace.outcome = .ok value) :
    andThen trace next = ⟨trace.events ++ (next value).events, (next value).outcome⟩ := by
  rw [andThen, ok]

end Trace

def CompileError.level? : CompileError → Option Nat
  | .unresolvedField selection _ _ => some selection.length
  | .unboundArgument argument _ _ | .invalidKey argument _ => some argument.level
  | .variableConflict _ _ _ | .fragmentConflict _ | .noQueryRoot | .breach _ => none

def CompileError.OnLevel (level : Nat) (error : CompileError) : Prop :=
  error.level?.getD level = level

namespace Resolution

theorem meets_onLevel_addSelection (view : SchemaView) (root : Name) (level : Nat)
    (resolution : Resolution) (chain : Chain) :
    Meets (CompileError.OnLevel chain.length) (fun _ => True)
      (addSelection view root level resolution chain) := by
  unfold addSelection
  cases chain.getLast? with
  | none => rfl
  | some segment =>
    have above : Meets (CompileError.OnLevel chain.length) (fun _ => True)
        (parentType root resolution chain segment) := by
      unfold parentType
      split
      · trivial
      · cases resolution[chain.dropLast]? with
        | none => rfl
        | some parent =>
          dsimp only
          cases parent.composite? with
          | none => rfl
          | some type => trivial
    apply above.bind
    intro type _
    cases view.select? type segment with
    | none => rfl
    | some definition => trivial

theorem meets_onLevel_addLevel (view : SchemaView) (root : Name) (resolution : Resolution)
    {level : Nat × ChainSet} (flat : ∀ chain ∈ level.2.toList, chain.length = level.1) :
    Meets (CompileError.OnLevel level.1) (fun _ => True)
      (addLevel view root resolution level) := by
  refine Meets.foldlM (fun _ _ => True) trivial fun done chain rest resolution split _ => ?_
  have length := flat chain (by simp [split])
  exact length ▸ meets_onLevel_addSelection view root level.1 resolution chain

end Resolution

namespace Assembly

variable {level : Nat}

theorem failsOnly_declare (argument : Path) (definition : VariableDefinition) :
    FailsOnly (CompileError.OnLevel level) (declare argument definition) := by
  apply FailsOnly.get.bind
  intro assembly
  refine (FailsOnly.lift ?_).bind fun variableTable => .set _
  unfold Variables.declare
  dsimp only
  cases assembly.variableTable[definition.name]? with
  | none => trivial
  | some entry =>
    dsimp only
    split
    · trivial
    · split <;> rfl

theorem failsOnly_define (definition : FragmentDefinition) :
    FailsOnly (CompileError.OnLevel level) (define definition) := by
  apply FailsOnly.get.bind
  intro assembly
  refine (FailsOnly.lift ?_).bind fun fragmentTable => .set _
  unfold Fragments.define
  cases assembly.fragmentTable[definition.name]? with
  | none => trivial
  | some existing =>
    dsimp only
    split
    · trivial
    · rfl

theorem failsOnly_take (parent : Chain) :
    FailsOnly (CompileError.OnLevel level) (take parent) :=
  FailsOnly.get.bind fun _ => (FailsOnly.set _).bind fun _ => .pure _

theorem failsOnly_leave (number : Nat) (parent : Chain) (selections : List Selection) :
    FailsOnly (CompileError.OnLevel level) (leave number parent selections) := by
  apply FailsOnly.get.bind
  intro assembly
  split
  · exact .throw rfl
  · exact .set _

end Assembly

namespace Plan

variable (plan : Plan) {level : Nat}

theorem meets_onLevel_explicitValue? (argument : Path) (type : TypeRef) :
    Meets (CompileError.OnLevel argument.level) (fun _ => True)
      (plan.explicitValue? argument type) := by
  unfold explicitValue?
  cases plan.spec.defaultFor? argument with
  | none => trivial
  | some literal =>
    dsimp only
    cases literal.toValue plan.view (some type) with
    | error key => rfl
    | ok value => trivial

theorem meets_onLevel_fallback (argument : Path) (input : InputDefinition)
    (explicit? : Option Value) :
    Meets (CompileError.OnLevel argument.level) (fun _ => True)
      (fallback argument input explicit?) := by
  unfold fallback
  cases explicit? <|> input.default? with
  | some value => trivial
  | none =>
    dsimp only
    split
    · trivial
    · split
      · rfl
      · trivial

theorem failsOnly_argument {chain : Chain} (length : chain.length = level)
    (input : InputDefinition) :
    FailsOnly (CompileError.OnLevel level) (plan.argument chain input) := by
  subst length
  refine (FailsOnly.lift (plan.meets_onLevel_explicitValue? _ input.type)).bind fun explicit? => ?_
  cases plan.spec.variableFor? ((Path.ofSelection chain).argumentPath input.name) with
  | some name => exact (Assembly.failsOnly_declare _ _).bind fun _ => .pure _
  | none => exact (FailsOnly.lift (meets_onLevel_fallback _ input explicit?)).bind fun _ => .pure _

theorem failsOnly_field {chain : Chain} (length : chain.length = level) :
    FailsOnly (CompileError.OnLevel level) (plan.field chain) := by
  unfold field
  split
  · refine (FailsOnly.mapM fun input _ => plan.failsOnly_argument length input).bind fun _ => ?_
    exact (Assembly.failsOnly_take chain).bind fun _ => .pure _
  · exact .throw rfl

theorem failsOnly_group (context : Context) {chains : List Chain}
    (flat : ∀ chain ∈ chains, chain.length = level) :
    FailsOnly (CompileError.OnLevel level) (plan.group context chains) := by
  refine (FailsOnly.mapM fun chain member => plan.failsOnly_field (flat chain member)).bind
    fun fields => ?_
  cases context with
  | plain => exact .pure _
  | inline type => exact .pure _
  | spread fragment type => exact (Assembly.failsOnly_define _).bind fun _ => .pure _

theorem failsOnly_siblings {chains : List Chain}
    (flat : ∀ chain ∈ chains, chain.length = level) :
    FailsOnly (CompileError.OnLevel level) (plan.siblings chains) := by
  refine (FailsOnly.mapM fun run member => ?_).bind fun _ => .pure _
  exact plan.failsOnly_group run.1 fun chain inside => flat chain (mem_of_mem_run member inside)

theorem failsOnly_children (number : Nat) (parent? : Option Chain) {chains : List Chain}
    (flat : ∀ chain ∈ chains, chain.length = level) :
    FailsOnly (CompileError.OnLevel level) (plan.children number parent? chains) := by
  cases parent? with
  | none => exact .throw rfl
  | some parent =>
    exact (plan.failsOnly_siblings flat).bind fun _ => Assembly.failsOnly_leave number parent _

theorem failsOnly_level {level : Nat × ChainSet}
    (flat : ∀ chain ∈ level.2.toList, chain.length = level.1) :
    FailsOnly (CompileError.OnLevel level.1) (plan.level level) :=
  FailsOnly.forM fun run member => plan.failsOnly_children level.1 run.1
    fun chain inside => flat chain (mem_of_mem_run member inside)

end Plan

namespace Spec

variable (spec : Spec)

def resolvingEvents (last : Nat) : List Event :=
  (List.range' 1 last).map fun level => .resolving level (spec.width level)

def assemblingEvents (last : Nat) : List Event :=
  (List.range' last (spec.reach + 1 - last)).reverse.map fun level =>
    .assembling level (spec.width level)

theorem assemblingEvents_of_reach_lt {last : Nat} (above : spec.reach < last) :
    spec.assemblingEvents last = [] := by
  rw [assemblingEvents, Nat.sub_eq_zero_of_le above]
  rfl

end Spec

def failures {α : Type} : Except CompileError α → List Event
  | .ok _ => []
  | .error error => [.failed error]

theorem Trace.log_eq {α : Type} (trace : Trace α) :
    trace.log = trace.events ++ failures trace.outcome := by
  unfold Trace.log
  cases trace.outcome <;> simp [failures]

theorem Levels.Holds.map_numbered {levels : Levels} {spec : Spec}
    (holds : levels.Holds (· ∈ spec.closure)) (event : Nat → Nat → Event) (numbers : List Nat)
    (positive : ∀ number ∈ numbers, 1 ≤ number) :
    (numbers.map levels.numbered).map (fun level => event level.1 level.2.size) =
      numbers.map fun number => event number (spec.width number) := by
  rw [List.map_map]
  apply List.map_congr_left
  intro number member
  exact congrArg (event number) (holds.size_chainsAt (positive number member))

theorem Levels.filter_deeper {levels : Levels} {below above : List (Nat × ChainSet)}
    {level : Nat × ChainSet} (split : levels.descending = below ++ level :: above) :
    levels.descending.filter (fun deeper => level.1 < deeper.1) = below := by
  have sorted : levels.descending.Pairwise fun one next => next.1 < one.1 :=
    List.pairwise_reverse.mpr levels.ascending_sorted
  rw [split] at sorted ⊢
  obtain ⟨-, upper, deeper⟩ := List.pairwise_append.mp sorted
  have all : below.filter (fun deeper => level.1 < deeper.1) = below :=
    List.filter_eq_self.mpr fun one member => decide_eq_true (deeper one member level (by simp))
  have none : (level :: above).filter (fun deeper => level.1 < deeper.1) = [] := by
    refine List.filter_eq_nil_iff.mpr fun one member => ?_
    rcases List.mem_cons.mp member with rfl | member
    · simp
    · have := (List.pairwise_cons.mp upper).1 one member
      simp only [decide_eq_true_eq]
      omega
  rw [List.filter_append, all, none, List.append_nil]

namespace Query

variable (query : Query)

theorem flat_of_mem_ascending {level : Nat × ChainSet} (found : level ∈ query.levels.ascending) :
    ∀ chain ∈ level.2.toList, chain.length = level.1 :=
  fun _ inside => ((query.holds_levels.mem_level found).mp inside).2

def AssemblesBelow (resolution : Resolution) (level : Nat) : Prop :=
  ∃ assembly, query.assembleLevels resolution
    (query.levels.descending.filter fun deeper => level < deeper.1) = .ok assembly

/-- Resolution comes to every level, or else to those up to the one with its error. -/
theorem resolve_events (root : Name) :
    let trace := resolve query.view root query.levels
    ((∃ resolution, trace.outcome = .ok resolution) ∧
      trace.events = query.spec.resolvingEvents query.spec.reach) ∨
    ∃ level error, (1 ≤ level ∧ level ≤ query.spec.reach) ∧ trace.outcome = .error error ∧
      error.OnLevel level ∧ trace.events = query.spec.resolvingEvents level := by
  have holds := query.holds_levels
  intro trace
  rcases Trace.foldlM_step (fun level => .resolving level.1 level.2.size)
    (Resolution.addLevel query.view root) query.levels.ascending ∅ with all | stopped
  · obtain ⟨events, finished⟩ := all
    refine .inl ⟨finished, events.trans ?_⟩
    rw [holds.ascending_eq]
    exact holds.map_numbered .resolving _ fun _ inside => (List.mem_range'_1.mp inside).1
  · obtain ⟨above, level, below, resolution, error, split, -, failed, outcome, events⟩ := stopped
    obtain ⟨bounds, upTo, -⟩ := holds.ascending_split split
    have onLevel := (Resolution.meets_onLevel_addLevel query.view root resolution
      (query.flat_of_mem_ascending (by simp [split]))).of_error failed
    refine .inr ⟨level.1, error, bounds, outcome, onLevel, events.trans ?_⟩
    rw [upTo]
    exact holds.map_numbered .resolving _ fun _ inside => (List.mem_range'_1.mp inside).1

theorem assemble_events (resolution : Resolution) :
    let trace := assemble ⟨query.view, query.spec, resolution⟩ query.levels
    ((∃ assembly, trace.outcome = .ok assembly) ∧
      trace.events = query.spec.assemblingEvents 1) ∨
    ∃ level error, (1 ≤ level ∧ level ≤ query.spec.reach) ∧ trace.outcome = .error error ∧
      error.OnLevel level ∧ query.AssemblesBelow resolution level ∧
      trace.events = query.spec.assemblingEvents level := by
  have holds := query.holds_levels
  intro trace
  rcases Trace.foldlM_step (fun level => .assembling level.1 level.2.size)
    (fun assembly level =>
      Prod.snd <$> (Plan.level ⟨query.view, query.spec, resolution⟩ level).run assembly)
    query.levels.descending .empty with all | stopped
  · obtain ⟨events, finished⟩ := all
    refine .inl ⟨finished, events.trans ?_⟩
    rw [Levels.descending, holds.ascending_eq, ← List.map_reverse]
    refine holds.map_numbered .assembling _ fun _ inside => ?_
    exact (List.mem_range'_1.mp (List.mem_reverse.mp inside)).1
  · obtain ⟨below, level, above, assembly, error, split, sofar, failed, outcome, events⟩ := stopped
    have ascending : query.levels.ascending = above.reverse ++ level :: below.reverse := by
      rw [← List.reverse_reverse query.levels.ascending, ← Levels.descending, split]
      simp
    obtain ⟨bounds, -, downTo⟩ := holds.ascending_split ascending
    have flat := @flat_of_mem_ascending query level (by simp [ascending])
    have kind : Meets (CompileError.OnLevel level.1) (fun _ => True) (Prod.snd <$>
        (Plan.level ⟨query.view, query.spec, resolution⟩ level).run assembly) :=
      (Plan.failsOnly_level _ flat assembly).map
    refine .inr ⟨level.1, error, bounds, outcome, kind.of_error failed, ⟨assembly, ?_⟩,
      events.trans ?_⟩
    · rw [Levels.filter_deeper split]
      exact sofar
    · have seen : below ++ [level] = ((List.range' level.1
          (query.spec.reach + 1 - level.1)).reverse).map query.levels.numbered := by
        rw [List.map_reverse, ← downTo]
        simp
      rw [seen]
      refine holds.map_numbered .assembling _ fun _ inside => ?_
      have := (List.mem_range'_1.mp (List.mem_reverse.mp inside)).1
      omega

/-- The last level that is resolved and the last one that is assembled, by how compilation ends.
Assembling goes up from the deepest level, so a level below that one stands for none at all. -/
def StopsAt (resolved assembled : Nat) : Except CompileError Document → Prop
  | .ok _ => resolved = query.spec.reach ∧ assembled = 1
  | .error .noQueryRoot => resolved = 0 ∧ assembled = query.spec.reach + 1
  | .error (.unresolvedField selection _ _) =>
    (1 ≤ selection.length ∧ selection.length ≤ query.spec.reach) ∧
      resolved = selection.length ∧ assembled = query.spec.reach + 1
  | .error (.unboundArgument argument _ _) | .error (.invalidKey argument _) =>
    (1 ≤ argument.level ∧ argument.level ≤ query.spec.reach) ∧
      resolved = query.spec.reach ∧ assembled = argument.level
  | .error (.variableConflict _ _ _) | .error (.fragmentConflict _) =>
    (1 ≤ assembled ∧ assembled ≤ query.spec.reach) ∧ resolved = query.spec.reach
  | .error (.breach _) => False

variable {query}

theorem LacksField.stopsAt {error : CompileError} (lacks : query.LacksField error) {level : Nat}
    (bounds : 1 ≤ level ∧ level ≤ query.spec.reach) (onLevel : error.OnLevel level) :
    query.StopsAt level (query.spec.reach + 1) (.error error) := by
  obtain ⟨selection, type, field, rfl, -⟩ := lacks
  have length : selection.length = level := onLevel
  subst length
  exact ⟨bounds, rfl, rfl⟩

theorem Violates.stopsAt {error : CompileError} (violates : query.Violates error)
    (rooted : query.Rooted) (resolved : query.Resolved) {level : Nat}
    (bounds : 1 ≤ level ∧ level ≤ query.spec.reach) (onLevel : error.OnLevel level) :
    query.StopsAt query.spec.reach level (.error error) := by
  cases error with
  | noQueryRoot => exact absurd rooted violates
  | unresolvedField selection type field => exact absurd resolved violates.blames
  | unboundArgument argument name type =>
    have same : argument.level = level := onLevel
    subst same
    exact ⟨bounds, rfl, rfl⟩
  | invalidKey argument key =>
    have same : argument.level = level := onLevel
    subst same
    exact ⟨bounds, rfl, rfl⟩
  | variableConflict name existing conflicting => exact ⟨bounds, rfl⟩
  | fragmentConflict fragment => exact ⟨bounds, rfl⟩
  | breach what => exact violates

theorem compileTraced_of_rooted {root : Name} (rooted : query.view.queryRoot? = some root) :
    compileTraced query.view query.spec =
      (resolve query.view root query.levels).andThen fun resolution =>
        (assemble ⟨query.view, query.spec, resolution⟩ query.levels).andThen fun assembly =>
          .lift assembly.document := by
  rw [compileTraced, rooted]
  rfl

theorem resolveLevels_eq_outcome (root : Name) :
    query.resolveLevels root query.levels.ascending =
      (resolve query.view root query.levels).outcome := by
  rw [resolve, Trace.outcome_foldlM]
  rfl

theorem assembleLevels_eq_outcome (resolution : Resolution) :
    query.assembleLevels resolution query.levels.descending =
      (assemble ⟨query.view, query.spec, resolution⟩ query.levels).outcome := by
  rw [assemble, Trace.outcome_foldlM]
  rfl

/-- Once everything has been resolved, whatever fails does so in assembling. -/
theorem events_of_resolves {root : Name} {resolution : Resolution}
    (rooted : query.view.queryRoot? = some root)
    (resolves : (resolve query.view root query.levels).outcome = .ok resolution) :
    ∃ assembled, query.StopsAt query.spec.reach assembled (compile query.view query.spec) ∧
      (compileTraced query.view query.spec).events =
        (resolve query.view root query.levels).events ++ query.spec.assemblingEvents assembled ∧
      ∀ error, compile query.view query.spec = .error error →
        query.AssemblesBelow resolution assembled := by
  have holds := query.holds_levels
  have traced := compileTraced_of_rooted rooted
  rw [Trace.andThen_of_ok resolves] at traced
  have reads := (Resolution.meets_addLevels holds rooted (List.append_nil _).symm).of_ok
    ((query.resolveLevels_eq_outcome root).trans resolves)
  have assembling := Plan.meets_levels holds reads (List.append_nil _).symm
  rw [assembleLevels_eq_outcome] at assembling
  rcases query.assemble_events resolution with finished | stopped
  · obtain ⟨⟨assembly, outcome⟩, events⟩ := finished
    have reflects := assembling.of_ok outcome
    have document : assembly.document = .ok _ :=
      if_pos (by rw [reflects.waiting_erase_root holds]; rfl)
    rw [Trace.andThen_of_ok outcome, document] at traced
    refine ⟨1, ?_, ?_, fun error failed => ?_⟩
    · rw [compile, traced]
      exact ⟨rfl, rfl⟩
    · rw [traced, ← events]
      exact congrArg _ (List.append_nil _)
    · rw [compile, traced] at failed
      cases failed
  · obtain ⟨level, error, bounds, failed, onLevel, below, events⟩ := stopped
    have resolved : query.Resolved :=
      fun chain selected => reads.resolved chain (holds.mem_inOrder.mpr selected)
    rw [Trace.andThen_of_error failed] at traced
    refine ⟨level, ?_, by rw [traced, ← events], fun _ _ => below⟩
    rw [compile, traced]
    exact (assembling.of_error failed).stopsAt (by rw [Query.Rooted, rooted]; rfl) resolved bounds
      onLevel

theorem events_of_rooted {root : Name} (rooted : query.view.queryRoot? = some root) :
    ∃ resolved assembled, query.StopsAt resolved assembled (compile query.view query.spec) ∧
      (compileTraced query.view query.spec).events =
        query.spec.resolvingEvents resolved ++ query.spec.assemblingEvents assembled ∧
      ∀ error, compile query.view query.spec = .error error → assembled ≤ query.spec.reach →
        ∃ resolution, query.resolveLevels root query.levels.ascending = .ok resolution ∧
          query.AssemblesBelow resolution assembled := by
  rcases query.resolve_events root with finished | stopped
  · obtain ⟨⟨resolution, resolves⟩, events⟩ := finished
    obtain ⟨assembled, stops, all, below⟩ := events_of_resolves rooted resolves
    refine ⟨query.spec.reach, assembled, stops, events ▸ all, fun error failed _ => ?_⟩
    exact ⟨resolution, (query.resolveLevels_eq_outcome root).trans resolves, below error failed⟩
  · obtain ⟨level, error, bounds, failed, onLevel, events⟩ := stopped
    have traced := compileTraced_of_rooted rooted
    rw [Trace.andThen_of_error failed] at traced
    have lacks := (Resolution.meets_addLevels query.holds_levels rooted
      (List.append_nil _).symm).of_error ((query.resolveLevels_eq_outcome root).trans failed)
    refine ⟨level, query.spec.reach + 1, ?_, ?_, fun _ _ below => ?_⟩
    · rw [compile, traced]
      exact lacks.stopsAt bounds onLevel
    · rw [traced, Spec.assemblingEvents_of_reach_lt _ (Nat.lt_succ_self _), List.append_nil]
      exact events
    · omega

end Query

/-- Levels are logged from the first on as they are resolved, then from the deepest on as they are
assembled, each with its width, and a failure comes last. An error of resolution keeps every level
from being assembled; an error at an argument comes after all deeper levels were assembled. -/
theorem compile_log_in_order (query : Query) :
    (∃ resolved assembled, query.StopsAt resolved assembled (compile query.view query.spec) ∧
      (compileTraced query.view query.spec).log =
        query.spec.resolvingEvents resolved ++ query.spec.assemblingEvents assembled ++
          failures (compile query.view query.spec) ∧
      ∀ error, compile query.view query.spec = .error error → assembled ≤ query.spec.reach →
        ∃ root resolution, query.view.queryRoot? = some root ∧
          query.resolveLevels root query.levels.ascending = .ok resolution ∧
          query.AssemblesBelow resolution assembled) ∧
    (query.view.queryRoot? = none →
      (compileTraced query.view query.spec).log = [.failed .noQueryRoot]) := by
  rw [Trace.log_eq]
  cases rooted : query.view.queryRoot? with
  | none =>
    have traced : compileTraced query.view query.spec = .lift (.error .noQueryRoot) := by
      rw [compileTraced, rooted]
      rfl
    refine ⟨⟨0, query.spec.reach + 1, ?_, ?_, ?_⟩, fun _ => by rw [traced]; rfl⟩
    · rw [compile, traced]
      exact ⟨rfl, rfl⟩
    · rw [traced, Spec.assemblingEvents_of_reach_lt _ (Nat.lt_succ_self _), compile, traced]
      rfl
    · intro _ _ below
      omega
  | some root =>
    obtain ⟨resolved, assembled, stops, events, below⟩ := Query.events_of_rooted rooted
    refine ⟨⟨resolved, assembled, stops, by rw [events]; rfl, fun error failed reached => ?_⟩,
      fun none => by cases none⟩
    obtain ⟨resolution, resolves, assembles⟩ := below error failed reached
    exact ⟨root, resolution, rfl, resolves, assembles⟩

theorem compile_log_in_order_friends :
    (compileTraced Sample.friends.view Sample.friends.spec).log =
      [.resolving 1 2, .resolving 2 2, .assembling 2 2, .assembling 1 2] ∧
    (compileTraced { Sample.friends.view with queryRoot? := none } Sample.friends.spec).log =
      [.failed .noQueryRoot] := by
  obtain ⟨resolved, assembled, stops, log, -⟩ := (compile_log_in_order Sample.friends).1
  rw [Sample.compile_friends] at stops log
  obtain ⟨rfl, rfl⟩ := stops
  refine ⟨log.trans (by decide +kernel), ?_⟩
  exact (compile_log_in_order
    ⟨{ Sample.friends.view with queryRoot? := none }, Sample.friends.spec⟩).2 rfl

end PathQuery
