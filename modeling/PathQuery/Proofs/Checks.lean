import PathQuery.Proofs.Compile

namespace PathQuery

open Std

namespace Query

variable (query : Query)

def ResolvesTo (root : Name) (resolution : Resolution) : Prop :=
  query.resolveLevels root query.levels.ascending = .ok resolution

/-- The turn of a selection to be resolved: all before it have been. -/
inductive ResolutionTurn (root : Name) :
    (level : Nat) → (chain : Chain) → (resolution : Resolution) → Prop where
  | mk {seen rest : List (Nat × ChainSet)} {level : Nat} {chains : ChainSet}
      {done later : List Chain} {chain : Chain} {before resolution : Resolution}
      (levels : query.levels.ascending = seen ++ (level, chains) :: rest)
      (above : query.resolveLevels root seen = .ok before)
      (selections : chains.toList = done ++ chain :: later)
      (beside :
        done.foldlM (Resolution.addSelection query.view root level) before = .ok resolution) :
      ResolutionTurn root level chain resolution

inductive AssemblyTurn (resolution : Resolution) :
    (level : Nat) → (parent? : Option Chain) → (family : List Chain) → Assembly → Prop where
  | mk {done rest : List (Nat × ChainSet)} {level : Nat} {chains : ChainSet}
      {families later : List (Option Chain × List Chain)} {parent? : Option Chain}
      {family : List Chain} {before assembly : Assembly}
      (levels : query.levels.descending = done ++ (level, chains) :: rest)
      (below : query.assembleLevels resolution done = .ok before)
      (runs : runsBy Plan.parentOf? chains.toList = families ++ (parent?, family) :: later)
      (beside : (families.forM fun run =>
        Plan.children ⟨query.view, query.spec, resolution⟩ level run.1 run.2).run before =
          .ok ((), assembly)) :
      AssemblyTurn resolution level parent? family assembly

/-- What compilation checks of its own work, wherever it gets to. -/
structure ChecksPass (root : Name) : Prop where
  no_root : ∀ level ∈ query.levels.ascending, ∀ chain ∈ level.2, chain ≠ []
  parent_resolved : ∀ level chain resolution, query.ResolutionTurn root level chain resolution →
    chain.dropLast = [] ∨ resolution.contains chain.dropLast = true
  resolved : ∀ resolution, query.ResolvesTo root resolution →
    ∀ level ∈ query.levels.ascending, ∀ chain ∈ level.2, resolution.contains chain = true
  parents_distinct : ∀ level ∈ query.levels.ascending,
    ((runsBy Plan.parentOf? level.2.toList).map Prod.fst).Nodup
  parent_free : ∀ resolution, query.ResolvesTo root resolution →
    ∀ level parent? family assembly, query.AssemblyTurn resolution level parent? family assembly →
      ∃ parent, parent? = some parent ∧ ∀ selections after,
        (Plan.siblings ⟨query.view, query.spec, resolution⟩ family).run assembly =
          .ok (selections, after) → after.waiting.contains parent = false
  nothing_left : ∀ resolution, query.ResolvesTo root resolution →
    ∀ assembly, query.assembleLevels resolution query.levels.descending = .ok assembly →
      (assembly.waiting.erase []).isEmpty = true

variable {query} {root : Name}

theorem mem_closure_of_mem_level {level : Nat × ChainSet} (found : level ∈ query.levels.ascending)
    {chain : Chain} (member : chain ∈ level.2) : chain ∈ query.spec.closure :=
  ((query.holds_levels.mem_level found).mp (ExtTreeSet.mem_toList.mpr member)).1

section Rooted

variable (rooted : query.view.queryRoot? = some root)

include rooted

theorem ResolutionTurn.parent_resolved {level : Nat} {chain : Chain} {resolution : Resolution}
    (turn : query.ResolutionTurn root level chain resolution) :
    chain.dropLast = [] ∨ resolution.contains chain.dropLast = true := by
  obtain ⟨levels, above, selections, beside⟩ := turn
  rename_i seen rest chains done later before
  have order : query.levels.inOrder =
      Levels.chainsOf seen ++ (done ++ (chain :: later ++ Levels.chainsOf rest)) := by
    simp [Levels.inOrder, Levels.chainsOf, levels, selections]
  have reads := (Resolution.meets_addLevels query.holds_levels rooted levels).of_ok above
  have reads := (reads.meets_addSelections query.holds_levels rooted level order).of_ok beside
  rw [← List.append_assoc] at order
  apply (Resolution.parent_mem_done query.holds_levels order).imp_right
  intro member
  rw [ExtTreeMap.contains_eq_isSome_getElem?, reads.found, if_pos member]
  exact reads.resolved _ member

theorem ResolvesTo.reads {resolution : Resolution} (resolves : query.ResolvesTo root resolution) :
    resolution.Reads query query.levels.inOrder :=
  (Resolution.meets_addLevels query.holds_levels rooted (List.append_nil _).symm).of_ok resolves

theorem AssemblyTurn.parent_free {resolution : Resolution}
    (resolves : query.ResolvesTo root resolution) {level : Nat} {parent? : Option Chain}
    {family : List Chain} {assembly : Assembly}
    (turn : query.AssemblyTurn resolution level parent? family assembly) :
    ∃ parent, parent? = some parent ∧ ∀ selections after,
      (Plan.siblings ⟨query.view, query.spec, resolution⟩ family).run assembly =
        .ok (selections, after) → after.waiting.contains parent = false := by
  have reads := resolves.reads rooted
  obtain ⟨levels, below, runs, beside⟩ := turn
  obtain ⟨parent, rfl, rfl, others, split⟩ := Plan.family_split query.holds_levels levels runs
  have due := Plan.due_of_split query.holds_levels reads split
  have reflects := (Plan.meets_levels query.holds_levels reads levels).of_ok below
  have reflects :=
    (Plan.meets_families query.holds_levels reads levels runs reflects).of_ok beside
  refine ⟨parent, rfl, fun selections after built => ?_⟩
  obtain ⟨-, reflects⟩ := (Plan.meets_siblings reflects due).of_ok built
  rw [ExtTreeMap.contains_eq_isSome_getElem?, reflects.waiting,
    if_neg fun both => due.unserved both.1]
  rfl

theorem checksPass : query.ChecksPass root where
  no_root level found chain member :=
    Spec.ne_nil_of_mem_closure (mem_closure_of_mem_level found member)
  parent_resolved level chain resolution turn := turn.parent_resolved rooted
  resolved resolution resolves level found chain member := by
    have reads := resolves.reads rooted
    have known := query.holds_levels.mem_inOrder.mpr (mem_closure_of_mem_level found member)
    rw [ExtTreeMap.contains_eq_isSome_getElem?, reads.found, if_pos known]
    exact reads.resolved chain known
  parents_distinct level found := by
    have flat : ∀ chain ∈ level.2.toList, chain.length = level.1 :=
      fun chain member => ((query.holds_levels.mem_level found).mp member).2
    have ascend := Plan.parents_ascend ExtTreeSet.ordered_toList flat
    exact List.pairwise_map.mpr (runsBy_keys_distinct ascend)
  parent_free resolution resolves level parent? family assembly turn :=
    turn.parent_free rooted resolves
  nothing_left resolution resolves assembly assembled := by
    have reads := resolves.reads rooted
    have reflects := (Plan.meets_levels query.holds_levels reads
      (List.append_nil _).symm).of_ok assembled
    rw [reflects.waiting_erase_root query.holds_levels]
    rfl

end Rooted

end Query

theorem CompileError.code_eq_violation_iff (error : CompileError) :
    error.code = "STRUCTURAL_INVARIANT_VIOLATION" ↔
      error = .noQueryRoot ∨ ∃ what, error = .breach what := by
  cases error <;> simp [code]

/-- Against a schema with a query root all checks pass, and no error is a breach. -/
theorem compile_checks_pass (query : Query) {root : Name}
    (rooted : query.view.queryRoot? = some root) :
    query.ChecksPass root ∧ ∀ error, compile query.view query.spec = .error error →
      error.code ≠ "STRUCTURAL_INVARIANT_VIOLATION" := by
  refine ⟨Query.checksPass rooted, fun error failed violation => ?_⟩
  have violates := (meets_compile query).of_error failed
  rcases error.code_eq_violation_iff.mp violation with rfl | ⟨what, rfl⟩
  · exact violates (by rw [Query.Rooted, rooted]; rfl)
  · exact violates

theorem compile_checks_pass_friends :
    ∃ root, Sample.friends.view.queryRoot? = some root ∧ Sample.friends.ChecksPass root ∧
      ∀ error, compile Sample.friends.view Sample.friends.spec = .error error →
        error.code ≠ "STRUCTURAL_INVARIANT_VIOLATION" :=
  ⟨_, rfl, compile_checks_pass Sample.friends rfl⟩

end PathQuery
