import PathQuery.Compile
import PathQuery.Proofs.Assembly
import PathQuery.Proofs.Resolution
import PathQuery.Spec.Edit

namespace PathQuery

open Std

namespace Query

variable (query : Query)

def levels : Levels := .ofPaths query.spec.fields.toList

theorem holds_levels : query.levels.Holds (· ∈ query.spec.closure) :=
  Levels.holds_closure query.spec

def resolveLevels (root : Name) (levels : List (Nat × ChainSet)) :
    Except CompileError Resolution :=
  levels.foldlM (Resolution.addLevel query.view root) ∅

def assembleLevels (resolution : Resolution) (levels : List (Nat × ChainSet)) :
    Except CompileError Assembly :=
  levels.foldlM (fun assembly level =>
    Prod.snd <$> (Plan.level ⟨query.view, query.spec, resolution⟩ level).run assembly) .empty

def progress (parents : List Chain) : Progress where
  fields := parents.flatMap query.spec.children
  parents := parents
  declared := (parents.flatMap query.spec.children).flatMap query.declarations
  defined := parents.flatMap query.definitions

/-- A declared variable comes with the least of its arguments, and all of them have its type. -/
def Settles (definition : VariableDefinition) : Prop :=
  ∃ argument, query.Declares (argument, definition) ∧
    ∀ other, query.Declares other → other.2.name = definition.name →
      other.2.type = definition.type ∧ (compare argument other.1).isLE

/-- The document of a query that nothing stands against. -/
structure Answers (document : Document) : Prop where
  compilable : query.Compilable
  selections : document.selections = Plan.orTypename true (query.selections [])
  variables_sorted :
    document.variableDefinitions.Pairwise fun a b => compare a.name b.name = .lt
  settles : ∀ definition ∈ document.variableDefinitions, query.Settles definition
  declares : ∀ declaration, query.Declares declaration →
    ∃ definition ∈ document.variableDefinitions, definition.name = declaration.2.name
  fragments_sorted :
    document.fragmentDefinitions.Pairwise fun a b => compare a.name b.name = .lt
  mem_fragments : ∀ definition, definition ∈ document.fragmentDefinitions ↔
    ∃ parent, definition ∈ query.definitions parent

end Query

variable {query : Query} {levels : Levels} {resolution : Resolution} {assembly : Assembly}

namespace Plan

variable (holds : levels.Holds (· ∈ query.spec.closure))
  (reads : resolution.Reads query levels.inOrder)

include holds reads

theorem due_of_split {done rest : List Chain} {parent : Chain}
    (split : levels.parents = done ++ parent :: rest) :
    Due query resolution (query.progress done) parent := by
  obtain ⟨unserved, served, above⟩ := holds.parents_split split
  have distinct : (done ++ [parent]).Nodup := by
    have all := holds.parents_nodup
    rw [split, List.append_cons] at all
    exact (List.nodup_append.mp all).1
  have unbuilt := Spec.flatMap_children_nodup query.spec distinct
  rw [List.flatMap_append, List.flatMap_singleton] at unbuilt
  refine ⟨fun chain child => ?_, unbuilt, fun built => ?_, unserved⟩
  · have selected := Spec.mem_closure_of_mem_children child
    have known := holds.mem_inOrder.mpr selected
    exact ⟨selected, (reads.found chain).trans (if_pos known), reads.resolved chain known,
      served chain child⟩
  · obtain ⟨other, member, child⟩ := List.mem_flatMap.mp built
    exact above other member child

theorem meets_next {done rest : List Chain} {parent : Chain}
    (split : levels.parents = done ++ parent :: rest)
    (reflects : assembly.Reflects query (query.progress done)) (level : Nat) :
    Meets query.Violates (fun out => out.2.Reflects query (query.progress (done ++ [parent])))
      ((children ⟨query.view, query.spec, resolution⟩ level (some parent)
        (query.spec.children parent)).run assembly) := by
  have next := meets_children reflects (due_of_split holds reads split) level
  simpa [Query.progress] using next

omit reads in
theorem family_split {done rest : List (Nat × ChainSet)} {level : Nat} {chains : ChainSet}
    (split : levels.descending = done ++ (level, chains) :: rest)
    {families later : List (Option Chain × List Chain)} {parent? : Option Chain}
    {family : List Chain}
    (cut : runsBy parentOf? chains.toList = families ++ (parent?, family) :: later) :
    ∃ parent, parent? = some parent ∧ family = query.spec.children parent ∧
      ∃ others, levels.parents =
        (Levels.parentsOf done ++ families.filterMap Prod.fst) ++ parent :: others := by
  have found : (level, chains) ∈ levels.ascending :=
    List.mem_reverse.mp (by rw [← Levels.descending, split]; simp)
  have member : (parent?, family) ∈ runsBy parentOf? chains.toList := by simp [cut]
  rw [(holds.mem_ascending.mp found).1] at member
  obtain ⟨parent, rfl, -, rfl, -⟩ := holds.mem_families.mp member
  refine ⟨parent, rfl, rfl, later.filterMap Prod.fst ++ Levels.parentsOf rest, ?_⟩
  simp [Levels.parents, split, Levels.parentsOf, cut]

theorem meets_families {done rest : List (Nat × ChainSet)} {level : Nat} {chains : ChainSet}
    (split : levels.descending = done ++ (level, chains) :: rest)
    {families others : List (Option Chain × List Chain)}
    (cut : runsBy parentOf? chains.toList = families ++ others)
    (reflects : assembly.Reflects query (query.progress (Levels.parentsOf done))) :
    Meets query.Violates
      (fun out => out.2.Reflects query
        (query.progress (Levels.parentsOf done ++ families.filterMap Prod.fst)))
      ((families.forM fun run =>
        children ⟨query.view, query.spec, resolution⟩ level run.1 run.2).run assembly) := by
  refine Meets.run_forM (fun runs => Assembly.Reflects query
    (query.progress (Levels.parentsOf done ++ runs.filterMap Prod.fst)))
    (by simpa using reflects) fun runs run later state splitFamilies reflects => ?_
  obtain ⟨parent?, family⟩ := run
  obtain ⟨parent, rfl, rfl, others, turn⟩ :=
    family_split holds split (cut.trans (by rw [splitFamilies, List.append_assoc]; rfl))
  have next := meets_next holds reads turn reflects level
  simpa [List.append_assoc] using next

theorem meets_levels {done rest : List (Nat × ChainSet)}
    (split : levels.descending = done ++ rest) :
    Meets query.Violates (Assembly.Reflects query (query.progress (Levels.parentsOf done)))
      (query.assembleLevels resolution done) := by
  refine Meets.foldlM
    (fun done => Assembly.Reflects query (query.progress (Levels.parentsOf done)))
    (Assembly.reflects_empty query) fun before level after assembly splitDone reflects => ?_
  have turn : levels.descending = before ++ level :: (after ++ rest) := by
    rw [split, splitDone, List.append_assoc, List.cons_append]
  have served := meets_families holds reads turn (List.append_nil _).symm reflects
  rw [Levels.parentsOf_concat]
  exact served.map

end Plan

theorem Levels.Holds.mem_built (holds : levels.Holds (· ∈ query.spec.closure)) {chain : Chain} :
    chain ∈ (query.progress levels.parents).fields ↔ chain ∈ query.spec.closure := by
  constructor
  · intro built
    obtain ⟨parent, -, child⟩ := List.mem_flatMap.mp built
    exact Spec.mem_closure_of_mem_children child
  · intro selected
    have child := Spec.mem_children_dropLast selected
    exact List.mem_flatMap.mpr ⟨_, holds.mem_parents.mpr (List.ne_nil_of_mem child), child⟩

theorem Levels.Holds.mem_declared (holds : levels.Holds (· ∈ query.spec.closure))
    {declaration : Declaration} :
    declaration ∈ (query.progress levels.parents).declared ↔ query.Declares declaration := by
  refine List.mem_flatMap.trans (exists_congr fun chain => and_congr_left fun _ => ?_)
  exact holds.mem_built

theorem Levels.Holds.mem_defined (holds : levels.Holds (· ∈ query.spec.closure))
    {definition : FragmentDefinition} :
    definition ∈ (query.progress levels.parents).defined ↔
      ∃ parent, definition ∈ query.definitions parent := by
  refine List.mem_flatMap.trans (exists_congr fun parent => and_iff_right_of_imp fun member => ?_)
  apply holds.mem_parents.mpr
  intro none
  rw [Query.definitions, Query.groups, none] at member
  cases member

namespace Assembly.Reflects

variable (holds : levels.Holds (· ∈ query.spec.closure))
  (reflects : assembly.Reflects query (query.progress levels.parents))

include holds reflects

theorem waiting_erase_root : assembly.waiting.erase [] = ∅ := by
  refine ExtTreeMap.ext_getElem? fun parent => ?_
  rw [ExtTreeMap.getElem?_erase, ExtTreeMap.getElem?_empty, reflects.waiting]
  by_cases root : parent = []
  · simp [root]
  · -- Another parent is somebody's child, so its own field has taken what waited for it.
    have served : ¬ (parent ∈ (query.progress levels.parents).parents ∧
        parent ∉ (query.progress levels.parents).fields) := by
      intro both
      obtain ⟨served, unbuilt⟩ := both
      obtain ⟨child, inside⟩ := List.exists_mem_of_ne_nil _ (holds.mem_parents.mp served)
      exact unbuilt (holds.mem_built.mpr (Spec.parent_mem_closure inside root))
    rw [if_neg served, ite_self]

theorem waiting_root : assembly.waiting.getD [] [] = query.selections [] := by
  rw [ExtTreeMap.getD_eq_getD_getElem?, reflects.waiting]
  have unbuilt : [] ∉ (query.progress levels.parents).fields := by
    intro built
    exact Spec.ne_nil_of_mem_closure (holds.mem_built.mp built) rfl
  by_cases served : [] ∈ levels.parents
  · rw [if_pos ⟨served, unbuilt⟩, Option.getD_some]
  · rw [if_neg fun both => served both.1, Option.getD_none]
    exact (Query.selections_eq_nil (not_not.mp (mt holds.mem_parents.mpr served))).symm

theorem settles {definition : VariableDefinition}
    (member : definition ∈ assembly.variableTable.definitions) : query.Settles definition := by
  obtain ⟨argument, declared, -, least⟩ := reflects.variables_hold.least_of_mem member
  refine ⟨argument, holds.mem_declared.mp declared, fun other declares same => ?_⟩
  exact least other (holds.mem_declared.mpr declares) same

theorem typed : query.Typed := by
  intro chain selected input declared chain' selected' input' declared' name fed fed'
  have one : query.Declares (Query.argumentAt chain input, ⟨name, input.type, _⟩) :=
    ⟨chain, selected, Query.mem_declarations.mpr
      ⟨input, declared, Query.declaration?_eq_some.mpr ⟨fed, rfl⟩⟩⟩
  have other : query.Declares (Query.argumentAt chain' input', ⟨name, input'.type, _⟩) :=
    ⟨chain', selected', Query.mem_declarations.mpr
      ⟨input', declared', Query.declaration?_eq_some.mpr ⟨fed', rfl⟩⟩⟩
  obtain ⟨definition, member, same⟩ :=
    reflects.variables_hold.exists_definition (holds.mem_declared.mpr one)
  obtain ⟨argument, -, least⟩ := reflects.settles holds member
  exact (least _ one same.symm).1.trans (least _ other same.symm).1.symm

theorem consistent : query.Consistent := by
  intro parent parent' one defined other defined' same
  exact reflects.fragments_hold.eq_of_name (holds.mem_defined.mpr ⟨parent, defined⟩)
    (holds.mem_defined.mpr ⟨parent', defined'⟩) same

theorem meets_document (rooted : query.Rooted) (resolved : query.Resolved) :
    Meets query.Violates query.Answers assembly.document := by
  refine Meets.ok (if_pos (by rw [reflects.waiting_erase_root holds]; rfl)) ?_
  exact {
    compilable := {
      rooted := rooted
      resolved := resolved
      bound := fun chain selected => reflects.bound chain (holds.mem_built.mpr selected)
      typed := reflects.typed holds
      consistent := reflects.consistent holds
    }
    selections := congrArg (Plan.orTypename true) (reflects.waiting_root holds)
    variables_sorted := reflects.variables_hold.definitions_sorted
    settles := fun definition member => reflects.settles holds member
    declares := fun declaration declares =>
      reflects.variables_hold.exists_definition (holds.mem_declared.mpr declares)
    fragments_sorted := reflects.fragments_hold.definitions_sorted
    mem_fragments := fun definition =>
      reflects.fragments_hold.mem_definitions.trans holds.mem_defined
  }

end Assembly.Reflects

theorem compile_stages (query : Query) : compile query.view query.spec = (do
    let root ← query.view.queryRoot?.elim (.error .noQueryRoot) .ok
    let resolution ← query.resolveLevels root query.levels.ascending
    let assembly ← query.assembleLevels resolution query.levels.descending
    assembly.document) :=
  compile_eq query.view query.spec

theorem compile_of_not_rooted (none : query.view.queryRoot? = none) :
    compile query.view query.spec = .error .noQueryRoot := by
  rw [compile_stages, none]
  rfl

theorem compile_of_rooted {root : Name} (rooted : query.view.queryRoot? = some root) :
    compile query.view query.spec =
      query.resolveLevels root query.levels.ascending >>= fun resolution =>
        query.assembleLevels resolution query.levels.descending >>= Assembly.document := by
  rw [compile_stages, rooted]
  rfl

/-- Compilation gives the document of the query, or an error that says what stands against it. -/
theorem meets_compile (query : Query) :
    Meets query.Violates query.Answers (compile query.view query.spec) := by
  have holds := query.holds_levels
  have root : Meets query.Violates (fun root => query.view.queryRoot? = some root)
      (query.view.queryRoot?.elim (.error .noQueryRoot) .ok) := by
    cases found : query.view.queryRoot? with
    | none =>
      intro rooted
      rw [Query.Rooted, found] at rooted
      cases rooted
    | some root => rfl
  rw [compile_stages]
  apply root.bind
  intro root rooted
  have resolving := (Resolution.meets_addLevels holds rooted (List.append_nil _).symm).weaken
    (fun _ lacks => lacks.violates) fun _ reads => reads
  apply resolving.bind
  intro resolution reads
  apply (Plan.meets_levels holds reads (List.append_nil _).symm).bind
  intro assembly reflects
  apply reflects.meets_document holds (by rw [Query.Rooted, rooted]; rfl)
  intro chain selected
  exact reads.resolved chain (holds.mem_inOrder.mpr selected)

namespace Sample

def friends : Query where
  view := {
    queryRoot? := some (.of "Query")
    field? := fun type field =>
      if type = .of "Query" then some ⟨field, .named (.of "Person") false, []⟩
      else if field = .of "friends" then
        some ⟨field, .named (.of "Person") false, [⟨.of "first", .named (.of "Count") true, none⟩]⟩
      else none
    implementations := fun _ => ∅
    compositeType? := fun type => some type.innerName
    isEnum := fun _ => false
    inputFieldType? := fun _ _ => none
  }
  spec :=
    let page : Segment := ⟨.spread (.of "Page") (.of "Person"), .of "friends", none⟩
    let mine : Path := .ofSelection [.plain (.of "me"), page]
    let yours : Path := .ofSelection [.plain (.of "you"), page]
    let first : Name := .of "first"
    (Spec.empty.update [.select mine, .select yours, .bind first (mine.argumentPath first),
      .bind first (yours.argumentPath first),
      .setDefault (mine.argumentPath first) (.number (.ofNat 9))]).toOption.getD .empty

def friendsDocument : Document where
  variableDefinitions := [⟨.of "first", .named (.of "Count") true, some (.int "9")⟩]
  selections := [
    .field none (.of "me") [] [.spread (.of "Page")],
    .field none (.of "you") [] [.spread (.of "Page")]]
  fragmentDefinitions := [⟨.of "Page", .of "Person",
    [.field none (.of "friends") [(.of "first", .var (.of "first"))] [.typename]]⟩]

theorem compile_friends : compile friends.view friends.spec = .ok friendsDocument := by
  decide +kernel

end Sample

/-- A query compiles exactly if nothing stands against it, and an error is of a kind that does. -/
theorem compile_ok_iff_compilable (query : Query) :
    ((∃ document, compile query.view query.spec = .ok document) ↔
      query.Rooted ∧ query.Resolved ∧ query.Bound ∧ query.Typed ∧ query.Consistent) ∧
    ∀ error, compile query.view query.spec = .error error → query.Blames error := by
  have meets := meets_compile query
  have blames : ∀ error, compile query.view query.spec = .error error → query.Blames error :=
    fun error failed => (meets.of_error failed).blames
  refine ⟨⟨?_, ?_⟩, blames⟩
  · intro compiled
    obtain ⟨document, ok⟩ := compiled
    obtain ⟨rooted, resolved, bound, typed, consistent⟩ := (meets.of_ok ok).compilable
    exact ⟨rooted, resolved, bound, typed, consistent⟩
  · intro compilable
    obtain ⟨rooted, resolved, bound, typed, consistent⟩ := compilable
    cases outcome : compile query.view query.spec with
    | ok document => exact ⟨document, rfl⟩
    | error error =>
      exfalso
      cases error with
      | noQueryRoot => exact blames _ outcome rooted
      | unresolvedField selection type field => exact blames _ outcome resolved
      | invalidKey argument key => exact blames _ outcome bound
      | unboundArgument argument name type => exact blames _ outcome bound
      | variableConflict name existing conflicting => exact blames _ outcome typed
      | fragmentConflict fragment => exact blames _ outcome consistent
      | breach what => exact blames _ outcome

theorem compile_ok_iff_compilable_friends :
    (Sample.friends.Rooted ∧ Sample.friends.Resolved ∧ Sample.friends.Bound ∧
      Sample.friends.Typed ∧ Sample.friends.Consistent) ∧
    ¬ Query.Rooted ⟨{ Sample.friends.view with queryRoot? := none }, Sample.friends.spec⟩ := by
  refine ⟨(compile_ok_iff_compilable Sample.friends).1.mp ⟨_, Sample.compile_friends⟩, ?_⟩
  exact (compile_ok_iff_compilable
    ⟨{ Sample.friends.view with queryRoot? := none }, Sample.friends.spec⟩).2 .noQueryRoot
      (by decide +kernel)

end PathQuery
