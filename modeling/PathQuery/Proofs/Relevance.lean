import PathQuery.Proofs.Compile
import PathQuery.Proofs.Literal.Canonical
import PathQuery.Proofs.Spec.Building

namespace PathQuery

open Std

namespace Plan

variable {plan other : Plan} {chains : List Chain}

theorem group_congr (same : ∀ chain ∈ chains, plan.field chain = other.field chain)
    (context : Context) : plan.group context chains = other.group context chains := by
  unfold group
  rw [mapM_congr same]

theorem siblings_congr (same : ∀ chain ∈ chains, plan.field chain = other.field chain) :
    plan.siblings chains = other.siblings chains := by
  unfold siblings
  rw [mapM_congr fun run member =>
    group_congr (fun chain inside => same chain (mem_of_mem_run member inside)) run.1]

theorem children_congr (same : ∀ chain ∈ chains, plan.field chain = other.field chain)
    (level : Nat) (parent? : Option Chain) :
    plan.children level parent? chains = other.children level parent? chains := by
  unfold children
  rw [siblings_congr same]

theorem level_congr {level : Nat × ChainSet}
    (same : ∀ chain ∈ level.2, plan.field chain = other.field chain) :
    plan.level level = other.level level :=
  forM_congr fun run member => children_congr (fun chain inside =>
    same chain (ExtTreeSet.mem_toList.mp (mem_of_mem_run member inside))) level.1 run.1

end Plan

namespace Query

variable (query : Query)

/-- The other spec has the same selections and says the same about their arguments. -/
structure Alike (other : Spec) : Prop where
  closure : other.closure = query.spec.closure
  bound : ∀ chain ∈ query.spec.closure, ∀ input ∈ query.inputs chain,
    other.variableFor? (argumentAt chain input) = query.spec.variableFor? (argumentAt chain input)
  given : ∀ chain ∈ query.spec.closure, ∀ input ∈ query.inputs chain,
    (other.defaultFor? (argumentAt chain input)).map Literal.canonical =
      (query.spec.defaultFor? (argumentAt chain input)).map Literal.canonical

def Immaterial : Spec.Edit → Prop
  | .select path => path.selection = [] ∨ path.selection ∈ query.spec.closure
  | .bind _ argument | .setDefault argument _ =>
    ∀ chain ∈ query.spec.closure, ∀ input ∈ query.inputs chain, argument ≠ argumentAt chain input

instance (edit : Spec.Edit) : Decidable (query.Immaterial edit) :=
  match edit with
  | .select _ => inferInstanceAs (Decidable (_ ∨ _))
  | .bind _ argument | .setDefault argument _ =>
    decidable_of_iff (∀ chain ∈ query.spec.closure.toList, ∀ input ∈ query.inputs chain,
      argument ≠ argumentAt chain input)
      (forall_congr' fun _ => imp_congr_left ExtTreeSet.mem_toList)

variable {query} {other : Spec}

theorem Alike.refl (query : Query) : query.Alike query.spec :=
  ⟨rfl, fun _ _ _ _ => rfl, fun _ _ _ _ => rfl⟩

theorem Alike.trans (alike : query.Alike other) {third : Spec}
    (alike' : Alike ⟨query.view, other⟩ third) : query.Alike third where
  closure := alike'.closure.trans alike.closure
  bound chain selected input declared :=
    (alike'.bound chain (alike.closure ▸ selected) input declared).trans
      (alike.bound chain selected input declared)
  given chain selected input declared :=
    (alike'.given chain (alike.closure ▸ selected) input declared).trans
      (alike.given chain selected input declared)

theorem alike_of_same (same : query.spec.Same other) : query.Alike other := by
  have fields : query.spec.fields = other.fields := congrArg (fun spec => spec.fields) same
  have fed : query.spec.variableOf = other.variableOf := congrArg (fun spec => spec.variableOf) same
  have given : query.spec.defaults.map (fun _ literal => literal.canonical) =
      other.defaults.map (fun _ literal => literal.canonical) :=
    congrArg (fun spec => spec.defaults) same
  refine ⟨?_, fun chain _ input _ => ?_, fun chain _ input _ => ?_⟩
  · rw [Spec.closure, Spec.closure, fields]
  · rw [Spec.variableFor?, Spec.variableFor?, fed]
  · have found := congrArg (fun table => table[argumentAt chain input]?) given
    rw [ExtTreeMap.getElem?_map, ExtTreeMap.getElem?_map] at found
    exact found.symm

section Congruence

variable (alike : query.Alike other) {resolution : Resolution} {chain : Chain}
  {input : InputDefinition}

include alike

omit alike in
theorem resolveLevels_eq (root : Name) (levels : List (Nat × ChainSet)) :
    resolveLevels ⟨query.view, other⟩ root levels = query.resolveLevels root levels :=
  rfl

theorem Alike.levels_eq : levels ⟨query.view, other⟩ = query.levels := by
  have holds : (levels ⟨query.view, other⟩).Holds (· ∈ other.closure) := holds_levels _
  exact (alike.closure ▸ holds).unique query.holds_levels

theorem Alike.explicitValue?_eq (resolution : Resolution) (selected : chain ∈ query.spec.closure)
    (declared : input ∈ query.inputs chain) :
    Plan.explicitValue? ⟨query.view, other, resolution⟩ (argumentAt chain input) input.type =
      Plan.explicitValue? ⟨query.view, query.spec, resolution⟩ (argumentAt chain input)
        input.type := by
  have given := alike.given chain selected input declared
  unfold Plan.explicitValue?
  dsimp only
  cases here : query.spec.defaultFor? (argumentAt chain input) with
  | none =>
    rw [here, Option.map_none, Option.map_eq_none_iff] at given
    rw [given]
  | some literal =>
    rw [here, Option.map_some] at given
    obtain ⟨literal', there, same⟩ := Option.map_eq_some_iff.mp given
    rw [there]
    dsimp only
    rw [Literal.Same.toValue_eq same]

theorem Alike.argument_eq (selected : chain ∈ query.spec.closure)
    (declared : input ∈ query.inputs chain) :
    Plan.argument ⟨query.view, other, resolution⟩ chain input =
      Plan.argument ⟨query.view, query.spec, resolution⟩ chain input := by
  have explicit := alike.explicitValue?_eq resolution selected declared
  have bound := alike.bound chain selected input declared
  unfold argumentAt at explicit bound
  simp only [Plan.argument, explicit, bound]

theorem Alike.field_eq (reads : resolution.Reads query query.levels.inOrder)
    (selected : chain ∈ query.spec.closure) :
    Plan.field ⟨query.view, other, resolution⟩ chain =
      Plan.field ⟨query.view, query.spec, resolution⟩ chain := by
  have known := query.holds_levels.mem_inOrder.mpr selected
  obtain ⟨resolved, resolves⟩ := Option.isSome_iff_exists.mp (reads.resolved chain known)
  have found : resolution[chain]? = some resolved := by rw [reads.found, if_pos known, resolves]
  have inputs : query.inputs chain = Plan.argumentsInOrder resolved.definition := by
    rw [Query.inputs, resolves, Option.elim_some]
  have arguments : (Plan.argumentsInOrder resolved.definition).mapM
        (Plan.argument ⟨query.view, other, resolution⟩ chain) =
      (Plan.argumentsInOrder resolved.definition).mapM
        (Plan.argument ⟨query.view, query.spec, resolution⟩ chain) :=
    mapM_congr fun input declared => alike.argument_eq selected (inputs ▸ declared)
  unfold Plan.field
  rw [found]
  cases chain.getLast? with
  | none => rfl
  | some segment =>
    dsimp only
    rw [arguments]

theorem Alike.assembleLevels_eq (reads : resolution.Reads query query.levels.inOrder) :
    assembleLevels ⟨query.view, other⟩ resolution query.levels.descending =
      query.assembleLevels resolution query.levels.descending := by
  refine foldlM_congr (fun level member assembly => ?_) _
  have found := List.mem_reverse.mp member
  rw [Plan.level_congr fun chain inside => alike.field_eq reads
    ((query.holds_levels.mem_level found).mp (ExtTreeSet.mem_toList.mpr inside)).1]

theorem Alike.compile_eq : compile query.view other = compile query.view query.spec := by
  cases rooted : query.view.queryRoot? with
  | none =>
    have here := @compile_of_not_rooted ⟨query.view, other⟩ rooted
    exact here.trans (compile_of_not_rooted rooted).symm
  | some root =>
    have here := @compile_of_rooted ⟨query.view, other⟩ root rooted
    refine here.trans (.trans ?_ (compile_of_rooted rooted).symm)
    rw [alike.levels_eq, resolveLevels_eq]
    refine bind_congr_ok fun resolution resolved => ?_
    have reads := (Resolution.meets_addLevels query.holds_levels rooted
      (List.append_nil _).symm).of_ok resolved
    rw [alike.assembleLevels_eq reads]

end Congruence

section Edits

variable {edited : Spec} {edit : Spec.Edit}

theorem closure_select {path : Path}
    (immaterial : path.selection = [] ∨ path.selection ∈ query.spec.closure) :
    Spec.closure { query.spec with fields := query.spec.fields.insert path } =
      query.spec.closure := by
  refine ExtTreeSet.ext_mem fun chain => ?_
  rw [Spec.mem_closure, Spec.mem_closure]
  refine and_congr_right fun proper => ⟨fun found => ?_, fun found => ?_⟩
  · obtain ⟨listed, member, selects, above⟩ := found
    rcases ExtTreeSet.mem_insert.mp member with same | member
    · obtain rfl := LawfulEqOrd.eq_of_compare same
      rcases immaterial with root | known
      · rw [root, List.prefix_nil] at above
        exact absurd above proper
      · exact (Spec.mem_closure.mp (Spec.closure_upward known above proper)).2
    · exact ⟨listed, member, selects, above⟩
  · obtain ⟨listed, member, selects, above⟩ := found
    exact ⟨listed, ExtTreeSet.mem_insert.mpr (.inr member), selects, above⟩

theorem getElem?_insert_elsewhere {α : Type} (table : ExtTreeMap Path α compare) (value : α)
    {argument other : Path} (elsewhere : argument ≠ other) :
    (table.insert argument value)[other]? = table[other]? := by
  rw [ExtTreeMap.getElem?_insert, if_neg fun same => elsewhere (LawfulEqOrd.eq_of_compare same)]

theorem alike_of_makes (immaterial : query.Immaterial edit)
    (makes : query.spec.Makes edit edited) : query.Alike edited := by
  cases makes with
  | select selects => exact ⟨closure_select immaterial, fun _ _ _ _ => rfl, fun _ _ _ _ => rfl⟩
  | bind whole free =>
    exact ⟨rfl, fun chain selected input declared =>
      getElem?_insert_elsewhere _ _ (immaterial chain selected input declared), fun _ _ _ _ => rfl⟩
  | bindAgain whole bound => exact .refl query
  | setDefault whole =>
    refine ⟨rfl, fun _ _ _ _ => rfl, fun chain selected input declared => ?_⟩
    exact congrArg (Option.map Literal.canonical)
      (getElem?_insert_elsewhere _ _ (immaterial chain selected input declared))

theorem Alike.immaterial (alike : query.Alike other) (immaterial : query.Immaterial edit) :
    Immaterial ⟨query.view, other⟩ edit := by
  cases edit with
  | select path => exact immaterial.imp_right fun known => alike.closure ▸ known
  | bind name argument =>
    exact fun chain selected => immaterial chain (alike.closure ▸ selected)
  | setDefault argument literal =>
    exact fun chain selected => immaterial chain (alike.closure ▸ selected)

theorem Alike.update (alike : query.Alike other) {edits : List Spec.Edit}
    (immaterial : ∀ edit ∈ edits, query.Immaterial edit)
    (updated : other.update edits = .ok edited) : query.Alike edited := by
  induction edits generalizing other with
  | nil =>
    cases updated
    exact alike
  | cons edit rest ih =>
    rw [Spec.update_cons, bind_eq_ok_iff] at updated
    obtain ⟨next, applied, updated⟩ := updated
    have step : Alike ⟨query.view, other⟩ next :=
      alike_of_makes (alike.immaterial (immaterial edit (by simp))) (Spec.makes_of_apply applied)
    exact ih (alike.trans step)
      (fun edit member => immaterial edit (List.mem_cons_of_mem _ member)) updated

end Edits

end Query

/-- The outcome depends on the selections and on what is said about their arguments alone, so edits
that add nothing to these leave it as it is. -/
theorem compile_looks_at_selections (query : Query) :
    (∀ other, query.Alike other → compile query.view other = compile query.view query.spec) ∧
      ∀ edits edited, (∀ edit ∈ edits, query.Immaterial edit) →
        query.spec.update edits = .ok edited →
          compile query.view edited = compile query.view query.spec :=
  ⟨fun _ alike => alike.compile_eq, fun _ _ immaterial updated =>
    ((Query.Alike.refl query).update immaterial updated).compile_eq⟩

namespace Sample

def cards (members : List (String × Literal)) : Query where
  view := {
    queryRoot? := some (.of "Desk")
    field? := fun _ field => some ⟨field, .named (.of "Desk") false,
      if field = .of "card" then [⟨.of "filter", .named (.of "Filter") true, none⟩] else []⟩
    implementations := fun _ => ∅
    compositeType? := fun type => some type.innerName
    isEnum := fun _ => false
    inputFieldType? := fun _ _ => none
  }
  spec :=
    let card : Path := .ofFields [.of "board", .of "card"]
    (Spec.empty.update [.select card,
      .setDefault (card.argumentPath (.of "filter")) (.object members)]).toOption.getD .empty

/-- The root, a selection that is implied anyway, and words on arguments that no selected field
declares, one of them with a key that is no name. -/
def asides : List Spec.Edit :=
  let board : Path := .ofFields [.of "board"]
  let drawer : Path := .ofFields [.of "drawer"]
  [.select .root, .select board, .bind (.of "colour") (board.argumentPath (.of "filter")),
    .setDefault (drawer.argumentPath (.of "filter")) (.object [("no name", .null)])]

end Sample

theorem compile_looks_at_selections_cards :
    let query := Sample.cards [("open", .bool true), ("late", .bool false)]
    let other := Sample.cards [("late", .bool false), ("open", .bool true)]
    let edited := (query.spec.update Sample.asides).toOption.getD .empty
    (compile query.view query.spec).isOk ∧
      query.spec ≠ other.spec ∧
      compile query.view other.spec = compile query.view query.spec ∧
      query.spec.update Sample.asides = .ok edited ∧ query.spec ≠ edited ∧
      compile query.view edited = compile query.view query.spec := by
  intro query other edited
  have same : query.spec.Same other.spec := by decide +kernel
  have immaterial : ∀ edit ∈ Sample.asides, query.Immaterial edit := by decide +kernel
  have updated : query.spec.update Sample.asides = .ok edited := by decide +kernel
  obtain ⟨alike, edits⟩ := compile_looks_at_selections query
  refine ⟨by decide +kernel, by decide +kernel, ?_, updated, by decide +kernel, ?_⟩
  · exact alike other.spec (Query.alike_of_same same)
  · exact edits Sample.asides edited immaterial updated

end PathQuery
