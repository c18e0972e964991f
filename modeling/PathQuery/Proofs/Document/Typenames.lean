import PathQuery.Proofs.Document.Answer
import PathQuery.Proofs.Document.Filled
import PathQuery.Proofs.Document.Walk
import PathQuery.Proofs.Spec.EditOrder

namespace PathQuery

open Std

namespace SchemaView

variable (view : SchemaView)

/-- `__typename` leads from the type to a leaf without arguments. -/
def NamesType (type : Name) : Prop :=
  ∃ definition, view.Selects type (.plain .typename) definition ∧ definition.arguments = [] ∧
    view.compositeType? definition.type = none

structure NamesTypes : Prop where
  root : ∀ type, view.queryRoot? = some type → view.NamesType type
  composite : ∀ reference type, view.compositeType? reference = some type → view.NamesType type

variable {view}

theorem NamesType.enter? {type : Name} (names : view.NamesType type) :
    ∃ definition, view.enter? type (.plain .typename) = some ⟨definition, none⟩ ∧
      definition.arguments = [] := by
  obtain ⟨definition, selects, without, leaf⟩ := names
  exact ⟨definition, enter?_eq_some_iff.mpr ⟨definition, selects, by rw [leaf]⟩, without⟩

end SchemaView

/-- In a schema whose query root is composite the field that is built in does, unless a type
declares a `__typename` of its own or the type of names is composite. -/
theorem Schema.namesTypes_view (schema : Schema)
    (rooted : ∀ root, schema.queryRoot? = some root → schema.Composite root)
    (undeclared : ∀ entry ∈ schema.types.toList, entry.2.fields[Name.typename]? = none)
    (leaf : ¬ schema.Composite Builtin.string) : schema.view.NamesTypes := by
  have stringLeaf : schema.compositeType? typename.type = none :=
    Option.not_isSome_iff_eq_none.mp (mt isSome_compositeType?_iff.mp leaf)
  have named : ∀ type, schema.Composite type → schema.view.NamesType type := by
    intro type composite
    obtain ⟨definition, known, isComposite⟩ := composite
    have own := undeclared (type, definition) (ExtTreeMap.mem_toList_iff_getElem?_eq_some.mpr known)
    have found : schema.view.field? type Name.typename = some typename := by
      simp [view, field?, known, isComposite, own, typename]
    have selects : schema.view.Selects type (.plain .typename) typename :=
      .own (fun condition conditioned => by cases conditioned) found
    exact ⟨typename, selects, rfl, stringLeaf⟩
  constructor
  · intro root found
    exact named root (rooted root found)
  · intro reference type found
    exact named type (compositeType?_eq_some_iff.mp found).2

namespace Query

variable (query : Query)

def typenameOf (parent : Chain) : Chain := parent ++ [.plain .typename]

/-- A selection of a composite type, or the root, with nothing below it. -/
structure Bare (parent : Chain) : Prop where
  tree : parent = [] ∨ parent ∈ query.spec.closure
  composite : query.onComposite parent = true
  childless : query.spec.children parent = []

/-- The other spec asks for the names of the types of some parents as well, and says the same about
arguments. -/
structure AsksNames (parents : Chain → Prop) (other : Spec) : Prop where
  bare : ∀ parent, parents parent → query.Bare parent
  selected : ∀ chain, chain ∈ other.closure ↔
    chain ∈ query.spec.closure ∨ ∃ parent, parents parent ∧ chain = typenameOf parent
  bound : ∀ argument, other.variableFor? argument = query.spec.variableFor? argument
  given : ∀ argument, other.defaultFor? argument = query.spec.defaultFor? argument

instance (parent : Chain) : Decidable (query.Bare parent) :=
  decidable_of_iff ((parent = [] ∨ parent ∈ query.spec.closure) ∧
      query.onComposite parent = true ∧ query.spec.children parent = [])
    ⟨fun bare => ⟨bare.1, bare.2.1, bare.2.2⟩,
      fun bare => ⟨bare.tree, bare.composite, bare.childless⟩⟩

variable {query} {parents : Chain → Prop} {other : Spec} {parent chain : Chain}
  {input : InputDefinition}

theorem typenameOf_ne_nil (parent : Chain) : typenameOf parent ≠ [] := by
  simp [typenameOf]

theorem typenameOf_eq_concat {segment : Segment} (same : typenameOf parent = chain ++ [segment]) :
    parent = chain :=
  (List.append_inj' same rfl).1

namespace Bare

variable (bare : query.Bare parent)

include bare

theorem not_mem_closure : typenameOf parent ∉ query.spec.closure := by
  intro selected
  have child : typenameOf parent ∈ query.spec.children parent :=
    Spec.mem_children.mpr ⟨selected, _, rfl⟩
  rw [bare.childless] at child
  cases child

theorem resolve?_typenameOf (names : query.view.NamesTypes) (rooted : query.Rooted) :
    ∃ definition, query.resolve? (typenameOf parent) = some ⟨definition, none⟩ ∧
      definition.arguments = [] := by
  obtain ⟨root, found⟩ := Option.isSome_iff_exists.mp rooted
  by_cases top : parent = []
  · subst top
    obtain ⟨definition, entered, without⟩ := (names.root root found).enter?
    refine ⟨definition, ?_, without⟩
    rw [resolve?, found]
    exact entered
  · have composite : query.isComposite parent = true := by
      simpa [onComposite, top] using bare.composite
    obtain ⟨field, resolves, some⟩ := (Option.any_eq_true _ _).mp composite
    obtain ⟨inner, inside⟩ := Option.isSome_iff_exists.mp some
    have known := ((resolve?_eq_some_iff found).mp resolves).composite?_eq
    obtain ⟨definition, entered, without⟩ :=
      (names.composite _ inner (known.symm.trans inside)).enter?
    refine ⟨definition, ?_, without⟩
    rw [typenameOf, resolve?_concat top, resolves]
    simp [inside, entered]

theorem inputs_typenameOf (names : query.view.NamesTypes) (rooted : query.Rooted) :
    query.inputs (typenameOf parent) = [] := by
  obtain ⟨definition, resolves, without⟩ := bare.resolve?_typenameOf names rooted
  rw [inputs, resolves, Option.elim_some, Plan.argumentsInOrder, without]
  rfl

theorem isComposite_typenameOf (names : query.view.NamesTypes) (rooted : query.Rooted) :
    query.isComposite (typenameOf parent) = false := by
  obtain ⟨definition, resolves, -⟩ := bare.resolve?_typenameOf names rooted
  rw [isComposite, resolves]
  rfl

theorem mem_closure_of_above (proper : chain ≠ []) (above : chain <+: typenameOf parent) :
    chain ∈ query.spec.closure ∨ chain = typenameOf parent := by
  rcases List.prefix_concat_iff.mp above with same | above
  · exact .inr same
  · refine .inl ?_
    rcases bare.tree with root | selected
    · rw [root, List.prefix_nil] at above
      exact absurd above proper
    · exact Spec.closure_upward selected above proper

end Bare

namespace AsksNames

variable (asks : query.AsksNames parents other)

include asks

theorem children_asked (asked : parents parent) : other.children parent = [typenameOf parent] := by
  refine eq_of_keys_sorted (Spec.children_sorted parent) (List.pairwise_singleton _ _) ?_
  intro chain
  rw [Spec.mem_children, asks.selected, List.mem_singleton]
  constructor
  · intro child
    obtain ⟨selected | ⟨parent', asked', rfl⟩, segment, same⟩ := child
    · have child := Spec.mem_children.mpr ⟨selected, segment, same⟩
      rw [(asks.bare parent asked).childless] at child
      cases child
    · rw [typenameOf_eq_concat same]
  · intro same
    exact ⟨.inr ⟨parent, asked, same⟩, _, same⟩

theorem children_unasked (unasked : ¬ parents parent) :
    other.children parent = query.spec.children parent := by
  refine eq_of_keys_sorted (Spec.children_sorted parent) (Spec.children_sorted parent) ?_
  intro chain
  rw [Spec.mem_children, Spec.mem_children, asks.selected]
  refine and_congr_left fun ⟨segment, same⟩ => or_iff_left ?_
  intro found
  obtain ⟨parent', asked, rfl⟩ := found
  exact unasked (typenameOf_eq_concat same ▸ asked)

theorem children_typenameOf (asked : parents parent) : other.children (typenameOf parent) = [] := by
  have unselected := (asks.bare parent asked).not_mem_closure
  have unasked : ¬ parents (typenameOf parent) := by
    intro asked
    exact unselected ((asks.bare _ asked).tree.resolve_left (typenameOf_ne_nil parent))
  rw [asks.children_unasked unasked]
  apply List.eq_nil_iff_forall_not_mem.mpr
  intro chain child
  exact unselected (Spec.parent_mem_closure child (typenameOf_ne_nil parent))

theorem node_eq (chain : Chain) (below : List Selection) :
    node ⟨query.view, other⟩ chain below = query.node chain below := by
  simp only [node, arguments, inputs, isComposite, resolve?, passed, value?, explicit?, asks.bound,
    asks.given]

theorem declarations_eq (chain : Chain) :
    declarations ⟨query.view, other⟩ chain = query.declarations chain := by
  have each (input : InputDefinition) :
      declaration? ⟨query.view, other⟩ chain input = query.declaration? chain input := by
    simp only [declaration?, explicit?, asks.bound, asks.given]
  exact List.filterMap_congr fun input _ => each input

theorem field_eq_of_below (proper : chain ≠ [])
    (same : Plan.orTypename (query.onComposite chain) (selections ⟨query.view, other⟩ chain) =
      Plan.orTypename (query.onComposite chain) (query.selections chain)) :
    field ⟨query.view, other⟩ chain = query.field chain := by
  have onComposite : query.onComposite chain = query.isComposite chain := by
    simp [onComposite, proper]
  rw [onComposite] at same
  rw [field, asks.node_eq, field, node, node, same]

theorem groups_unasked (unasked : ¬ parents parent) :
    groups ⟨query.view, other⟩ parent = query.groups parent := by
  rw [groups, groups, asks.children_unasked unasked]

section Built

variable (names : query.view.NamesTypes) (rooted : query.Rooted)

include names rooted

theorem field_typenameOf (asked : parents parent) :
    field ⟨query.view, other⟩ (typenameOf parent) = .typename := by
  have bare := asks.bare parent asked
  have below : selections ⟨query.view, other⟩ (typenameOf parent) = [] :=
    selections_eq_nil (asks.children_typenameOf asked)
  rw [field, asks.node_eq, below, node, arguments, bare.inputs_typenameOf names rooted,
    bare.isComposite_typenameOf names rooted, typenameOf, List.getLast?_concat]
  rfl

omit names rooted in
theorem groups_asked (asked : parents parent) :
    groups ⟨query.view, other⟩ parent = [(.plain, [typenameOf parent])] := by
  rw [groups, asks.children_asked asked, runsBy, runsBy, typenameOf, Plan.contextOf_concat]
  rfl

theorem orTypename_selections (parent : Chain) :
    Plan.orTypename (query.onComposite parent) (selections ⟨query.view, other⟩ parent) =
      Plan.orTypename (query.onComposite parent) (query.selections parent) := by
  induction parent using Spec.upward_induction query.spec with
  | step parent ih =>
    by_cases asked : parents parent
    · have bare := asks.bare parent asked
      have built := asks.field_typenameOf names rooted asked
      have named : selections ⟨query.view, other⟩ parent = [.typename] := by
        rw [selections_eq, asks.groups_asked asked]
        simp [Context.wrap, built]
      rw [named, selections_eq_nil bare.childless, bare.composite]
      rfl
    · rw [selections_eq, selections_eq, asks.groups_unasked asked]
      refine congrArg (Plan.orTypename _) (List.flatMap_congr fun group member => ?_)
      refine congrArg group.1.wrap (List.map_congr_left fun child inside => ?_)
      have family := (mem_of_mem_group member inside).1
      have proper := Spec.ne_nil_of_mem_closure (Spec.mem_closure_of_mem_children family)
      exact asks.field_eq_of_below proper (ih child family)

theorem field_eq (proper : chain ≠ []) : field ⟨query.view, other⟩ chain = query.field chain :=
  asks.field_eq_of_below proper (asks.orTypename_selections names rooted chain)

theorem definitions_eq (parent : Chain) :
    definitions ⟨query.view, other⟩ parent = query.definitions parent := by
  by_cases asked : parents parent
  · have bare := asks.bare parent asked
    rw [definitions, definitions, asks.groups_asked asked, groups, bare.childless]
    rfl
  · rw [definitions, definitions, asks.groups_unasked asked]
    refine List.filterMap_congr fun group member => ?_
    have fields : group.2.map (field ⟨query.view, other⟩) = group.2.map query.field := by
      refine List.map_congr_left fun child inside => ?_
      have selected := Spec.mem_closure_of_mem_children (mem_of_mem_group member inside).1
      exact asks.field_eq names rooted (Spec.ne_nil_of_mem_closure selected)
    obtain ⟨context, chains⟩ := group
    cases context with
    | plain => rfl
    | inline type => rfl
    | spread fragment type =>
      exact congrArg (fun fields => some (FragmentDefinition.mk fragment type fields)) fields

theorem mem_closure_of_declared (selected : chain ∈ other.closure)
    (declared : input ∈ query.inputs chain) : chain ∈ query.spec.closure := by
  rcases (asks.selected chain).mp selected with kept | ⟨parent, asked, rfl⟩
  · exact kept
  · rw [(asks.bare parent asked).inputs_typenameOf names rooted] at declared
    cases declared

theorem declares_iff (declaration : Declaration) :
    Declares ⟨query.view, other⟩ declaration ↔ query.Declares declaration := by
  constructor
  · intro declares
    obtain ⟨chain, selected, member⟩ := declares
    rw [asks.declarations_eq] at member
    obtain ⟨input, declared, -⟩ := mem_declarations.mp member
    exact ⟨chain, asks.mem_closure_of_declared names rooted selected declared, member⟩
  · intro declares
    obtain ⟨chain, selected, member⟩ := declares
    rw [← asks.declarations_eq] at member
    exact ⟨chain, (asks.selected chain).mpr (.inl selected), member⟩

theorem compilable (compilable : query.Compilable) : Compilable ⟨query.view, other⟩ where
  rooted := compilable.rooted
  resolved chain selected := by
    rcases (asks.selected chain).mp selected with kept | ⟨parent, asked, rfl⟩
    · exact compilable.resolved chain kept
    · obtain ⟨definition, resolves, -⟩ :=
        (asks.bare parent asked).resolve?_typenameOf names rooted
      exact Option.isSome_iff_exists.mpr ⟨_, resolves⟩
  bound chain selected input declared := by
    have kept := asks.mem_closure_of_declared names rooted selected declared
    obtain ⟨converts, available⟩ := compilable.bound chain kept input declared
    rw [← asks.bound, ← asks.given] at available
    rw [← asks.given] at converts
    exact ⟨converts, available⟩
  typed chain selected input declared chain' selected' input' declared' name fed fed' := by
    have kept := asks.mem_closure_of_declared names rooted selected declared
    have kept' := asks.mem_closure_of_declared names rooted selected' declared'
    rw [asks.bound] at fed fed'
    exact compilable.typed chain kept input declared chain' kept' input' declared' name fed fed'
  consistent parent parent' := by
    rw [asks.definitions_eq names rooted, asks.definitions_eq names rooted]
    exact compilable.consistent parent parent'

end Built

theorem answers (names : query.view.NamesTypes) {document : Document}
    (answers : query.Answers document) : Answers ⟨query.view, other⟩ document := by
  have rooted := answers.compilable.rooted
  have declares (declaration : Declaration) := asks.declares_iff names rooted declaration
  exact {
    compilable := asks.compilable names rooted answers.compilable
    selections := answers.selections.trans (asks.orTypename_selections names rooted []).symm
    variables_sorted := answers.variables_sorted
    settles := by
      simp only [Settles, declares]
      exact answers.settles
    declares := by
      simp only [declares]
      exact answers.declares
    fragments_sorted := answers.fragments_sorted
    mem_fragments := by
      simp only [asks.definitions_eq names rooted]
      exact answers.mem_fragments
  }

theorem compile_eq (names : query.view.NamesTypes) {document : Document}
    (compiled : compile query.view query.spec = .ok document) :
    compile query.view other = .ok document := by
  have answers : Answers ⟨query.view, other⟩ document :=
    asks.answers names (compile_eq_ok_iff.mp compiled)
  exact compile_eq_ok_iff.mpr answers

end AsksNames

theorem asksNames_of_listed (bare : ∀ parent, parents parent → query.Bare parent)
    (listed : ∀ path ∈ other.fields, path ∈ query.spec.fields ∨
      path.selection ∈ query.spec.closure ∨
        ∃ parent, parents parent ∧ path = .ofSelection (typenameOf parent))
    (kept : ∀ chain ∈ query.spec.closure, chain ∈ other.closure)
    (named : ∀ parent, parents parent → .ofSelection (typenameOf parent) ∈ other.fields)
    (bound : ∀ argument, other.variableFor? argument = query.spec.variableFor? argument)
    (given : ∀ argument, other.defaultFor? argument = query.spec.defaultFor? argument) :
    query.AsksNames parents other := by
  refine ⟨bare, fun chain => ⟨fun selected => ?_, fun either => ?_⟩, bound, given⟩
  · obtain ⟨proper, path, inside, isSelection, above⟩ := Spec.mem_closure.mp selected
    rcases listed path inside with same | known | ⟨parent, asked, rfl⟩
    · exact .inl (Spec.mem_closure.mpr ⟨proper, path, same, isSelection, above⟩)
    · exact .inl (Spec.closure_upward known above proper)
    · apply ((bare parent asked).mem_closure_of_above proper above).imp_right
      exact fun same => ⟨parent, asked, same⟩
  · rcases either with selected | ⟨parent, asked, rfl⟩
    · exact kept chain selected
    · have inside := named parent asked
      exact Spec.mem_closure.mpr
        ⟨typenameOf_ne_nil parent, _, inside, rfl, List.prefix_refl _⟩

def namingEdits (parents : List Chain) : List Spec.Edit :=
  parents.map fun parent => .select (.ofSelection (typenameOf parent))

theorem exists_update_namingEdits (spec : Spec) (parents : List Chain) :
    ∃ edited, spec.update (namingEdits parents) = .ok edited := by
  apply Spec.exists_update_eq_ok_iff.mpr
  constructor
  · intro edit member
    obtain ⟨parent, -, rfl⟩ := List.mem_map.mp member
    rfl
  · intro name argument binds
    obtain ⟨parent, -, same⟩ := List.mem_map.mp binds
    cases same

theorem asksNames_of_update {parents : List Chain} {edited : Spec}
    (bare : ∀ parent ∈ parents, query.Bare parent)
    (updated : query.spec.update (namingEdits parents) = .ok edited) :
    query.AsksNames (· ∈ parents) edited := by
  have records := Spec.records_of_update updated
  have selects (path : Path) : path ∈ edited.fields ↔ path ∈ query.spec.fields ∨
      ∃ parent ∈ parents, path = .ofSelection (typenameOf parent) := by
    simp only [records.selected, namingEdits, List.mem_map, Spec.Edit.select.injEq, eq_comm]
  apply asksNames_of_listed bare
  · intro path inside
    exact ((selects path).mp inside).imp_right .inr
  · intro chain selected
    obtain ⟨proper, path, inside, isSelection, above⟩ := Spec.mem_closure.mp selected
    have inside := (selects path).mpr (.inl inside)
    exact Spec.mem_closure.mpr ⟨proper, path, inside, isSelection, above⟩
  · intro parent asked
    exact (selects _).mpr (.inr ⟨parent, asked, rfl⟩)
  · intro argument
    apply Option.ext
    intro name
    simp [records.bound, namingEdits]
  · intro argument
    have none : (namingEdits parents).filterMap (Spec.Edit.valueFor? argument) = [] := by
      simp [namingEdits, Spec.Edit.valueFor?]
    rw [records.given, none]
    rfl

/-- The spec that selects what a reader has met, and says what it said about arguments. -/
def rereading (spec : Spec) (visited : List Chain) : Spec :=
  { spec with fields := .ofList (visited.map Path.ofSelection) }

theorem mem_below_root_iff_bare : chain ∈ query.below [] ↔
    chain ∈ query.spec.closure ∨ ∃ parent, query.Bare parent ∧ chain = typenameOf parent := by
  rw [mem_below_root_iff]
  refine or_congr_right ⟨fun found => ?_, fun found => ?_⟩
  · rcases found with ⟨none, rfl⟩ | ⟨parent, selected, composite, childless, rfl⟩
    · exact ⟨[], ⟨.inl rfl, rfl, Spec.children_root_eq_nil_iff.mpr none⟩, rfl⟩
    · exact ⟨parent, ⟨.inr selected, by simp [onComposite, composite], childless⟩, rfl⟩
  · obtain ⟨parent, ⟨rfl | selected, composite, childless⟩, rfl⟩ := found
    · exact .inl ⟨Spec.children_root_eq_nil_iff.mp childless, rfl⟩
    · have proper := Spec.ne_nil_of_mem_closure selected
      exact .inr ⟨parent, selected, by simpa [onComposite, proper] using composite, childless, rfl⟩

theorem asksNames_rereading :
    query.AsksNames query.Bare (rereading query.spec (query.below [])) := by
  have lists (path : Path) : path ∈ (rereading query.spec (query.below [])).fields ↔
      ∃ chain ∈ query.below [], Path.ofSelection chain = path :=
    PathSet.mem_ofList.trans List.mem_map
  apply asksNames_of_listed
  · exact fun parent => id
  · intro path inside
    obtain ⟨chain, met, rfl⟩ := (lists path).mp inside
    refine .inr ((mem_below_root_iff_bare.mp met).imp_right ?_)
    intro found
    obtain ⟨parent, bare, rfl⟩ := found
    exact ⟨parent, bare, rfl⟩
  · intro chain selected
    have inside := (lists _).mpr ⟨chain, mem_below_root selected, rfl⟩
    exact Spec.mem_closure.mpr
      ⟨Spec.ne_nil_of_mem_closure selected, _, inside, rfl, List.prefix_refl _⟩
  · intro parent bare
    exact (lists _).mpr ⟨_, mem_below_root_iff_bare.mpr (.inr ⟨parent, bare, rfl⟩), rfl⟩
  · exact fun argument => rfl
  · exact fun argument => rfl

end Query

/-- A `__typename` that would stand in may as well be asked for: asking for it below any of the
parents that have nothing else below them leaves the document as it is. So what a reader meets in a
document compiles to that document again. -/
theorem compile_implies_typenames (query : Query) (names : query.view.NamesTypes)
    (document : Document) (compiled : compile query.view query.spec = .ok document) :
    (∀ parents : List Chain, (∀ parent ∈ parents, query.Bare parent) →
      ∃ edited, query.spec.update (Query.namingEdits parents) = .ok edited ∧
        compile query.view edited = .ok document) ∧
    ∃ visited, (∀ others, document.Visits others ↔ others = visited) ∧
      compile query.view (Query.rereading query.spec visited) = .ok document := by
  constructor
  · intro parents bare
    obtain ⟨edited, updated⟩ := Query.exists_update_namingEdits query.spec parents
    have asks := Query.asksNames_of_update bare updated
    exact ⟨edited, updated, asks.compile_eq names compiled⟩
  · have answers := (meets_compile query).of_ok compiled
    have again := Query.asksNames_rereading.compile_eq names compiled
    exact ⟨query.below [], fun others => answers.visits_iff, again⟩

namespace Sample

def museum : Schema :=
  let language : InputDefinition := ⟨.of "language", .named (.of "Language") true, none⟩
  .ofTypes (some (.of "Museum")) [
    (.of "Museum", .object [] (Schema.fieldMap
      [⟨.of "wing", .named (.of "Hall") true, []⟩, ⟨.of "annex", .named (.of "Hall") true, []⟩])),
    (.of "Hall", .interface (Schema.fieldMap
      [⟨.of "guide", .named (.of "Guide") false, [language]⟩])),
    (.of "Guide", .union [.of "Leaflet", .of "Docent"])]

def guideTo (hall : Name) : Chain :=
  [.plain hall, ⟨.spread (.of "Tour") (.of "Hall"), .of "guide", none⟩]

def guides : Query where
  view := museum.view
  spec :=
    let wing : Path := .ofSelection (guideTo (.of "wing"))
    let annex : Path := .ofSelection (guideTo (.of "annex"))
    let language : Name := .of "language"
    (Spec.empty.update [.select wing, .select annex, .bind language (wing.argumentPath language),
      .bind language (annex.argumentPath language)]).toOption.getD .empty

def guidesDocument : Document where
  variableDefinitions := [⟨.of "language", .named (.of "Language") true, none⟩]
  selections := [
    .field none (.of "annex") [] [.spread (.of "Tour")],
    .field none (.of "wing") [] [.spread (.of "Tour")]]
  fragmentDefinitions := [⟨.of "Tour", .of "Hall",
    [.field none (.of "guide") [(.of "language", .var (.of "language"))] [.typename]]⟩]

theorem compile_guides : compile guides.view guides.spec = .ok guidesDocument := by
  decide +kernel

theorem museum_namesTypes : museum.view.NamesTypes := by
  apply museum.namesTypes_view
  · intro root found
    have composite : museum.compositeType? (.named (.of "Museum") true) = some (.of "Museum") := by
      decide +kernel
    cases found
    exact (Schema.compositeType?_eq_some_iff.mp composite).2
  · decide +kernel
  · intro composite
    have leaf : museum.compositeType? Schema.typename.type = none := by decide +kernel
    exact Option.not_isSome_iff_eq_none.mpr leaf (Schema.isSome_compositeType?_iff.mpr composite)

end Sample

/-- Of the two copies of a fragment only one asks for the name. -/
theorem compile_implies_typenames_guides :
    let asked := [Sample.guideTo (.of "wing")]
    Sample.guides.view.NamesTypes ∧
      compile Sample.guides.view Sample.guides.spec = .ok Sample.guidesDocument ∧
      (∀ parent ∈ asked, Sample.guides.Bare parent) ∧
      (∃ edited, Sample.guides.spec.update (Query.namingEdits asked) = .ok edited ∧
        compile Sample.guides.view edited = .ok Sample.guidesDocument) ∧
      ∃ visited, (∀ others, Sample.guidesDocument.Visits others ↔ others = visited) ∧
        compile Sample.guides.view (Query.rereading Sample.guides.spec visited) =
          .ok Sample.guidesDocument := by
  intro asked
  have bare : ∀ parent ∈ asked, Sample.guides.Bare parent := by decide +kernel
  obtain ⟨asking, rereading⟩ := compile_implies_typenames Sample.guides Sample.museum_namesTypes
    Sample.guidesDocument Sample.compile_guides
  exact ⟨Sample.museum_namesTypes, Sample.compile_guides, bare, asking asked bare, rereading⟩

end PathQuery
