import PathQuery.Proofs.Document.Arguments
import PathQuery.Proofs.Document.Spreads
import PathQuery.Proofs.Pathwise

namespace PathQuery

open Selection (nestedIn)

def Selection.selections : Selection → List Selection
  | field _ _ _ selections => selections
  | inline _ selections => selections
  | spread _ => []

theorem Plan.orTypename_ne_nil_iff {composite : Bool} {selections : List Selection} :
    orTypename composite selections ≠ [] ↔ composite = true ∨ selections ≠ [] := by
  cases selections <;> cases composite <;> simp [orTypename]

theorem SchemaView.Leads.composite?_eq {view : SchemaView} {type : Name} {chain : Chain}
    {field : ResolvedField} (leads : view.Leads type chain field) :
    field.composite? = view.compositeType? field.definition.type := by
  induction leads with
  | last selects => rfl
  | more selects composite leads ih => exact ih

theorem Schema.isSome_compositeType?_iff {schema : Schema} {type : TypeRef} :
    (schema.compositeType? type).isSome = true ↔ schema.Composite type.innerName := by
  rw [Option.isSome_iff_exists]
  constructor
  · intro found
    obtain ⟨name, found⟩ := found
    obtain ⟨rfl, composite⟩ := compositeType?_eq_some_iff.mp found
    exact composite
  · intro composite
    exact ⟨_, compositeType?_eq_some_iff.mpr ⟨rfl, composite⟩⟩

namespace Query

variable {query : Query} {parent chain : Chain} {resolved : ResolvedField}

theorem isComposite_eq (resolves : query.resolve? chain = some resolved) :
    query.isComposite chain = (query.view.compositeType? resolved.definition.type).isSome := by
  obtain ⟨root, rooted, -⟩ := Option.bind_eq_some_iff.mp resolves
  rw [isComposite, resolves, Option.any_some,
    ((resolve?_eq_some_iff rooted).mp resolves).composite?_eq]

theorem isComposite_of_mem_children (all : query.Resolved) (proper : parent ≠ [])
    (family : chain ∈ query.spec.children parent) : query.isComposite parent = true := by
  obtain ⟨selected, segment, rfl⟩ := Spec.mem_children.mp family
  obtain ⟨field, resolves⟩ := Option.isSome_iff_exists.mp (all _ selected)
  rw [resolve?_concat proper] at resolves
  obtain ⟨above, resolves, inside⟩ := Option.bind_eq_some_iff.mp resolves
  obtain ⟨inner, composite, -⟩ := Option.bind_eq_some_iff.mp inside
  rw [isComposite, resolves, Option.any_some, composite]
  rfl

theorem selections_field_ne_nil_iff (all : query.Resolved) (selected : chain ∈ query.spec.closure) :
    (query.field chain).selections ≠ [] ↔ query.isComposite chain = true := by
  have proper := Spec.ne_nil_of_mem_closure selected
  rw [field_eq proper, Selection.selections, Plan.orTypename_ne_nil_iff, or_iff_left_iff_imp]
  intro some
  have parent : query.spec.children chain ≠ [] := mt selections_eq_nil some
  obtain ⟨child, family⟩ := List.exists_mem_of_ne_nil _ parent
  exact isComposite_of_mem_children all proper family

theorem selections_ne_nil_of_mem_definitions {definition : FragmentDefinition}
    (defined : definition ∈ query.definitions parent) : definition.selections ≠ [] := by
  obtain ⟨chains, member, same⟩ := mem_definitions.mp defined
  rw [same]
  exact mt List.map_eq_nil_iff.mp (mem_groups.mp member).2

/-- The document has selections wherever it must have some, and nowhere else. -/
structure Fills (query : Query) (document : Document) : Prop where
  operation : document.selections ≠ []
  inlines : ∀ type inner, .inline type inner ∈ document.nested → inner ≠ []
  fragments : ∀ definition ∈ document.fragmentDefinitions, definition.selections ≠ []
  selected : ∀ chain ∈ query.spec.closure, ∃ resolved field,
    query.resolve? chain = some resolved ∧
      (∀ other, document.FieldAt chain other ↔ other = field) ∧
      (field.selections ≠ [] ↔
        (query.view.compositeType? resolved.definition.type).isSome = true)
  /-- There are no other fields, but for a `__typename` that stands in, which has no selections. -/
  fields : ∀ alias? name arguments below,
    Selection.field alias? name arguments below ∈ document.nested →
      Selection.field alias? name arguments below = .typename ∨
        ∃ chain ∈ query.spec.closure,
          document.FieldAt chain (.field alias? name arguments below)

theorem Answers.fills {document : Document} (answers : query.Answers document) :
    query.Fills document where
  operation := by
    rw [answers.selections]
    exact Plan.orTypename_ne_nil_iff.mpr (.inl rfl)
  inlines type inner occurs := by
    generalize same : Selection.inline type inner = selection at occurs
    cases answers.built_of_mem_nested occurs with
    | standIn => cases same
    | field selected =>
      rw [field_eq (Spec.ne_nil_of_mem_closure selected)] at same
      cases same
    | inline some =>
      cases same
      exact some
    | spread fragment => cases same
  fragments definition member := by
    obtain ⟨parent, defined⟩ := (answers.mem_fragments definition).mp member
    exact selections_ne_nil_of_mem_definitions defined
  selected chain selected := by
    obtain ⟨resolved, resolves⟩ :=
      Option.isSome_iff_exists.mp (answers.compilable.resolved chain selected)
    refine ⟨resolved, query.field chain, resolves, fun other => answers.fieldAt_iff selected, ?_⟩
    rw [selections_field_ne_nil_iff answers.compilable.resolved selected, isComposite_eq resolves]
  fields alias? name arguments below occurs := by
    generalize same : Selection.field alias? name arguments below = field at occurs
    cases answers.built_of_mem_nested occurs with
    | standIn => exact .inl rfl
    | field selected => exact .inr ⟨_, selected, (answers.fieldAt_iff selected).mpr rfl⟩
    | inline some => cases same
    | spread fragment => cases same

end Query

/-- A compiled document has selections wherever it must have some, and nowhere else. Where the view
is that of a schema, the composite types are its objects, interfaces and unions. -/
theorem compile_fills (query : Query) (document : Document)
    (compiled : compile query.view query.spec = .ok document) :
    query.Fills document ∧
      ∀ schema : Schema, query.view = schema.view → ∀ type : TypeRef,
        (query.view.compositeType? type).isSome = true ↔ schema.Composite type.innerName := by
  refine ⟨((meets_compile query).of_ok compiled).fills, fun schema same type => ?_⟩
  rw [same]
  exact Schema.isSome_compositeType?_iff

namespace Sample

def garden : Schema :=
  let height : FieldDefinition := ⟨.of "height", .named (.of "Metres") true, []⟩
  let leaves : FieldDefinition := ⟨.of "leaves", .list (.named (.of "Leaf") true) true, []⟩
  .ofTypes (some (.of "Garden")) [
    (.of "Garden", .object [] (Schema.fieldMap
      [⟨.of "plants", .list (.named (.of "Plant") false) false, []⟩])),
    (.of "Plant", .interface (Schema.fieldMap [height])),
    (.of "Tree", .object [.of "Plant"] (Schema.fieldMap [height, leaves])),
    (.of "Leaf", .object [] (Schema.fieldMap [height]))]

def plants : Query :=
  let plants : Segment := .plain (.of "plants")
  let small : Segment := ⟨.inline (.of "Tree"), .of "leaves", some (.of "small")⟩
  .ofPaths garden.view [
    .ofFields [.of "plants", .of "height"],
    .ofSelection [plants, ⟨.inline (.of "Tree"), .of "leaves", none⟩],
    .ofSelection [plants, small, .plain (.of "height")],
    .ofSelection [plants, ⟨.spread (.of "Crown") (.of "Tree"), .of "leaves", none⟩]]

def plantsDocument : Document where
  variableDefinitions := []
  selections := [.field none (.of "plants") [] [
    .field none (.of "height") [] [],
    .inline (.of "Tree") [
      .field none (.of "leaves") [] [.typename],
      .field (some (.of "small")) (.of "leaves") [] [.field none (.of "height") [] []]],
    .spread (.of "Crown")]]
  fragmentDefinitions :=
    [⟨.of "Crown", .of "Tree", [.field none (.of "leaves") [] [.typename]]⟩]

theorem compile_plants : compile plants.view plants.spec = .ok plantsDocument := by
  decide +kernel

end Sample

theorem compile_fills_plants :
    compile Sample.plants.view Sample.plants.spec = .ok Sample.plantsDocument ∧
      Sample.plants.view = Sample.garden.view ∧ Sample.plants.Fills Sample.plantsDocument ∧
      ∀ type : TypeRef, (Sample.plants.view.compositeType? type).isSome = true ↔
        Sample.garden.Composite type.innerName := by
  obtain ⟨fills, composite⟩ :=
    compile_fills Sample.plants Sample.plantsDocument Sample.compile_plants
  exact ⟨Sample.compile_plants, rfl, fills, composite Sample.garden rfl⟩

end PathQuery
