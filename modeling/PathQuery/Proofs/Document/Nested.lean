import PathQuery.Assembly
import PathQuery.Proofs.Query.Basic

namespace PathQuery

namespace Selection

mutual

def nested : Selection → List Selection
  | field alias? name arguments selections =>
    field alias? name arguments selections :: nestedIn selections
  | inline type selections => inline type selections :: nestedIn selections
  | spread fragment => [spread fragment]

def nestedIn : List Selection → List Selection
  | [] => []
  | selection :: rest => nested selection ++ nestedIn rest

end

theorem mem_nestedIn {inner : Selection} {selections : List Selection} :
    inner ∈ nestedIn selections ↔ ∃ selection ∈ selections, inner ∈ selection.nested := by
  induction selections with
  | nil => simp [nestedIn]
  | cons selection rest ih => simp [nestedIn, ih]

theorem mem_nested_self (selection : Selection) : selection ∈ selection.nested := by
  cases selection <;> simp [nested]

theorem nestedIn_orTypename_subset (composite : Bool) (selections : List Selection) :
    nestedIn (Plan.orTypename composite selections) ⊆ typename :: nestedIn selections := by
  unfold Plan.orTypename
  split
  · simp [typename, nestedIn, nested]
  · exact List.subset_cons_self _ _

theorem subset_nestedIn_orTypename (composite : Bool) (selections : List Selection) :
    nestedIn selections ⊆ nestedIn (Plan.orTypename composite selections) := by
  unfold Plan.orTypename
  split
  · next replaced =>
    have none : selections = [] := by simp_all
    rw [none]
    exact List.nil_subset _
  · exact List.Subset.refl _

theorem mem_nestedIn_wrap {inner : Selection} {context : Context} {fields : List Selection} :
    inner ∈ nestedIn (context.wrap fields) ↔
      (context ≠ .plain ∧ inner ∈ context.wrap fields) ∨
        (context.fragment? = none ∧ inner ∈ nestedIn fields) := by
  cases context <;> simp [Context.wrap, Context.fragment?, nestedIn, nested]

end Selection

def Document.nested (document : Document) : List Selection :=
  Selection.nestedIn document.selections ++
    document.fragmentDefinitions.flatMap fun definition =>
      Selection.nestedIn definition.selections

namespace Query

open Selection

variable {query : Query} {parent : Chain}

theorem mem_nested_field {chain : Chain} (proper : chain ≠ []) {inner : Selection}
    (occurs : inner ∈ (query.field chain).nested) :
    inner = query.field chain ∨ inner = typename ∨ inner ∈ nestedIn (query.selections chain) := by
  rw [field_eq proper, nested, ← field_eq proper] at occurs
  apply (List.mem_cons.mp occurs).imp_right
  intro occurs
  exact List.mem_cons.mp (nestedIn_orTypename_subset _ _ occurs)

theorem subset_nested_field {chain : Chain} (proper : chain ≠ []) :
    nestedIn (query.selections chain) ⊆ (query.field chain).nested := by
  rw [field_eq proper, nested]
  exact fun inner occurs =>
    List.mem_cons_of_mem _ (subset_nestedIn_orTypename _ _ occurs)

theorem mem_nestedIn_selections {inner : Selection} :
    inner ∈ nestedIn (query.selections parent) ↔
      ∃ group ∈ query.groups parent,
        (group.1 ≠ .plain ∧ inner ∈ group.1.wrap (group.2.map query.field)) ∨
          (group.1.fragment? = none ∧ ∃ child ∈ group.2, inner ∈ (query.field child).nested) := by
  rw [selections_eq, mem_nestedIn]
  simp only [List.mem_flatMap]
  constructor
  · intro found
    obtain ⟨selection, ⟨group, member, inside⟩, occurs⟩ := found
    have occurs := mem_nestedIn_wrap.mp (mem_nestedIn.mpr ⟨selection, inside, occurs⟩)
    refine ⟨group, member, occurs.imp_right fun ⟨free, occurs⟩ => ⟨free, ?_⟩⟩
    obtain ⟨_, built, occurs⟩ := mem_nestedIn.mp occurs
    obtain ⟨child, inside, rfl⟩ := List.mem_map.mp built
    exact ⟨child, inside, occurs⟩
  · intro found
    obtain ⟨group, member, occurs⟩ := found
    have occurs : inner ∈ nestedIn (group.1.wrap (group.2.map query.field)) := by
      refine mem_nestedIn_wrap.mpr (occurs.imp_right fun ⟨free, child, inside, occurs⟩ => ?_)
      exact ⟨free, mem_nestedIn.mpr ⟨_, List.mem_map_of_mem inside, occurs⟩⟩
    obtain ⟨selection, inside, occurs⟩ := mem_nestedIn.mp occurs
    exact ⟨selection, ⟨group, member, inside⟩, occurs⟩

theorem mem_definitions {definition : FragmentDefinition} :
    definition ∈ query.definitions parent ↔ ∃ chains,
      (.spread definition.name definition.type, chains) ∈ query.groups parent ∧
        definition.selections = chains.map query.field := by
  obtain ⟨name, type, selections⟩ := definition
  simp only [definitions, List.mem_filterMap, Prod.exists]
  constructor
  · intro found
    obtain ⟨context, chains, member, defines⟩ := found
    cases context with
    | plain => cases defines
    | inline type => cases defines
    | spread fragment type =>
      cases defines
      exact ⟨chains, member, rfl⟩
  · intro found
    obtain ⟨chains, member, rfl⟩ := found
    exact ⟨_, chains, member, rfl⟩

theorem exists_child_of_mem_definition {definition : FragmentDefinition}
    (defined : definition ∈ query.definitions parent) {inner : Selection}
    (occurs : inner ∈ nestedIn definition.selections) :
    ∃ child ∈ query.spec.children parent, inner ∈ (query.field child).nested := by
  obtain ⟨chains, member, built⟩ := mem_definitions.mp defined
  rw [built] at occurs
  obtain ⟨_, field, occurs⟩ := mem_nestedIn.mp occurs
  obtain ⟨child, inside, rfl⟩ := List.mem_map.mp field
  exact ⟨child, (mem_of_mem_group member inside).1, occurs⟩

theorem nested_field_subset {child : Chain} (inside : child ∈ query.spec.children parent) :
    (query.field child).nested ⊆ nestedIn (query.selections parent) ∨
      ∃ definition ∈ query.definitions parent,
        Plan.contextOf child = .spread definition.name definition.type ∧
          (query.field child).nested ⊆ nestedIn definition.selections := by
  rw [← flatMap_groups query parent] at inside
  obtain ⟨⟨context, chains⟩, member, inside⟩ := List.mem_flatMap.mp inside
  obtain ⟨-, same⟩ := mem_of_mem_group member inside
  have occurs : (query.field child).nested ⊆ nestedIn (chains.map query.field) :=
    fun inner occurs => mem_nestedIn.mpr ⟨_, List.mem_map_of_mem inside, occurs⟩
  cases context with
  | plain =>
    exact .inl fun inner occurs =>
      mem_nestedIn_selections.mpr ⟨_, member, .inr ⟨rfl, child, inside, occurs⟩⟩
  | inline type =>
    exact .inl fun inner occurs =>
      mem_nestedIn_selections.mpr ⟨_, member, .inr ⟨rfl, child, inside, occurs⟩⟩
  | spread fragment type =>
    exact .inr ⟨⟨fragment, type, chains.map query.field⟩,
      mem_definitions.mpr ⟨chains, member, rfl⟩, same, occurs⟩

/-- What the selections of a document are: its fields are those of selected paths, but for a
`__typename` that stands in, and its inline fragments have some. -/
inductive Built (query : Query) : Selection → Prop where
  | standIn : Built query .typename
  | field {chain : Chain} (selected : chain ∈ query.spec.closure) : Built query (query.field chain)
  | inline {type : Name} {inner : List Selection} (some : inner ≠ []) :
      Built query (.inline type inner)
  | spread (fragment : Name) : Built query (.spread fragment)

theorem built_of_mem_nested_field {chain : Chain} (selected : chain ∈ query.spec.closure)
    {inner : Selection}
    (below : ∀ inner ∈ nestedIn (query.selections chain), query.Built inner)
    (occurs : inner ∈ (query.field chain).nested) : query.Built inner := by
  rcases mem_nested_field (Spec.ne_nil_of_mem_closure selected) occurs with rfl | rfl | deeper
  · exact .field selected
  · exact .standIn
  · exact below inner deeper

theorem built_of_mem_nestedIn {inner : Selection}
    (occurs : inner ∈ nestedIn (query.selections parent)) : query.Built inner := by
  induction parent using Spec.upward_induction query.spec generalizing inner with
  | step parent ih =>
    obtain ⟨⟨context, chains⟩, member, ⟨wrapped, own⟩ | ⟨-, child, inside, occurs⟩⟩ :=
      mem_nestedIn_selections.mp occurs
    · cases context with
      | plain => exact absurd rfl wrapped
      | inline type =>
        rw [List.mem_singleton.mp own]
        exact .inline (mt List.map_eq_nil_iff.mp (mem_groups.mp member).2)
      | spread fragment type =>
        rw [List.mem_singleton.mp own]
        exact .spread fragment
    · have family := (mem_of_mem_group member inside).1
      exact built_of_mem_nested_field (Spec.mem_closure_of_mem_children family)
        (fun inner => ih child family) occurs

end Query

end PathQuery
