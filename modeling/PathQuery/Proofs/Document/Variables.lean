import PathQuery.Proofs.Compile
import PathQuery.Proofs.Document.Nested
import PathQuery.Proofs.Literal.Value

namespace PathQuery

open Selection (nestedIn)

def SchemaView.ConstantDefaults (view : SchemaView) : Prop :=
  ∀ type field definition, view.field? type field = some definition →
    ∀ input ∈ definition.arguments, ∀ value, input.default? = some value → value.vars = []

def Selection.arguments : Selection → List (Name × Value)
  | field _ _ arguments _ => arguments
  | inline _ _ | spread _ => []

def Document.Uses (document : Document) (name : Name) : Prop :=
  ∃ selection ∈ document.nested, ∃ argument ∈ selection.arguments, name ∈ argument.2.vars

namespace SchemaView

variable {view : SchemaView}

theorem field?_of_enter? {type : Name} {segment : Segment} {field : ResolvedField}
    (entered : view.enter? type segment = some field) :
    ∃ type, view.field? type segment.field = some field.definition := by
  obtain ⟨definition, selected, rfl⟩ := Option.map_eq_some_iff.mp entered
  simp only [select?, Option.orElse_eq_orElse, Option.orElse_eq_or, Option.or_eq_some_iff]
    at selected
  rcases selected with own | ⟨-, here | ⟨-, behind⟩⟩
  · obtain ⟨condition, -, found⟩ := Option.bind_eq_some_iff.mp own
    exact ⟨condition, found⟩
  · exact ⟨type, here⟩
  · obtain ⟨implementation, -, found⟩ := List.exists_of_findSome?_eq_some behind
    exact ⟨implementation, found⟩

theorem field?_of_follow? {type : Name} {chain : Chain} {field : ResolvedField}
    (followed : view.follow? type chain = some field) :
    ∃ type name, view.field? type name = some field.definition := by
  fun_induction follow? view type chain with
  | case1 => cases followed
  | case2 type segment =>
    obtain ⟨type, found⟩ := field?_of_enter? followed
    exact ⟨type, segment.field, found⟩
  | case3 type segment next rest ih =>
    obtain ⟨above, entered, inside⟩ := Option.bind_eq_some_iff.mp followed
    obtain ⟨inner, composite, followed⟩ := Option.bind_eq_some_iff.mp inside
    exact ih inner followed

end SchemaView

namespace Query

variable {query : Query} {chain : Chain} {input : InputDefinition}

theorem vars_default (constant : query.view.ConstantDefaults)
    (declared : input ∈ query.inputs chain) {value : Value} (given : input.default? = some value) :
    value.vars = [] := by
  unfold inputs at declared
  cases resolved : query.resolve? chain with
  | none =>
    rw [resolved] at declared
    cases declared
  | some field =>
    rw [resolved, Option.elim_some, Plan.argumentsInOrder] at declared
    obtain ⟨root, -, followed⟩ := Option.bind_eq_some_iff.mp resolved
    obtain ⟨type, name, found⟩ := SchemaView.field?_of_follow? followed
    exact constant type name _ found input ((perm_sortBy _ _).mem_iff.mp declared) value given

theorem vars_explicit {argument : Path} {type : TypeRef} {value : Value}
    (given : query.explicit? argument type = some value) : value.vars = [] := by
  obtain ⟨literal, -, converts⟩ := Option.bind_eq_some_iff.mp given
  have meets := Literal.meets_toValue query.view (some type) literal
  cases converted : literal.toValue query.view (some type) with
  | ok other =>
    rw [converted] at converts meets
    cases converts
    exact meets
  | error key =>
    rw [converted] at converts
    cases converts

theorem vars_passed_of_unfed (constant : query.view.ConstantDefaults)
    (declared : input ∈ query.inputs chain)
    (unfed : query.spec.variableFor? (argumentAt chain input) = none) :
    (query.passed chain input).vars = [] := by
  simp only [passed, value?, unfed, Option.map_none, Option.orElse_eq_orElse, Option.orElse_eq_or,
    Option.none_or]
  cases given : query.explicit? (argumentAt chain input) input.type with
  | some value => exact vars_explicit given
  | none =>
    cases given : input.default? with
    | some value => exact vars_default constant declared given
    | none =>
      cases input.type.isList with
      | true => rfl
      | false => cases input.type.isRequired <;> rfl

theorem mem_vars_passed (constant : query.view.ConstantDefaults)
    (declared : input ∈ query.inputs chain) {name : Name} :
    name ∈ (query.passed chain input).vars ↔
      query.spec.variableFor? (argumentAt chain input) = some name := by
  cases fed : query.spec.variableFor? (argumentAt chain input) with
  | some other =>
    have passed : query.passed chain input = .var other := by simp [passed, value?, fed]
    rw [passed, Value.vars, List.mem_singleton, Option.some_inj, eq_comm]
  | none =>
    rw [vars_passed_of_unfed constant declared fed]
    simp

namespace Answers

variable {document : Document} (answers : query.Answers document)

include answers

theorem built_of_mem_nested {selection : Selection} (occurs : selection ∈ document.nested) :
    query.Built selection := by
  rcases List.mem_append.mp occurs with operation | fragments
  · rw [answers.selections] at operation
    rcases List.mem_cons.mp (Selection.nestedIn_orTypename_subset _ _ operation) with
      rfl | below
    · exact .standIn
    · exact built_of_mem_nestedIn below
  · obtain ⟨definition, member, occurs⟩ := List.mem_flatMap.mp fragments
    obtain ⟨parent, defined⟩ := (answers.mem_fragments definition).mp member
    obtain ⟨child, family, occurs⟩ := exists_child_of_mem_definition defined occurs
    exact built_of_mem_nested_field (Spec.mem_closure_of_mem_children family)
      (fun _ => built_of_mem_nestedIn) occurs

theorem arguments_of_mem_nested {selection : Selection} (occurs : selection ∈ document.nested) :
    selection.arguments = [] ∨ ∃ chain ∈ query.spec.closure, selection = query.field chain := by
  cases answers.built_of_mem_nested occurs with
  | standIn => exact .inl rfl
  | field selected => exact .inr ⟨_, selected, rfl⟩
  | inline some => exact .inl rfl
  | spread fragment => exact .inl rfl

theorem nested_field_subset (selected : chain ∈ query.spec.closure) :
    (query.field chain).nested ⊆ document.nested := by
  induction chain using List.reverseRecOn with
  | nil => exact absurd rfl (Spec.ne_nil_of_mem_closure selected)
  | append_singleton parent segment ih =>
    have child : parent ++ [segment] ∈ query.spec.children parent :=
      Spec.mem_children.mpr ⟨selected, segment, rfl⟩
    rcases Query.nested_field_subset child with kept | ⟨definition, defined, -, moved⟩
    · by_cases top : parent = []
      · subst top
        refine fun inner occurs => List.mem_append_left _ ?_
        rw [answers.selections]
        exact Selection.subset_nestedIn_orTypename _ _ (kept occurs)
      · have above := Spec.parent_mem_closure child top
        exact fun inner occurs => ih above (subset_nested_field top (kept occurs))
    · refine fun inner occurs => List.mem_append_right _ ?_
      have member := (answers.mem_fragments definition).mpr ⟨parent, defined⟩
      exact List.mem_flatMap.mpr ⟨definition, member, moved occurs⟩

theorem field_mem_nested (selected : chain ∈ query.spec.closure) :
    query.field chain ∈ document.nested :=
  answers.nested_field_subset selected (Selection.mem_nested_self _)

end Answers

theorem arguments_field (selected : chain ∈ query.spec.closure) :
    (query.field chain).arguments = query.arguments chain := by
  rw [field_eq (Spec.ne_nil_of_mem_closure selected), Selection.arguments]

theorem Answers.exists_passed {document : Document} (answers : query.Answers document)
    {selection : Selection} (occurs : selection ∈ document.nested) {argument : Name × Value}
    (passes : argument ∈ selection.arguments) :
    ∃ chain ∈ query.spec.closure, ∃ input ∈ query.inputs chain,
      argument = (input.name, query.passed chain input) := by
  rcases answers.arguments_of_mem_nested occurs with none | ⟨chain, selected, rfl⟩
  · rw [none] at passes
    cases passes
  · rw [arguments_field selected] at passes
    obtain ⟨input, declared, rfl⟩ := List.mem_map.mp passes
    exact ⟨chain, selected, input, declared, rfl⟩

structure Feeds (query : Query) (name : Name) (chain : Chain) (input : InputDefinition) : Prop where
  selected : chain ∈ query.spec.closure
  declared : input ∈ query.inputs chain
  bound : query.spec.variableFor? (argumentAt chain input) = some name

structure FeedsFirst (query : Query) (name : Name) (chain : Chain) (input : InputDefinition) :
    Prop extends query.Feeds name chain input where
  least : ∀ other input', query.Feeds name other input' →
    (compare (argumentAt chain input) (argumentAt other input')).isLE

/-- The document declares the variables it uses, each as its arguments say. -/
structure VariablesWellFormed (query : Query) (document : Document) : Prop where
  used_iff : ∀ name, document.Uses name ↔
    ∃ definition ∈ document.variableDefinitions, definition.name = name
  sorted : document.variableDefinitions.Pairwise fun a b => compare a.name b.name = .lt
  fields_occur : ∀ chain ∈ query.spec.closure, query.field chain ∈ document.nested
  arguments_passed : ∀ selection ∈ document.nested, ∀ argument ∈ selection.arguments,
    ∃ chain ∈ query.spec.closure, ∃ input ∈ query.inputs chain,
      argument = (input.name, query.passed chain input)
  typed : ∀ definition ∈ document.variableDefinitions, ∀ chain ∈ query.spec.closure,
    ∀ input ∈ query.inputs chain, definition.name ∈ (query.passed chain input).vars →
      definition.type = input.type
  default : ∀ definition ∈ document.variableDefinitions, ∃ chain input,
    query.FeedsFirst definition.name chain input ∧
      match query.spec.defaultFor? (argumentAt chain input) with
      | none => definition.default? = none
      | some literal => ∃ value, literal.toValue query.view (some input.type) = .ok value ∧
          definition.default? = some value

theorem Feeds.declares {name : Name} (feeds : query.Feeds name chain input) :
    query.Declares (argumentAt chain input,
      ⟨name, input.type, query.explicit? (argumentAt chain input) input.type⟩) :=
  ⟨chain, feeds.selected, mem_declarations.mpr
    ⟨input, feeds.declared, declaration?_eq_some.mpr ⟨feeds.bound, rfl⟩⟩⟩

theorem Declares.feeds {declaration : Declaration} (declares : query.Declares declaration) :
    ∃ chain input, query.Feeds declaration.2.name chain input ∧
      declaration = (argumentAt chain input, ⟨declaration.2.name, input.type,
        query.explicit? (argumentAt chain input) input.type⟩) := by
  obtain ⟨chain, selected, member⟩ := declares
  obtain ⟨input, declared, found⟩ := mem_declarations.mp member
  obtain ⟨bound, same⟩ := declaration?_eq_some.mp found
  exact ⟨chain, input, ⟨selected, declared, bound⟩, same⟩

theorem Settles.feedsFirst {definition : VariableDefinition} (settles : query.Settles definition) :
    ∃ chain input, query.FeedsFirst definition.name chain input ∧
      definition.default? = query.explicit? (argumentAt chain input) input.type := by
  obtain ⟨argument, declares, least⟩ := settles
  obtain ⟨chain, input, feeds, same⟩ := declares.feeds
  obtain ⟨rfl, same⟩ := Prod.mk.inj same
  refine ⟨chain, input, ⟨feeds, fun other input' feeds' => ?_⟩, by rw [same]⟩
  exact (least _ feeds'.declares rfl).2

theorem Settles.type_eq {definition : VariableDefinition} (settles : query.Settles definition)
    (feeds : query.Feeds definition.name chain input) : definition.type = input.type := by
  obtain ⟨argument, -, least⟩ := settles
  exact (least _ feeds.declares rfl).1.symm

theorem explicit?_eq (bindable : query.Bindable chain input) :
    match query.spec.defaultFor? (argumentAt chain input) with
    | none => query.explicit? (argumentAt chain input) input.type = none
    | some literal => ∃ value, literal.toValue query.view (some input.type) = .ok value ∧
        query.explicit? (argumentAt chain input) input.type = some value := by
  cases given : query.spec.defaultFor? (argumentAt chain input) with
  | none => simp [explicit?, given]
  | some literal =>
    obtain ⟨value, converted⟩ := bindable.converts literal given
    exact ⟨value, converted, by simp [explicit?, given, converted, Except.toOption]⟩

theorem Answers.variablesWellFormed {document : Document} (answers : query.Answers document)
    (constant : query.view.ConstantDefaults) : query.VariablesWellFormed document where
  used_iff name := by
    constructor
    · intro found
      obtain ⟨selection, occurs, argument, passes, inside⟩ := found
      obtain ⟨chain, selected, input, declared, rfl⟩ := answers.exists_passed occurs passes
      have bound := (mem_vars_passed constant declared).mp inside
      exact answers.declares _ (Feeds.declares ⟨selected, declared, bound⟩)
    · intro found
      obtain ⟨definition, member, rfl⟩ := found
      obtain ⟨chain, input, first, -⟩ := (answers.settles definition member).feedsFirst
      refine ⟨query.field chain, answers.field_mem_nested first.selected,
        (input.name, query.passed chain input), ?_,
        (mem_vars_passed constant first.declared).mpr first.bound⟩
      rw [arguments_field first.selected]
      exact List.mem_map_of_mem first.declared
  sorted := answers.variables_sorted
  fields_occur chain selected := answers.field_mem_nested selected
  arguments_passed selection occurs argument passes := answers.exists_passed occurs passes
  typed definition member chain selected input declared passes := by
    have bound := (mem_vars_passed constant declared).mp passes
    exact (answers.settles definition member).type_eq ⟨selected, declared, bound⟩
  default definition member := by
    obtain ⟨chain, input, first, same⟩ := (answers.settles definition member).feedsFirst
    refine ⟨chain, input, first, ?_⟩
    rw [same]
    exact explicit?_eq (answers.compilable.bound chain first.selected input first.declared)

end Query

/-- The variables of a compiled document are well formed, as long as the schema's own defaults hold
no variables. -/
theorem compile_variablesWellFormed (query : Query) (document : Document)
    (constant : query.view.ConstantDefaults)
    (compiled : compile query.view query.spec = .ok document) :
    query.VariablesWellFormed document :=
  ((meets_compile query).of_ok compiled).variablesWellFormed constant

theorem Sample.friends_constantDefaults : Sample.friends.view.ConstantDefaults := by
  intro type field definition found input declared value given
  simp only [Sample.friends] at found
  split at found
  · cases found
    cases declared
  · split at found
    · cases found
      cases List.mem_singleton.mp declared
      cases given
    · cases found

theorem compile_variablesWellFormed_friends :
    Sample.friends.view.ConstantDefaults ∧
      compile Sample.friends.view Sample.friends.spec = .ok Sample.friendsDocument ∧
      Sample.friends.VariablesWellFormed Sample.friendsDocument :=
  ⟨Sample.friends_constantDefaults, Sample.compile_friends,
    compile_variablesWellFormed Sample.friends Sample.friendsDocument
      Sample.friends_constantDefaults Sample.compile_friends⟩

end PathQuery
