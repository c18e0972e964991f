import PathQuery.CompileError
import PathQuery.Proofs.Query.Basic

namespace PathQuery

namespace Query

variable (query : Query)

/-- An argument has a value, and its explicit value can be written in a query. -/
structure Bindable (chain : Chain) (input : InputDefinition) : Prop where
  converts : ∀ literal, query.spec.defaultFor? (argumentAt chain input) = some literal →
    ∃ value, literal.toValue query.view (some input.type) = .ok value
  available : (query.spec.variableFor? (argumentAt chain input)).isSome ∨
    (query.spec.defaultFor? (argumentAt chain input)).isSome ∨ input.default?.isSome ∨
      input.type.isList = true ∨ input.type.isRequired = false

def Rooted : Prop := query.view.queryRoot?.isSome = true

def Resolved : Prop := ∀ chain ∈ query.spec.closure, (query.resolve? chain).isSome = true

def Bound : Prop :=
  ∀ chain ∈ query.spec.closure, ∀ input ∈ query.inputs chain, query.Bindable chain input

def Typed : Prop :=
  ∀ chain ∈ query.spec.closure, ∀ input ∈ query.inputs chain,
    ∀ chain' ∈ query.spec.closure, ∀ input' ∈ query.inputs chain', ∀ name,
      query.spec.variableFor? (argumentAt chain input) = some name →
      query.spec.variableFor? (argumentAt chain' input') = some name → input.type = input'.type

def Consistent : Prop :=
  ∀ parent parent' : Chain, ∀ definition ∈ query.definitions parent,
    ∀ definition' ∈ query.definitions parent',
      definition.name = definition'.name → definition = definition'

structure Compilable : Prop where
  rooted : query.Rooted
  resolved : query.Resolved
  bound : query.Bound
  typed : query.Typed
  consistent : query.Consistent

def Declares (declaration : Declaration) : Prop :=
  ∃ chain ∈ query.spec.closure, declaration ∈ query.declarations chain

def typeAbove? (chain : Chain) : Option Name :=
  if chain.dropLast = [] then query.view.queryRoot?
  else (query.resolve? chain.dropLast).map fun parent =>
    parent.composite?.getD parent.definition.type.innerName

structure FirstUnresolved (chain : Chain) (type field : Name) : Prop where
  selected : chain ∈ query.spec.closure
  unresolved : query.resolve? chain = none
  first : ∀ other ∈ query.spec.closure, query.resolve? other = none → other ≠ chain →
    chain.Before other
  type_above : query.typeAbove? chain = some type
  last_field : chain.getLast?.map Segment.field = some field

def LacksField (error : CompileError) : Prop :=
  ∃ chain type field, error = .unresolvedField chain type field ∧
    query.FirstUnresolved chain type field

/-- What an error says is so. -/
def Violates : CompileError → Prop
  | .noQueryRoot => ¬ query.Rooted
  | .unresolvedField chain type field => query.FirstUnresolved chain type field
  | .invalidKey argument key => ∃ chain ∈ query.spec.closure, ∃ input ∈ query.inputs chain,
      argument = argumentAt chain input ∧ ∃ literal,
        query.spec.defaultFor? argument = some literal ∧
          literal.toValue query.view (some input.type) = .error key
  | .unboundArgument argument name type =>
    ∃ chain ∈ query.spec.closure, ∃ input ∈ query.inputs chain,
      argument = argumentAt chain input ∧ name = input.name ∧ type = input.type ∧
        query.value? chain input = none
  | .variableConflict name existing conflicting => existing ≠ conflicting ∧
      ∃ first second, query.Declares first ∧ query.Declares second ∧
        (compare first.1 second.1).isLE ∧ first.2.name = name ∧ second.2.name = name ∧
        first.2.type = existing ∧ second.2.type = conflicting
  | .fragmentConflict fragment => ∃ parent parent' : Chain,
      ∃ definition ∈ query.definitions parent, ∃ definition' ∈ query.definitions parent',
        definition.name = fragment ∧ definition'.name = fragment ∧ definition ≠ definition'
  | .breach _ => False

/-- The condition that an error of its kind says is not met; a breach says nothing of a query. -/
def Blames : CompileError → Prop
  | .noQueryRoot => ¬ query.Rooted
  | .unresolvedField _ _ _ => ¬ query.Resolved
  | .invalidKey _ _ | .unboundArgument _ _ _ => ¬ query.Bound
  | .variableConflict _ _ _ => ¬ query.Typed
  | .fragmentConflict _ => ¬ query.Consistent
  | .breach _ => False

variable {query}

theorem mem_declarations {chain : Chain} {declaration : Declaration} :
    declaration ∈ query.declarations chain ↔
      ∃ input ∈ query.inputs chain, query.declaration? chain input = some declaration :=
  List.mem_filterMap

theorem declaration?_eq_some {chain : Chain} {input : InputDefinition}
    {declaration : Declaration} :
    query.declaration? chain input = some declaration ↔
      query.spec.variableFor? (argumentAt chain input) = some declaration.2.name ∧
        declaration = (argumentAt chain input, ⟨declaration.2.name, input.type,
          query.explicit? (argumentAt chain input) input.type⟩) := by
  simp only [declaration?, Option.map_eq_some_iff]
  constructor
  · intro found
    obtain ⟨name, fed, rfl⟩ := found
    exact ⟨fed, rfl⟩
  · intro found
    obtain ⟨fed, same⟩ := found
    exact ⟨_, fed, same.symm⟩

theorem value?_isSome_iff {chain : Chain} {input : InputDefinition}
    (converts : ∀ literal, query.spec.defaultFor? (argumentAt chain input) = some literal →
      ∃ value, literal.toValue query.view (some input.type) = .ok value) :
    (query.value? chain input).isSome = true ↔
      ((query.spec.variableFor? (argumentAt chain input)).isSome ∨
        (query.spec.defaultFor? (argumentAt chain input)).isSome ∨ input.default?.isSome ∨
          input.type.isList = true ∨ input.type.isRequired = false) := by
  have explicit : (query.explicit? (argumentAt chain input) input.type).isSome =
      (query.spec.defaultFor? (argumentAt chain input)).isSome := by
    cases given : query.spec.defaultFor? (argumentAt chain input) with
    | none => simp [explicit?, given]
    | some literal =>
      obtain ⟨value, converted⟩ := converts literal given
      simp [explicit?, given, converted, Except.toOption]
  have list : (if input.type.isList = true then some (Value.list []) else none).isSome =
      input.type.isList := by
    cases input.type.isList <;> rfl
  have nullable : (if input.type.isRequired = true then none else some Value.null).isSome =
      !input.type.isRequired := by
    cases input.type.isRequired <;> rfl
  simp only [value?, Option.orElse_eq_orElse, Option.orElse_eq_or, Option.isSome_or,
    Option.isSome_map, explicit, list, nullable, Bool.or_eq_true, Bool.not_eq_true']

theorem Bindable.value?_isSome {chain : Chain} {input : InputDefinition}
    (bindable : query.Bindable chain input) : (query.value? chain input).isSome = true :=
  (value?_isSome_iff bindable.converts).mpr bindable.available

theorem LacksField.violates {error : CompileError} (lacks : query.LacksField error) :
    query.Violates error := by
  obtain ⟨chain, type, field, rfl, first⟩ := lacks
  exact first

theorem Violates.blames {error : CompileError} (violates : query.Violates error) :
    query.Blames error := by
  cases error with
  | noQueryRoot => exact violates
  | unresolvedField chain type field =>
    intro resolved
    have := resolved chain violates.selected
    rw [violates.unresolved] at this
    cases this
  | invalidKey argument key =>
    obtain ⟨chain, selected, input, declared, rfl, literal, given, failed⟩ := violates
    intro bound
    obtain ⟨value, converted⟩ := (bound chain selected input declared).converts literal given
    rw [converted] at failed
    cases failed
  | unboundArgument argument name type =>
    obtain ⟨chain, selected, input, declared, -, -, -, missing⟩ := violates
    intro bound
    have := (bound chain selected input declared).value?_isSome
    rw [missing] at this
    cases this
  | variableConflict name existing conflicting =>
    obtain ⟨different, first, second, ⟨chain, selected, one⟩, ⟨chain', selected', other⟩, -,
      rfl, same, rfl, rfl⟩ := violates
    obtain ⟨input, declared, one⟩ := mem_declarations.mp one
    obtain ⟨input', declared', other⟩ := mem_declarations.mp other
    obtain ⟨fed, one⟩ := declaration?_eq_some.mp one
    obtain ⟨fed', other⟩ := declaration?_eq_some.mp other
    intro typed
    rw [same] at fed'
    have := typed chain selected input declared chain' selected' input' declared' _ fed fed'
    rw [one, other] at different
    exact different this
  | fragmentConflict fragment =>
    obtain ⟨parent, parent', one, defined, other, defined', rfl, same, different⟩ := violates
    intro consistent
    exact different (consistent parent parent' one defined other defined' same.symm)
  | breach what => exact violates

end Query

end PathQuery
