import PathQuery.Proofs.Document.Variables
import PathQuery.Proofs.Document.Walk

namespace PathQuery

open Std

/-- The field stands at the chain, seen from a parent with selections in a context. Inline fragments
are looked into, and so are the fragments that are spread. -/
inductive FieldAt (fragments : List FragmentDefinition) :
    (parent : Chain) → Context → List Selection → (chain : Chain) → (field : Selection) →
      Prop where
  | here {parent : Chain} {context : Context} {selections below : List Selection}
      {alias? : Option Name} {name : Name} {arguments : List (Name × Value)}
      (member : .field alias? name arguments below ∈ selections) :
      FieldAt fragments parent context selections (parent ++ [⟨context, name, alias?⟩])
        (.field alias? name arguments below)
  | under {parent chain : Chain} {context : Context} {selections below : List Selection}
      {alias? : Option Name} {name : Name} {arguments : List (Name × Value)} {field : Selection}
      (member : .field alias? name arguments below ∈ selections)
      (found : FieldAt fragments (parent ++ [⟨context, name, alias?⟩]) .plain below chain field) :
      FieldAt fragments parent context selections chain field
  | inline {parent chain : Chain} {context : Context} {selections inner : List Selection}
      {type : Name} {field : Selection} (member : .inline type inner ∈ selections)
      (found : FieldAt fragments parent (.inline type) inner chain field) :
      FieldAt fragments parent context selections chain field
  | spread {parent chain : Chain} {context : Context} {selections : List Selection}
      {fragment : Name} {definition : FragmentDefinition} {field : Selection}
      (member : .spread fragment ∈ selections)
      (known : fragments.find? (fun definition => definition.name = fragment) = some definition)
      (found : FieldAt fragments parent (.spread fragment definition.type) definition.selections
        chain field) :
      FieldAt fragments parent context selections chain field

def Document.FieldAt (document : Document) (chain : Chain) (field : Selection) : Prop :=
  PathQuery.FieldAt document.fragmentDefinitions [] .plain document.selections chain field

namespace FieldAt

variable {fragments : List FragmentDefinition} {parent chain : Chain} {context : Context}
  {selections others : List Selection} {field : Selection}

theorem mono (found : FieldAt fragments parent context selections chain field)
    (kept : selections ⊆ others) : FieldAt fragments parent context others chain field := by
  cases found with
  | here member => exact .here (kept member)
  | under member found => exact .under (kept member) found
  | inline member found => exact .inline (kept member) found
  | spread member known found => exact .spread (kept member) known found

theorem iff_exists : FieldAt fragments parent context selections chain field ↔
    ∃ selection ∈ selections, FieldAt fragments parent context [selection] chain field := by
  constructor
  · intro found
    cases found with
    | here member => exact ⟨_, member, .here (List.mem_singleton_self _)⟩
    | under member found => exact ⟨_, member, .under (List.mem_singleton_self _) found⟩
    | inline member found => exact ⟨_, member, .inline (List.mem_singleton_self _) found⟩
    | spread member known found =>
      exact ⟨_, member, .spread (List.mem_singleton_self _) known found⟩
  · intro found
    obtain ⟨selection, member, found⟩ := found
    exact found.mono (List.cons_subset.mpr ⟨member, List.nil_subset _⟩)

end FieldAt

namespace Query

variable {query : Query} {fragments : List FragmentDefinition} {parent chain : Chain}
  {field : Selection}

theorem fieldAt_field {child : Chain} (inside : child ∈ query.spec.children parent) :
    FieldAt fragments parent (Plan.contextOf child) [query.field child] chain field ↔
      (chain = child ∧ field = query.field child) ∨
        FieldAt fragments child .plain
          (Plan.orTypename (query.isComposite child) (query.selections child)) chain field := by
  obtain ⟨-, segment, rfl⟩ := Spec.mem_children.mp inside
  have built : query.field (parent ++ [segment]) =
      .field segment.alias? segment.field (query.arguments (parent ++ [segment]))
        (Plan.orTypename (query.isComposite (parent ++ [segment]))
          (query.selections (parent ++ [segment]))) := by
    rw [Query.field, node, List.getLast?_concat, Option.elim_some]
  rw [Plan.contextOf_concat, built]
  constructor
  · intro found
    cases found with
    | here member =>
      obtain ⟨rfl, rfl, rfl, rfl⟩ := Selection.field.inj (List.mem_singleton.mp member)
      exact .inl ⟨rfl, rfl⟩
    | under member found =>
      obtain ⟨rfl, rfl, rfl, rfl⟩ := Selection.field.inj (List.mem_singleton.mp member)
      exact .inr found
    | inline member found => cases List.mem_singleton.mp member
    | spread member known found => cases List.mem_singleton.mp member
  · intro either
    rcases either with ⟨rfl, rfl⟩ | found
    · exact .here (List.mem_singleton_self _)
    · exact .under (List.mem_singleton_self _) found

theorem fieldAt_group
    (known : ∀ definition ∈ query.definitions parent,
      fragments.find? (fun other => other.name = definition.name) = some definition)
    {group : Context × List Chain} (member : group ∈ query.groups parent) :
    FieldAt fragments parent .plain (group.1.wrap (group.2.map query.field)) chain field ↔
      FieldAt fragments parent group.1 (group.2.map query.field) chain field := by
  obtain ⟨context, chains⟩ := group
  cases context with
  | plain => exact Iff.rfl
  | inline type =>
    constructor
    · intro found
      cases found with
      | here member => cases List.mem_singleton.mp member
      | under member found => cases List.mem_singleton.mp member
      | inline member found =>
        obtain ⟨rfl, rfl⟩ := Selection.inline.inj (List.mem_singleton.mp member)
        exact found
      | spread member known found => cases List.mem_singleton.mp member
    · exact fun found => .inline (List.mem_singleton_self _) found
  | spread fragment type =>
    have defined := known _ (List.mem_filterMap.mpr ⟨_, member, rfl⟩ :
      ⟨fragment, type, chains.map query.field⟩ ∈ query.definitions parent)
    constructor
    · intro found
      cases found with
      | here member => cases List.mem_singleton.mp member
      | under member found => cases List.mem_singleton.mp member
      | inline member found => cases List.mem_singleton.mp member
      | spread member known found =>
        obtain rfl := Selection.spread.inj (List.mem_singleton.mp member)
        rw [defined] at known
        cases known
        exact found
    · exact fun found => .spread (List.mem_singleton_self _) defined found

section Known

variable (known : ∀ parent, ∀ definition ∈ query.definitions parent,
  fragments.find? (fun other => other.name = definition.name) = some definition)

include known

theorem fieldAt_selections :
    FieldAt fragments parent .plain (query.selections parent) chain field ↔
      ∃ child ∈ query.spec.children parent, (chain = child ∧ field = query.field child) ∨
        FieldAt fragments child .plain
          (Plan.orTypename (query.isComposite child) (query.selections child)) chain field := by
  rw [selections_eq, FieldAt.iff_exists]
  constructor
  · intro found
    obtain ⟨selection, inside, found⟩ := found
    obtain ⟨group, member, inside⟩ := List.mem_flatMap.mp inside
    have found := found.mono (List.cons_subset.mpr ⟨inside, List.nil_subset _⟩)
    obtain ⟨_, built, found⟩ := FieldAt.iff_exists.mp ((fieldAt_group (known _) member).mp found)
    obtain ⟨child, inside, rfl⟩ := List.mem_map.mp built
    obtain ⟨family, context⟩ := mem_of_mem_group member inside
    rw [← context] at found
    exact ⟨child, family, (fieldAt_field family).mp found⟩
  · intro found
    obtain ⟨child, family, found⟩ := found
    have inside := family
    rw [← flatMap_groups] at inside
    obtain ⟨group, member, inside⟩ := List.mem_flatMap.mp inside
    have found := (fieldAt_field family).mpr found
    rw [(mem_of_mem_group member inside).2] at found
    have found := found.mono (List.cons_subset.mpr ⟨List.mem_map_of_mem inside, List.nil_subset _⟩)
    obtain ⟨selection, own, found⟩ :=
      FieldAt.iff_exists.mp ((fieldAt_group (known _) member).mpr found)
    exact ⟨selection, List.mem_flatMap.mpr ⟨group, member, own⟩, found⟩

omit known in
theorem fieldAt_orTypename (composite : Bool) (selected : chain ∈ query.spec.closure) :
    FieldAt fragments parent .plain (Plan.orTypename composite (query.selections parent)) chain
        field ↔
      FieldAt fragments parent .plain (query.selections parent) chain field := by
  unfold Plan.orTypename
  split
  · next replaced =>
    have bare : query.selections parent = [] := by simp_all
    rw [bare]
    constructor
    · intro found
      cases found with
      | here member =>
        obtain ⟨rfl, rfl, rfl, rfl⟩ := Selection.field.inj (List.mem_singleton.mp member)
        have child : parent ++ [⟨.plain, .typename, none⟩] ∈ query.spec.children parent :=
          Spec.mem_children.mpr ⟨selected, _, rfl⟩
        exact absurd bare (selections_ne_nil (List.ne_nil_of_mem child))
      | under member found =>
        obtain ⟨rfl, rfl, rfl, rfl⟩ := Selection.field.inj (List.mem_singleton.mp member)
        obtain ⟨_, none, -⟩ := FieldAt.iff_exists.mp found
        cases none
      | inline member found => cases List.mem_singleton.mp member
      | spread member known found => cases List.mem_singleton.mp member
    · exact fun found => found.mono (List.nil_subset _)
  · exact Iff.rfl

theorem eq_field_of_fieldAt (selected : chain ∈ query.spec.closure)
    (found : FieldAt fragments parent .plain (query.selections parent) chain field) :
    field = query.field chain := by
  induction parent using Spec.upward_induction query.spec with
  | step parent ih =>
    obtain ⟨child, family, ⟨rfl, rfl⟩ | deeper⟩ := (fieldAt_selections known).mp found
    · rfl
    · exact ih child family ((fieldAt_orTypename _ selected).mp deeper)

theorem fieldAt_root_of_fieldAt (selected : chain ∈ query.spec.closure)
    (found : FieldAt fragments parent .plain (query.selections parent) chain field)
    (above : parent = [] ∨ parent ∈ query.spec.closure) :
    FieldAt fragments [] .plain (query.selections []) chain field := by
  revert found
  refine Spec.downward_induction (fun found => found) ?_ parent above
  intro parent child family ih found
  refine ih ((fieldAt_selections known).mpr ⟨child, family, .inr ?_⟩)
  exact (fieldAt_orTypename _ selected).mpr found

theorem fieldAt_root_iff (selected : chain ∈ query.spec.closure) :
    FieldAt fragments [] .plain (query.selections []) chain field ↔ field = query.field chain := by
  constructor
  · exact eq_field_of_fieldAt known selected
  · intro same
    have child := Spec.mem_children_dropLast selected
    have found := (fieldAt_selections known).mpr ⟨chain, child, .inl ⟨rfl, same⟩⟩
    exact fieldAt_root_of_fieldAt known selected found
      ((em (chain.dropLast = [])).imp_right (Spec.parent_mem_closure child))

end Known

theorem Answers.fieldAt_iff {document : Document} (answers : query.Answers document)
    (selected : chain ∈ query.spec.closure) :
    document.FieldAt chain field ↔ field = query.field chain := by
  rw [Document.FieldAt, answers.selections, fieldAt_orTypename _ selected]
  exact fieldAt_root_iff (fun parent => answers.find?_fragment) selected

/-- The value is the first there is for an argument: its variable, its explicit value, the schema's
default, an empty list, null. -/
inductive Takes (query : Query) (chain : Chain) (input : InputDefinition) : Value → Prop where
  | fed {name : Name} (bound : query.spec.variableFor? (argumentAt chain input) = some name) :
      Takes query chain input (.var name)
  | explicit {literal : Literal} {value : Value}
      (unbound : query.spec.variableFor? (argumentAt chain input) = none)
      (given : query.spec.defaultFor? (argumentAt chain input) = some literal)
      (converts : literal.toValue query.view (some input.type) = .ok value) :
      Takes query chain input value
  | default {value : Value}
      (unbound : query.spec.variableFor? (argumentAt chain input) = none)
      (ungiven : query.spec.defaultFor? (argumentAt chain input) = none)
      (default : input.default? = some value) : Takes query chain input value
  | list (unbound : query.spec.variableFor? (argumentAt chain input) = none)
      (ungiven : query.spec.defaultFor? (argumentAt chain input) = none)
      (without : input.default? = none) (list : input.type.isList = true) :
      Takes query chain input (.list [])
  | null (unbound : query.spec.variableFor? (argumentAt chain input) = none)
      (ungiven : query.spec.defaultFor? (argumentAt chain input) = none)
      (without : input.default? = none) (single : input.type.isList = false)
      (nullable : input.type.isRequired = false) : Takes query chain input .null

variable {input : InputDefinition}

theorem takes_passed (bindable : query.Bindable chain input) :
    query.Takes chain input (query.passed chain input) := by
  have available := bindable.available
  have explicit := explicit?_eq bindable
  cases bound : query.spec.variableFor? (argumentAt chain input) with
  | some name =>
    have same : query.passed chain input = .var name := by simp [passed, value?, bound]
    exact same ▸ .fed bound
  | none =>
    cases given : query.spec.defaultFor? (argumentAt chain input) with
    | some literal =>
      rw [given] at explicit
      obtain ⟨value, converts, explicit⟩ := explicit
      have same : query.passed chain input = value := by simp [passed, value?, bound, explicit]
      exact same ▸ .explicit bound given converts
    | none =>
      rw [given] at explicit
      cases default : input.default? with
      | some value =>
        have same : query.passed chain input = value := by
          simp [passed, value?, bound, explicit, default]
        exact same ▸ .default bound given default
      | none =>
        cases list : input.type.isList with
        | true =>
          have same : query.passed chain input = .list [] := by
            simp [passed, value?, bound, explicit, default, list]
          exact same ▸ .list bound given default list
        | false =>
          have nullable : input.type.isRequired = false := by
            simpa [bound, given, default, list] using available
          have same : query.passed chain input = .null := by
            simp [passed, value?, bound, explicit, default, list, nullable]
          exact same ▸ .null bound given default list nullable

def Supplies (query : Query) (chain : Chain) (definition : FieldDefinition)
    (arguments : List (Name × Value)) : Prop :=
  ∃ inputs : List InputDefinition, inputs.Perm definition.arguments ∧
    KeysAscend InputDefinition.name inputs ∧
      List.Forall₂ (fun input argument => argument.1 = input.name ∧
        query.Takes chain input argument.2) inputs arguments

structure Stranded (query : Query) (chain : Chain) (input : InputDefinition) : Prop where
  unbound : query.spec.variableFor? (argumentAt chain input) = none
  ungiven : query.spec.defaultFor? (argumentAt chain input) = none
  without : input.default? = none
  single : input.type.isList = false
  required : input.type.isRequired = true

theorem mem_inputs : input ∈ query.inputs chain ↔
    ∃ resolved, query.resolve? chain = some resolved ∧ input ∈ resolved.definition.arguments := by
  unfold inputs
  cases query.resolve? chain with
  | none => simp
  | some resolved => simp [Plan.argumentsInOrder, (perm_sortBy _ _).mem_iff]

theorem supplies_arguments (bound : query.Bound) (selected : chain ∈ query.spec.closure)
    {resolved : ResolvedField} (resolves : query.resolve? chain = some resolved) :
    query.Supplies chain resolved.definition (query.arguments chain) := by
  have inputs : query.inputs chain = Plan.argumentsInOrder resolved.definition := by
    rw [Query.inputs, resolves, Option.elim_some]
  refine ⟨query.inputs chain, ?_, ?_, ?_⟩
  · rw [inputs]
    exact perm_sortBy _ _
  · rw [inputs]
    exact keysAscend_sortBy _ _
  · refine List.forall₂_map_right_iff.mpr (List.forall₂_same.mpr fun input declared => ⟨rfl, ?_⟩)
    exact takes_passed (bound chain selected input declared)

theorem Bindable.not_stranded (bindable : query.Bindable chain input) :
    ¬ query.Stranded chain input := by
  intro stranded
  have available := bindable.available
  simp [stranded.unbound, stranded.ungiven, stranded.without, stranded.single,
    stranded.required] at available

end Query

/-- At each selection of a compiled query stands one field; it has all the declared arguments in
order of their names, each with the first value there is, and none is without a value. -/
theorem compile_supplies_arguments (query : Query) (document : Document)
    (compiled : compile query.view query.spec = .ok document) :
    ∀ chain ∈ query.spec.closure, ∃ resolved, query.resolve? chain = some resolved ∧
      (∃ field, document.FieldAt chain field) ∧
      (∀ field, document.FieldAt chain field →
        query.Supplies chain resolved.definition field.arguments) ∧
      ∀ input ∈ resolved.definition.arguments, ¬ query.Stranded chain input := by
  have answers := (meets_compile query).of_ok compiled
  intro chain selected
  obtain ⟨resolved, resolves⟩ :=
    Option.isSome_iff_exists.mp (answers.compilable.resolved chain selected)
  refine ⟨resolved, resolves, ⟨_, (answers.fieldAt_iff selected).mpr rfl⟩, ?_, ?_⟩
  · intro field found
    rw [(answers.fieldAt_iff selected).mp found, Query.arguments_field selected]
    exact Query.supplies_arguments answers.compilable.bound selected resolves
  · intro input declared
    have declared := Query.mem_inputs.mpr ⟨resolved, resolves, declared⟩
    exact (answers.compilable.bound chain selected input declared).not_stranded

namespace Sample

def search : Query where
  view := {
    queryRoot? := some (.of "Root")
    field? := fun _ field => some ⟨field, .named (.of "Hit") true, [
      ⟨.of "text", .named (.of "Text") true, none⟩,
      ⟨.of "tags", .list (.named (.of "Text") true) true, none⟩,
      ⟨.of "order", .named (.of "Order") true, none⟩,
      ⟨.of "limit", .named (.of "Number") true, some (.int "10")⟩,
      ⟨.of "after", .named (.of "Text") false, none⟩]⟩
    implementations := fun _ => ∅
    compositeType? := fun _ => none
    isEnum := fun type => type = .of "Order"
    inputFieldType? := fun _ _ => none
  }
  spec :=
    let inHits : Context := .spread (.of "Hits") (.of "Root")
    let hits : Path := .ofSelection [⟨inHits, .of "search", some (.of "hits")⟩]
    (Spec.empty.update [.select hits, .bind (.of "word") (hits.argumentPath (.of "text")),
      .setDefault (hits.argumentPath (.of "order")) (.string "ASC")]).toOption.getD .empty

def searchDocument : Document where
  variableDefinitions := [⟨.of "word", .named (.of "Text") true, none⟩]
  selections := [.spread (.of "Hits")]
  fragmentDefinitions := [⟨.of "Hits", .of "Root", [.field (some (.of "hits")) (.of "search")
    [(.of "after", .null), (.of "limit", .int "10"), (.of "order", .enum (.of "ASC")),
      (.of "tags", .list []), (.of "text", .var (.of "word"))] []]⟩]

theorem compile_search : compile search.view search.spec = .ok searchDocument := by
  decide +kernel

end Sample

theorem compile_supplies_arguments_search :
    compile Sample.search.view Sample.search.spec = .ok Sample.searchDocument ∧
    ∀ chain ∈ Sample.search.spec.closure, ∃ resolved,
      Sample.search.resolve? chain = some resolved ∧
      (∃ field, Sample.searchDocument.FieldAt chain field) ∧
      (∀ field, Sample.searchDocument.FieldAt chain field →
        Sample.search.Supplies chain resolved.definition field.arguments) ∧
      ∀ input ∈ resolved.definition.arguments, ¬ Sample.search.Stranded chain input :=
  ⟨Sample.compile_search,
    compile_supplies_arguments Sample.search Sample.searchDocument Sample.compile_search⟩

end PathQuery
