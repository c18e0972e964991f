import PathQuery.Compile
import PathQuery.Proofs.Resolution

namespace PathQuery

open Std

theorem findSome?_toList_eq_some_iff {α : Type} {names : NameSet} {answer : Name → Option α}
    {a : α} :
    names.toList.findSome? answer = some a ↔ ∃ name ∈ names, answer name = some a ∧
      ∀ other ∈ names, compare other name = .lt → answer other = none := by
  have sorted : names.toList.Pairwise fun a b => compare a b = .lt := ExtTreeSet.ordered_toList
  constructor
  · intro found
    obtain ⟨before, name, after, split, answered, unanswered⟩ :=
      List.findSome?_eq_some_iff.mp found
    refine ⟨name, ExtTreeSet.mem_toList.mp (by simp [split]), answered, ?_⟩
    intro other member less
    have member := ExtTreeSet.mem_toList.mpr member
    rw [split] at member sorted
    obtain ⟨-, rest, -⟩ := List.pairwise_append.mp sorted
    rcases List.mem_append.mp member with earlier | later
    · exact unanswered other earlier
    · exfalso
      rcases List.mem_cons.mp later with rfl | later
      · exact ne_of_compare_eq_lt less rfl
      · have greater := (List.pairwise_cons.mp rest).1 other later
        exact ne_of_compare_eq_lt (TransCmp.lt_trans less greater) rfl
  · intro found
    obtain ⟨name, member, answered, first⟩ := found
    obtain ⟨before, after, split⟩ := List.append_of_mem (ExtTreeSet.mem_toList.mpr member)
    refine List.findSome?_eq_some_iff.mpr ⟨before, name, after, split, answered, ?_⟩
    intro other earlier
    have member : other ∈ names := ExtTreeSet.mem_toList.mp (by simp [split, earlier])
    rw [split] at sorted
    exact first other member ((List.pairwise_append.mp sorted).2.2 other earlier name (by simp))

namespace SchemaView

variable (view : SchemaView)

/-- The definition is what a segment selects below a type: the field of its type condition, or else
of the type itself, or else of the first type behind that one, by name, that has the field. -/
inductive Selects (type : Name) (segment : Segment) : FieldDefinition → Prop where
  | condition {condition : Name} {definition : FieldDefinition}
      (conditioned : segment.context.type? = some condition)
      (found : view.field? condition segment.field = some definition) :
      Selects type segment definition
  | own {definition : FieldDefinition}
      (unconditioned : ∀ condition, segment.context.type? = some condition →
        view.field? condition segment.field = none)
      (found : view.field? type segment.field = some definition) :
      Selects type segment definition
  | behind {implementation : Name} {definition : FieldDefinition}
      (unconditioned : ∀ condition, segment.context.type? = some condition →
        view.field? condition segment.field = none)
      (without : view.field? type segment.field = none)
      (member : implementation ∈ view.implementations type)
      (found : view.field? implementation segment.field = some definition)
      (first : ∀ other ∈ view.implementations type, compare other implementation = .lt →
        view.field? other segment.field = none) :
      Selects type segment definition

inductive Leads : (type : Name) → Chain → ResolvedField → Prop where
  | last {type : Name} {segment : Segment} {definition : FieldDefinition}
      (selects : view.Selects type segment definition) :
      Leads type [segment] ⟨definition, view.compositeType? definition.type⟩
  | more {type inner : Name} {segment : Segment} {rest : Chain} {definition : FieldDefinition}
      {field : ResolvedField} (selects : view.Selects type segment definition)
      (composite : view.compositeType? definition.type = some inner)
      (leads : Leads inner rest field) : Leads type (segment :: rest) field

/-- The type is the one on which the last segment is looked for: the root, or what the parent leads
to, or the name under the type of a parent that is a leaf. -/
inductive Above (root : Name) : Chain → Name → Prop where
  | root (segment : Segment) : Above root [segment] root
  | composite {parent : Chain} {segment : Segment} {field : ResolvedField} {type : Name}
      (leads : view.Leads root parent field) (composite : field.composite? = some type) :
      Above root (parent ++ [segment]) type
  | leaf {parent : Chain} {segment : Segment} {field : ResolvedField}
      (leads : view.Leads root parent field) (leaf : field.composite? = none) :
      Above root (parent ++ [segment]) field.definition.type.innerName

variable {view}

theorem select?_eq_some_iff {type : Name} {segment : Segment} {definition : FieldDefinition} :
    view.select? type segment = some definition ↔ view.Selects type segment definition := by
  unfold select?
  simp only [Option.orElse_eq_orElse, Option.orElse_eq_or, Option.or_eq_some_iff,
    Option.bind_eq_some_iff, Option.bind_eq_none_iff, findSome?_toList_eq_some_iff]
  constructor
  · intro found
    rcases found with ⟨condition, conditioned, found⟩ |
      ⟨unconditioned, found | ⟨without, implementation, member, found, first⟩⟩
    · exact .condition conditioned found
    · exact .own unconditioned found
    · exact .behind unconditioned without member found first
  · intro selects
    cases selects with
    | condition conditioned found => exact .inl ⟨_, conditioned, found⟩
    | own unconditioned found => exact .inr ⟨unconditioned, .inl found⟩
    | behind unconditioned without member found first =>
      exact .inr ⟨unconditioned, .inr ⟨without, _, member, found, first⟩⟩

theorem enter?_eq_some_iff {type : Name} {segment : Segment} {field : ResolvedField} :
    view.enter? type segment = some field ↔ ∃ definition, view.Selects type segment definition ∧
      ⟨definition, view.compositeType? definition.type⟩ = field := by
  rw [enter?, Option.map_eq_some_iff]
  simp only [select?_eq_some_iff]

theorem follow?_eq_some_iff {type : Name} {chain : Chain} {field : ResolvedField} :
    view.follow? type chain = some field ↔ view.Leads type chain field := by
  induction chain generalizing type with
  | nil =>
    constructor
    · intro none
      cases none
    · intro leads
      cases leads
  | cons segment rest ih =>
    cases rest with
    | nil =>
      rw [follow?, enter?_eq_some_iff]
      constructor
      · intro found
        obtain ⟨definition, selects, rfl⟩ := found
        exact .last selects
      · intro leads
        cases leads with
        | last selects => exact ⟨_, selects, rfl⟩
        | more selects composite leads => cases leads
    | cons next rest =>
      simp only [follow?, Option.bind_eq_bind, Option.bind_eq_some_iff, enter?_eq_some_iff, ih]
      constructor
      · intro found
        obtain ⟨_, ⟨definition, selects, rfl⟩, inner, composite, leads⟩ := found
        exact .more selects composite leads
      · intro leads
        cases leads with
        | more selects composite leads => exact ⟨_, ⟨_, selects, rfl⟩, _, composite, leads⟩

end SchemaView

/-- The selections that the paths imply are there, each with the field it leads to. -/
structure Resolution.Follows (view : SchemaView) (root : Name) (paths : List Path)
    (resolution : Resolution) : Prop where
  found : ∀ chain, Implied paths chain → ∃ field, resolution[chain]? = some field
  leads : ∀ (chain : Chain) field, resolution[chain]? = some field ↔
    Implied paths chain ∧ view.Leads root chain field

/-- The chain is the first, by depth and then in path order, that leads nowhere. -/
structure SchemaView.LosesFirst (view : SchemaView) (root : Name) (paths : List Path)
    (chain : Chain) (type field : Name) : Prop where
  implied : Implied paths chain
  nowhere : ∀ field, ¬ view.Leads root chain field
  first : ∀ other, Implied paths other → (∀ field, ¬ view.Leads root other field) →
    other ≠ chain → chain.Before other
  above : view.Above root chain type
  last_field : ∃ segment, chain.getLast? = some segment ∧ segment.field = field

namespace Query

def ofPaths (view : SchemaView) (paths : List Path) : Query :=
  ⟨view, { Spec.empty with fields := .ofList paths }⟩

variable {view : SchemaView} {root : Name} {paths : List Path} {chain : Chain}

theorem mem_closure_ofPaths :
    chain ∈ (ofPaths view paths).spec.closure ↔ Implied paths chain := by
  rw [Spec.mem_closure]
  simp only [ofPaths, PathSet.mem_ofList]
  rfl

theorem resolve?_eq_some_iff {query : Query} (rooted : query.view.queryRoot? = some root)
    {field : ResolvedField} :
    query.resolve? chain = some field ↔ query.view.Leads root chain field := by
  simp [resolve?, rooted, SchemaView.follow?_eq_some_iff]

theorem resolve?_eq_none_iff {query : Query} (rooted : query.view.queryRoot? = some root) :
    query.resolve? chain = none ↔ ∀ field, ¬ query.view.Leads root chain field := by
  simp only [Option.eq_none_iff_forall_ne_some, ne_eq, resolve?_eq_some_iff rooted]

theorem above_of_typeAbove? {query : Query} (rooted : query.view.queryRoot? = some root)
    {segment : Segment} {type : Name} (above : query.typeAbove? (chain ++ [segment]) = some type) :
    query.view.Above root (chain ++ [segment]) type := by
  unfold typeAbove? at above
  rw [List.dropLast_concat] at above
  by_cases top : chain = []
  · subst top
    rw [if_pos rfl, rooted] at above
    cases above
    exact .root segment
  · rw [if_neg top] at above
    obtain ⟨field, resolves, same⟩ := Option.map_eq_some_iff.mp above
    have leads := (resolve?_eq_some_iff rooted).mp resolves
    cases composite : field.composite? with
    | some inner =>
      rw [composite, Option.getD_some] at same
      exact .composite leads (composite.trans (congrArg some same))
    | none =>
      rw [composite, Option.getD_none] at same
      exact same ▸ .leaf leads composite

theorem LacksField.losesFirst (rooted : view.queryRoot? = some root) {error : CompileError}
    (lacks : (ofPaths view paths).LacksField error) :
    ∃ chain type field, error = .unresolvedField chain type field ∧
      view.LosesFirst root paths chain type field := by
  obtain ⟨chain, type, field, rfl, lost⟩ := lacks
  obtain ⟨-, segment, split⟩ := Spec.mem_children.mp (Spec.mem_children_dropLast lost.selected)
  generalize chain.dropLast = parent at split
  subst split
  refine ⟨_, type, field, rfl, ?_⟩
  exact {
    implied := mem_closure_ofPaths.mp lost.selected
    nowhere := (resolve?_eq_none_iff rooted).mp lost.unresolved
    first := fun other implied nowhere different =>
      lost.first other (mem_closure_ofPaths.mpr implied) ((resolve?_eq_none_iff rooted).mpr nowhere)
        different
    above := above_of_typeAbove? rooted lost.type_above
    last_field := Option.map_eq_some_iff.mp lost.last_field
  }

end Query

namespace Resolution

variable {view : SchemaView} {root : Name} {paths : List Path} {resolution : Resolution}

theorem Reads.follows (rooted : view.queryRoot? = some root) {levels : Levels}
    (holds : levels.Holds (· ∈ (Query.ofPaths view paths).spec.closure))
    (reads : resolution.Reads (.ofPaths view paths) levels.inOrder) :
    resolution.Follows view root paths := by
  have known : ∀ chain, chain ∈ levels.inOrder ↔ Implied paths chain :=
    fun chain => holds.mem_inOrder.trans Query.mem_closure_ofPaths
  refine ⟨fun chain implied => ?_, fun chain field => ?_⟩
  · have listed := (known chain).mpr implied
    rw [reads.found, if_pos listed]
    exact Option.isSome_iff_exists.mp (reads.resolved chain listed)
  · rw [reads.found]
    split
    · next listed =>
      have leads : (Query.ofPaths view paths).resolve? chain = some field ↔
          view.Leads root chain field := Query.resolve?_eq_some_iff rooted
      rw [leads, and_iff_right ((known chain).mp listed)]
    · next absent =>
      have unlisted : ¬ Implied paths chain := fun implied => absent ((known chain).mpr implied)
      simp [unlisted]

end Resolution

theorem outcome_resolve (view : SchemaView) (root : Name) (levels : Levels) :
    (resolve view root levels).outcome =
      levels.ascending.foldlM (Resolution.addLevel view root) ∅ := by
  rw [resolve, Trace.outcome_foldlM]
  rfl

theorem meets_resolve {view : SchemaView} {root : Name} (rooted : view.queryRoot? = some root)
    (paths : List Path) :
    Meets
      (fun error => ∃ chain type field, error = .unresolvedField chain type field ∧
        view.LosesFirst root paths chain type field)
      (Resolution.Follows view root paths) (resolve view root (.ofPaths paths)).outcome := by
  have holds : (Levels.ofPaths paths).Holds (· ∈ (Query.ofPaths view paths).spec.closure) :=
    (Levels.holds_ofPaths paths).congr fun chain => Query.mem_closure_ofPaths.symm
  rw [outcome_resolve]
  exact (Resolution.meets_addLevels holds rooted (List.append_nil _).symm).weaken
    (fun _ lacks => lacks.losesFirst rooted) fun _ reads => reads.follows rooted holds

def Schema.Composite (schema : Schema) (type : Name) : Prop :=
  ∃ definition, schema.types[type]? = some definition ∧ definition.isComposite = true

theorem Schema.compositeType?_eq_some_iff {schema : Schema} {reference : TypeRef} {type : Name} :
    schema.compositeType? reference = some type ↔
      type = reference.innerName ∧ schema.Composite type := by
  rw [compositeType?, Option.bind_eq_some_iff]
  constructor
  · intro found
    obtain ⟨definition, known, composite⟩ := found
    obtain ⟨isComposite, same⟩ := Option.ite_none_right_eq_some.mp composite
    cases same
    exact ⟨rfl, definition, known, isComposite⟩
  · intro found
    obtain ⟨rfl, definition, known, isComposite⟩ := found
    exact ⟨definition, known, if_pos isComposite⟩

/-- Resolution gives each selection that the paths imply the field that its own segments lead to. It
fails exactly if one of them leads nowhere, and the error is about the first that does. Where the
view is that of a schema, the composite type of a field is the one under its lists and marks. -/
theorem resolve_follows_paths (view : SchemaView) (root : Name)
    (rooted : view.queryRoot? = some root) (paths : List Path) :
    ((∃ error, (resolve view root (.ofPaths paths)).outcome = .error error) ↔
      ∃ chain, Implied paths chain ∧ ∀ field, ¬ view.Leads root chain field) ∧
    (∀ resolution, (resolve view root (.ofPaths paths)).outcome = .ok resolution →
      resolution.Follows view root paths) ∧
    (∀ error, (resolve view root (.ofPaths paths)).outcome = .error error →
      ∃ chain type field, error = .unresolvedField chain type field ∧
        view.LosesFirst root paths chain type field) ∧
    ∀ schema : Schema, view = schema.view → ∀ reference type,
      view.compositeType? reference = some type ↔
        type = reference.innerName ∧ schema.Composite type := by
  have meets := meets_resolve rooted paths
  refine ⟨⟨?_, ?_⟩, fun _ ok => meets.of_ok ok, fun _ failed => meets.of_error failed, ?_⟩
  · intro fails
    obtain ⟨error, failed⟩ := fails
    obtain ⟨chain, type, field, -, lost⟩ := meets.of_error failed
    exact ⟨chain, lost.implied, lost.nowhere⟩
  · intro lost
    obtain ⟨chain, implied, nowhere⟩ := lost
    cases outcome : (resolve view root (.ofPaths paths)).outcome with
    | error error => exact ⟨error, rfl⟩
    | ok resolution =>
      have follows := meets.of_ok outcome
      obtain ⟨field, found⟩ := follows.found chain implied
      exact absurd ((follows.leads chain field).mp found).2 (nowhere field)
  · intro schema same reference type
    rw [same]
    exact Schema.compositeType?_eq_some_iff

namespace Sample

def club : Schema :=
  let title : FieldDefinition := ⟨.of "title", .named (.of "Words") true, []⟩
  let member : FieldDefinition := ⟨.of "member", .named (.of "Member") true, []⟩
  let rank : FieldDefinition := ⟨.of "rank", .named (.of "Amount") false, []⟩
  let ranks : FieldDefinition := ⟨.of "rank", .list (.named (.of "Rank") true) false, []⟩
  .ofTypes (some (.of "Club")) [
    (.of "Club", .object [] (Schema.fieldMap [member, title])),
    (.of "Member", .interface (Schema.fieldMap [])),
    (.of "Admin", .object [.of "Member"] (Schema.fieldMap [rank])),
    (.of "Guest", .object [.of "Member"] (Schema.fieldMap [ranks])),
    (.of "Rank", .object [] (Schema.fieldMap [title]))]

def rankPaths : List Path :=
  [.ofFields [.of "member", .of "rank"], .ofSelection [.plain (.of "member"),
    ⟨.inline (.of "Guest"), .of "rank", none⟩, .plain (.of "title")]]

def lostPaths : List Path :=
  [.ofFields [.of "member", .of "rank", .of "unit"], .ofFields [.of "title", .of "size"]]

def size : Chain := [.plain (.of "title"), .plain (.of "size")]

theorem resolve_rankPaths :
    (resolve club.view (.of "Club") (.ofPaths rankPaths)).outcome.isOk = true := by
  decide +kernel

theorem resolve_lostPaths : (resolve club.view (.of "Club") (.ofPaths lostPaths)).outcome =
    .error (.unresolvedField size (.of "Words") (.of "size")) := by
  decide +kernel

end Sample

theorem resolve_follows_paths_club :
    Sample.club.view.queryRoot? = some (.of "Club") ∧
    (∃ resolution, (resolve Sample.club.view (.of "Club") (.ofPaths Sample.rankPaths)).outcome =
      .ok resolution ∧ resolution.Follows Sample.club.view (.of "Club") Sample.rankPaths) ∧
    Sample.club.view.LosesFirst (.of "Club") Sample.lostPaths Sample.size (.of "Words")
      (.of "size") := by
  have rooted : Sample.club.view.queryRoot? = some (.of "Club") := by decide +kernel
  obtain ⟨-, follows, -⟩ :=
    resolve_follows_paths Sample.club.view (.of "Club") rooted Sample.rankPaths
  obtain ⟨-, -, lost, -⟩ :=
    resolve_follows_paths Sample.club.view (.of "Club") rooted Sample.lostPaths
  refine ⟨rooted, ?_, ?_⟩
  · cases outcome : (resolve Sample.club.view (.of "Club") (.ofPaths Sample.rankPaths)).outcome with
    | ok resolution => exact ⟨resolution, rfl, follows resolution outcome⟩
    | error error =>
      have succeeds := Sample.resolve_rankPaths
      rw [outcome] at succeeds
      cases succeeds
  · obtain ⟨chain, type, field, same, first⟩ := lost _ Sample.resolve_lostPaths
    cases same
    exact first

end PathQuery
