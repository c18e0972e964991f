import PathQuery.Proofs.Declarations
import PathQuery.Proofs.Spec.Closure
import PathQuery.Resolution

namespace PathQuery

open Std

namespace SchemaView

def enter? (view : SchemaView) (type : Name) (segment : Segment) : Option ResolvedField :=
  (view.select? type segment).map fun definition =>
    ⟨definition, view.compositeType? definition.type⟩

def follow? (view : SchemaView) (type : Name) : Chain → Option ResolvedField
  | [] => none
  | [segment] => view.enter? type segment
  | segment :: next :: rest => do
    let field ← view.enter? type segment
    let inner ← field.composite?
    view.follow? inner (next :: rest)

theorem follow?_concat (view : SchemaView) (type : Name) {parent : Chain} (proper : parent ≠ [])
    (segment : Segment) :
    view.follow? type (parent ++ [segment]) = (do
      let field ← view.follow? type parent
      let inner ← field.composite?
      view.enter? inner segment) := by
  induction parent generalizing type with
  | nil => exact absurd rfl proper
  | cons first rest ih =>
    cases rest with
    | nil => rfl
    | cons next rest =>
      simp only [List.cons_append, follow?, Option.bind_eq_bind, Option.bind_assoc]
      refine Option.bind_congr fun field _ => Option.bind_congr fun inner _ => ?_
      have := ih inner (List.cons_ne_nil _ _)
      simpa only [List.cons_append, Option.bind_eq_bind] using this

end SchemaView

def Context.wrap : Context → List Selection → List Selection
  | .plain, fields => fields
  | .inline type, fields => [.inline type fields]
  | .spread fragment _, _ => [.spread fragment]

structure Query where
  view : SchemaView
  spec : Spec

namespace Query

variable (query : Query)

def resolve? (chain : Chain) : Option ResolvedField := do
  let root ← query.view.queryRoot?
  query.view.follow? root chain

def isComposite (chain : Chain) : Bool :=
  (query.resolve? chain).any fun field => field.composite?.isSome

def inputs (chain : Chain) : List InputDefinition :=
  (query.resolve? chain).elim [] fun field => Plan.argumentsInOrder field.definition

def argumentAt (chain : Chain) (input : InputDefinition) : Path :=
  (Path.ofSelection chain).argumentPath input.name

def explicit? (argument : Path) (type : TypeRef) : Option Value := do
  let literal ← query.spec.defaultFor? argument
  (literal.toValue query.view (some type)).toOption

/-- The first of: the variable, the explicit value, the schema's default, an empty list, null. -/
def value? (chain : Chain) (input : InputDefinition) : Option Value :=
  let argument := argumentAt chain input
  (query.spec.variableFor? argument).map Value.var
    <|> query.explicit? argument input.type
    <|> input.default?
    <|> (if input.type.isList then some (.list []) else none)
    <|> (if input.type.isRequired then none else some .null)

/-- The value passed for an argument. Null stands for a missing one; no compiled query has any. -/
def passed (chain : Chain) (input : InputDefinition) : Value :=
  (query.value? chain input).getD .null

def arguments (chain : Chain) : List (Name × Value) :=
  (query.inputs chain).map fun input => (input.name, query.passed chain input)

def declaration? (chain : Chain) (input : InputDefinition) : Option Declaration :=
  let argument := argumentAt chain input
  (query.spec.variableFor? argument).map fun name =>
    (argument, ⟨name, input.type, query.explicit? argument input.type⟩)

def declarations (chain : Chain) : List Declaration :=
  (query.inputs chain).filterMap (query.declaration? chain)

def node (chain : Chain) (below : List Selection) : Selection :=
  chain.getLast?.elim .typename fun segment =>
    .field segment.alias? segment.field (query.arguments chain)
      (Plan.orTypename (query.isComposite chain) below)

def joined (nodes : List (Context × Selection)) : List Selection :=
  (runsBy Prod.fst nodes).flatMap fun run => run.1.wrap (run.2.map Prod.snd)

def selections (parent : Chain) : List Selection :=
  joined ((query.spec.children parent).attach.map fun child =>
    (Plan.contextOf child.1, query.node child.1 (selections child.1)))
termination_by query.spec.depth - parent.length
decreasing_by exact Spec.depth_sub_lt child.2

def field (chain : Chain) : Selection := query.node chain (query.selections chain)

def groups (parent : Chain) : List (Context × List Chain) :=
  runsBy Plan.contextOf (query.spec.children parent)

def definition? : Context × List Chain → Option FragmentDefinition
  | (.spread fragment type, chains) => some ⟨fragment, type, chains.map query.field⟩
  | _ => none

def definitions (parent : Chain) : List FragmentDefinition :=
  (query.groups parent).filterMap query.definition?

theorem selections_eq (parent : Chain) :
    query.selections parent =
      (query.groups parent).flatMap fun group => group.1.wrap (group.2.map query.field) := by
  have unfolded : query.selections parent = joined ((query.spec.children parent).map fun child =>
      (Plan.contextOf child, query.field child)) := by
    rw [selections]
    simp only [List.map_attach_eq_pmap, List.pmap_eq_map, field]
  rw [unfolded, joined, groups, runsBy_map, List.flatMap_map]
  simp only [List.map_map]
  rfl

variable {query}

theorem flatMap_groups (query : Query) (parent : Chain) :
    (query.groups parent).flatMap Prod.snd = query.spec.children parent :=
  flatMap_runsBy _ _

theorem selections_eq_nil {parent : Chain} (none : query.spec.children parent = []) :
    query.selections parent = [] := by
  rw [selections_eq, groups, none]
  rfl

theorem mem_groups {parent : Chain} {context : Context} {chains : List Chain} :
    (context, chains) ∈ query.groups parent ↔
      chains = (query.spec.children parent).filter (fun chain => Plan.contextOf chain = context) ∧
        chains ≠ [] := by
  have siblings : ∀ chain ∈ query.spec.children parent, Plan.parentOf? chain = some parent :=
    fun chain child => Plan.parentOf?_eq_some.mpr (Spec.mem_children.mp child).2
  exact mem_runsBy_iff (Plan.contexts_ascend (Spec.children_sorted parent) siblings) context chains

theorem mem_of_mem_group {parent : Chain} {group : Context × List Chain}
    (member : group ∈ query.groups parent) {chain : Chain} (inside : chain ∈ group.2) :
    chain ∈ query.spec.children parent ∧ Plan.contextOf chain = group.1 :=
  ⟨mem_of_mem_run member inside, key_of_mem_run member inside⟩

theorem wrap_ne_nil {context : Context} {fields : List Selection} (some : fields ≠ []) :
    context.wrap fields ≠ [] := by
  cases context with
  | plain => exact some
  | inline type => exact List.cons_ne_nil _ _
  | spread fragment type => exact List.cons_ne_nil _ _

theorem selections_ne_nil {parent : Chain} (some : query.spec.children parent ≠ []) :
    query.selections parent ≠ [] := by
  obtain ⟨child, inside⟩ := List.exists_mem_of_ne_nil _ some
  rw [← flatMap_groups] at inside
  obtain ⟨group, member, inside⟩ := List.mem_flatMap.mp inside
  have wrapped : group.1.wrap (group.2.map query.field) ≠ [] :=
    wrap_ne_nil (List.ne_nil_of_mem (List.mem_map_of_mem inside))
  obtain ⟨selection, found⟩ := List.exists_mem_of_ne_nil _ wrapped
  rw [selections_eq]
  exact List.ne_nil_of_mem (List.mem_flatMap.mpr ⟨group, member, found⟩)

theorem field_eq {chain : Chain} (proper : chain ≠ []) :
    query.field chain = .field (chain.getLast proper).alias? (chain.getLast proper).field
      (query.arguments chain)
      (Plan.orTypename (query.isComposite chain) (query.selections chain)) := by
  rw [field, node, List.getLast?_eq_some_getLast proper, Option.elim_some]

theorem resolve?_concat {parent : Chain} (proper : parent ≠ []) (segment : Segment) :
    query.resolve? (parent ++ [segment]) = (do
      let field ← query.resolve? parent
      let inner ← field.composite?
      query.view.enter? inner segment) := by
  simp only [resolve?, query.view.follow?_concat _ proper, Option.bind_eq_bind, Option.bind_assoc]

end Query

end PathQuery
