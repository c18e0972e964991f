import PathQuery.Proofs.Document.Arguments
import PathQuery.Proofs.Document.Spreads
import PathQuery.Proofs.Literal.Canonical

namespace PathQuery

open Std

namespace Query

variable (query : Query)

def contexts (parent : Chain) : List Context :=
  ((query.spec.children parent).map Plan.contextOf).dedup

def siblings (parent : Chain) (context : Context) : List Chain :=
  (query.spec.children parent).filter fun child => Plan.contextOf child = context

theorem mem_siblings {query : Query} {parent child : Chain} {context : Context} :
    child ∈ query.siblings parent context ↔
      child ∈ query.spec.children parent ∧ Plan.contextOf child = context := by
  rw [siblings, List.mem_filter, decide_eq_true_eq]

/-- The selections below a parent: for each context of its children, their fields in it. -/
def build (parent : Chain) : List Selection :=
  (query.contexts parent).flatMap fun context =>
    context.wrap ((query.siblings parent context).attach.map fun child =>
      query.node child.1 (build child.1))
termination_by query.spec.depth - parent.length
decreasing_by exact Spec.depth_sub_lt (mem_siblings.mp child.2).1

def built (chain : Chain) : Selection := query.node chain (query.build chain)

def fragment? (parent : Chain) : Context → Option FragmentDefinition
  | .spread fragment type =>
    some ⟨fragment, type, (query.siblings parent (.spread fragment type)).map query.built⟩
  | .plain | .inline _ => none

def met (parent : Chain) : List FragmentDefinition :=
  (query.contexts parent).filterMap (query.fragment? parent) ++
    (query.spec.children parent).attach.flatMap fun child => met child.1
termination_by query.spec.depth - parent.length
decreasing_by exact Spec.depth_sub_lt child.2

theorem build_eq (parent : Chain) :
    query.build parent = (query.contexts parent).flatMap fun context =>
      context.wrap ((query.siblings parent context).map query.built) := by
  rw [build]
  simp only [List.map_attach_eq_pmap, List.pmap_eq_map]
  rfl

theorem met_eq (parent : Chain) :
    query.met parent = (query.contexts parent).filterMap (query.fragment? parent) ++
      (query.spec.children parent).flatMap query.met := by
  rw [met]
  simp only [List.flatMap_def, List.map_attach_eq_pmap, List.pmap_eq_map]

structure Builds (document : Document) : Prop where
  selections : document.selections = Plan.orTypename true (query.build [])
  fragments_sorted :
    document.fragmentDefinitions.Pairwise fun a b => compare a.name b.name = .lt
  mem_fragments : ∀ definition,
    definition ∈ document.fragmentDefinitions ↔ definition ∈ query.met []
  fieldAt_iff : ∀ chain ∈ query.spec.closure, ∀ field,
    document.FieldAt chain field ↔ field = query.built chain

/-- The other spec has the same selections from the chain down and says the same about their
arguments. -/
structure AlikeFrom (chain : Chain) (other : Spec) : Prop where
  selected : ∀ lower : Chain, chain <+: lower →
    (lower ∈ other.closure ↔ lower ∈ query.spec.closure)
  bound : ∀ lower ∈ query.spec.closure, chain <+: lower → ∀ input ∈ query.inputs lower,
    other.variableFor? (argumentAt lower input) = query.spec.variableFor? (argumentAt lower input)
  given : ∀ lower ∈ query.spec.closure, chain <+: lower → ∀ input ∈ query.inputs lower,
    (other.defaultFor? (argumentAt lower input)).map Literal.canonical =
      (query.spec.defaultFor? (argumentAt lower input)).map Literal.canonical

variable {query} {parent chain : Chain} {definition : FragmentDefinition}

theorem groups_eq (query : Query) (parent : Chain) :
    query.groups parent =
      (query.contexts parent).map fun context => (context, query.siblings parent context) := by
  have siblings : ∀ chain ∈ query.spec.children parent, Plan.parentOf? chain = some parent :=
    fun chain child => Plan.parentOf?_eq_some.mpr (Spec.mem_children.mp child).2
  exact runsBy_eq_map_dedup (Plan.contexts_ascend (Spec.children_sorted parent) siblings)

theorem build_eq_selections (query : Query) (parent : Chain) :
    query.build parent = query.selections parent := by
  induction parent using Spec.upward_induction query.spec with
  | step parent ih =>
    rw [build_eq, selections_eq, groups_eq, List.flatMap_map]
    refine List.flatMap_congr fun context _ => congrArg context.wrap ?_
    refine List.map_congr_left fun child inside => ?_
    rw [built, field, ih child (mem_siblings.mp inside).1]

theorem built_eq_field (query : Query) (chain : Chain) : query.built chain = query.field chain := by
  rw [built, field, build_eq_selections]

theorem fragment?_eq_definition? (query : Query) (parent : Chain) (context : Context) :
    query.fragment? parent context =
      query.definition? (context, query.siblings parent context) := by
  cases context with
  | plain => rfl
  | inline type => rfl
  | spread fragment type => rw [fragment?, definition?, funext (built_eq_field query)]

theorem mem_met : definition ∈ query.met parent ↔
    definition ∈ query.definitions parent ∨
      ∃ child ∈ query.spec.children parent, definition ∈ query.met child := by
  rw [met_eq, List.mem_append, List.mem_flatMap, definitions, groups_eq, List.filterMap_map,
    funext (fragment?_eq_definition? query parent)]
  rfl

theorem met_subset_root (tree : parent = [] ∨ parent ∈ query.spec.closure) :
    query.met parent ⊆ query.met [] := by
  refine Spec.downward_induction (List.Subset.refl _) ?_ parent tree
  intro parent child family ih definition inside
  exact ih (mem_met.mpr (.inr ⟨child, family, inside⟩))

theorem mem_met_root_iff :
    definition ∈ query.met [] ↔ ∃ parent, definition ∈ query.definitions parent := by
  constructor
  · generalize [] = parent
    intro inside
    induction parent using Spec.upward_induction query.spec with
    | step parent ih =>
      rcases mem_met.mp inside with here | ⟨child, family, deeper⟩
      · exact ⟨parent, here⟩
      · exact ih child family deeper
  · intro found
    obtain ⟨parent, defined⟩ := found
    obtain ⟨child, family⟩ := List.exists_mem_of_ne_nil _ (children_ne_nil defined)
    refine met_subset_root ?_ (mem_met.mpr (.inl defined))
    exact (em (parent = [])).imp_right (Spec.parent_mem_closure family)

theorem Answers.builds {document : Document} (answers : query.Answers document) :
    query.Builds document where
  selections := by rw [answers.selections, build_eq_selections]
  fragments_sorted := answers.fragments_sorted
  mem_fragments definition := (answers.mem_fragments definition).trans mem_met_root_iff.symm
  fieldAt_iff chain selected field := by rw [answers.fieldAt_iff selected, built_eq_field]

namespace AlikeFrom

variable {other : Spec} (alike : query.AlikeFrom chain other) {lower : Chain}

include alike

theorem children_eq (below : chain <+: lower) :
    Spec.children other lower = query.spec.children lower := by
  refine eq_of_keys_sorted (Spec.children_sorted lower) (Spec.children_sorted lower) ?_
  intro child
  rw [Spec.mem_children, Spec.mem_children]
  refine and_congr_left fun next => alike.selected child ?_
  obtain ⟨segment, rfl⟩ := next
  exact below.trans (List.prefix_append _ _)

theorem explicit?_eq (selected : lower ∈ query.spec.closure) (below : chain <+: lower)
    {input : InputDefinition} (declared : input ∈ query.inputs lower) :
    explicit? ⟨query.view, other⟩ (argumentAt lower input) input.type =
      query.explicit? (argumentAt lower input) input.type := by
  have given := Literal.map_toValue_eq (alike.given lower selected below input declared)
    query.view (some input.type)
  have converted := congrArg (Option.bind · Except.toOption) given
  rw [Option.bind_map, Option.bind_map] at converted
  exact converted

theorem passed_eq (selected : lower ∈ query.spec.closure) (below : chain <+: lower)
    {input : InputDefinition} (declared : input ∈ query.inputs lower) :
    passed ⟨query.view, other⟩ lower input = query.passed lower input := by
  have bound := alike.bound lower selected below input declared
  have explicit := alike.explicit?_eq selected below declared
  simp only [passed, value?, bound, explicit]

theorem node_eq (selected : lower ∈ query.spec.closure) (below : chain <+: lower)
    (selections : List Selection) :
    node ⟨query.view, other⟩ lower selections = query.node lower selections := by
  have arguments : Query.arguments ⟨query.view, other⟩ lower = query.arguments lower :=
    List.map_congr_left fun input declared => by rw [alike.passed_eq selected below declared]
  unfold node
  rw [arguments]
  rfl

theorem build_eq (below : chain <+: lower) :
    build ⟨query.view, other⟩ lower = query.build lower := by
  induction lower using Spec.upward_induction query.spec with
  | step parent ih =>
    have children := alike.children_eq below
    have siblings : Query.siblings ⟨query.view, other⟩ parent = query.siblings parent :=
      funext fun context =>
        congrArg (List.filter fun child => Plan.contextOf child = context) children
    have contexts : Query.contexts ⟨query.view, other⟩ parent = query.contexts parent :=
      congrArg (fun chains => (chains.map Plan.contextOf).dedup) children
    rw [Query.build_eq, Query.build_eq, siblings, contexts]
    refine List.flatMap_congr fun context _ => congrArg context.wrap ?_
    refine List.map_congr_left fun child inside => ?_
    have family := (mem_siblings.mp inside).1
    obtain ⟨selected, segment, rfl⟩ := Spec.mem_children.mp family
    have below := below.trans (List.prefix_append parent [segment])
    rw [built, built, ih _ family below, alike.node_eq selected below]

theorem built_eq (selected : chain ∈ query.spec.closure) :
    built ⟨query.view, other⟩ chain = query.built chain := by
  have whole := List.prefix_refl chain
  rw [built, built, alike.build_eq whole, alike.node_eq selected whole]

end AlikeFrom

theorem alikeFrom_select {path : Path} (elsewhere : ¬ chain <+: path.selection) :
    query.AlikeFrom chain { query.spec with fields := query.spec.fields.insert path } where
  selected lower below := by
    rw [Spec.mem_closure, Spec.mem_closure]
    refine and_congr_right fun _ => ⟨fun found => ?_, fun found => ?_⟩
    · obtain ⟨listed, member, selects, above⟩ := found
      rcases ExtTreeSet.mem_insert.mp member with same | member
      · obtain rfl := LawfulEqOrd.eq_of_compare same
        -- Whatever the path adds from the chain down would be above the path, and so the chain.
        exact absurd (below.trans above) elsewhere
      · exact ⟨listed, member, selects, above⟩
    · obtain ⟨listed, member, selects, above⟩ := found
      exact ⟨listed, ExtTreeSet.mem_insert.mpr (.inr member), selects, above⟩
  bound _ _ _ _ _ := rfl
  given _ _ _ _ _ := rfl

end Query

/-- A compiled document is what the recursion builds. Whatever else another spec selects or says,
the same selections from a chain down with the same words on their arguments give the same node. -/
theorem compile_builds (query : Query) (document : Document)
    (compiled : compile query.view query.spec = .ok document) :
    query.Builds document ∧
      ∀ chain ∈ query.spec.closure, ∀ other, query.AlikeFrom chain other →
        Query.built ⟨query.view, other⟩ chain = query.built chain ∧
        ∀ document', compile query.view other = .ok document' →
          ∀ field, document'.FieldAt chain field ↔ document.FieldAt chain field := by
  have builds := ((meets_compile query).of_ok compiled).builds
  refine ⟨builds, fun chain selected other alike => ?_⟩
  have same := alike.built_eq selected
  refine ⟨same, fun document' compiled' field => ?_⟩
  have builds' := ((meets_compile ⟨query.view, other⟩).of_ok compiled').builds
  have selected' := (alike.selected chain (List.prefix_refl _)).mpr selected
  rw [builds.fieldAt_iff chain selected, builds'.fieldAt_iff chain selected', same]

namespace Sample

def company : Spec :=
  { friends.spec with fields := friends.spec.fields.insert (.ofFields [.of "zoe"]) }

def companyDocument : Document := { friendsDocument with
  selections := friendsDocument.selections ++ [.field none (.of "zoe") [] [.typename]] }

theorem compile_company : compile friends.view company = .ok companyDocument := by
  decide +kernel

end Sample

theorem compile_builds_friends :
    let me : Chain := [.plain (.of "me")]
    compile Sample.friends.view Sample.friends.spec = .ok Sample.friendsDocument ∧
    Sample.friends.Builds Sample.friendsDocument ∧
    Query.built ⟨Sample.friends.view, Sample.company⟩ me = Sample.friends.built me ∧
    ∀ field, Sample.companyDocument.FieldAt me field ↔ Sample.friendsDocument.FieldAt me field := by
  intro me
  obtain ⟨builds, alike⟩ :=
    compile_builds Sample.friends Sample.friendsDocument Sample.compile_friends
  have elsewhere : ¬ me <+: (Path.ofFields [.of "zoe"]).selection := by decide
  obtain ⟨same, documents⟩ :=
    alike me (by decide +kernel) Sample.company (Query.alikeFrom_select elsewhere)
  exact ⟨Sample.compile_friends, builds, same, documents _ Sample.compile_company⟩

end PathQuery
