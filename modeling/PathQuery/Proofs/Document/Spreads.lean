import PathQuery.Proofs.Compile
import PathQuery.Proofs.Document.Nested
import Mathlib.Logic.Relation
import Mathlib.Order.WellFounded

namespace PathQuery

open Selection (nestedIn)

namespace Document

variable (document : Document)

/-- The definition of the outer fragment has, at some depth, a spread of the inner one. -/
def Within (inner outer : Name) : Prop :=
  ∃ definition ∈ document.fragmentDefinitions, definition.name = outer ∧
    .spread inner ∈ nestedIn definition.selections

def Reaches (fragment : Name) : Prop :=
  ∃ start, .spread start ∈ nestedIn document.selections ∧
    Relation.ReflTransGen (fun outer inner => document.Within inner outer) start fragment

structure FragmentsWellFormed : Prop where
  sorted : document.fragmentDefinitions.Pairwise fun a b => compare a.name b.name = .lt
  known : ∀ fragment, .spread fragment ∈ document.nested →
    ∃ definition ∈ document.fragmentDefinitions, definition.name = fragment
  reached : ∀ definition ∈ document.fragmentDefinitions, document.Reaches definition.name
  acyclic : ∀ fragment, ¬ Relation.TransGen document.Within fragment fragment
  wellFounded : WellFounded document.Within

end Document

namespace Query

variable {query : Query} {parent : Chain} {fragment : Name} {definition : FragmentDefinition}

theorem spread_mem_nested_field {chain : Chain} (selected : chain ∈ query.spec.closure)
    (occurs : .spread fragment ∈ (query.field chain).nested) :
    .spread fragment ∈ nestedIn (query.selections chain) := by
  have proper := Spec.ne_nil_of_mem_closure selected
  rcases mem_nested_field proper occurs with own | standIn | below
  · rw [field_eq proper] at own
    cases own
  · cases standIn
  · exact below

theorem children_ne_nil (defined : definition ∈ query.definitions parent) :
    query.spec.children parent ≠ [] := by
  intro none
  rw [definitions, groups, none] at defined
  cases defined

theorem exists_definition_of_spread
    (occurs : .spread fragment ∈ nestedIn (query.selections parent)) :
    ∃ above : Chain, parent.length ≤ above.length ∧
      ∃ definition ∈ query.definitions above, definition.name = fragment := by
  induction parent using Spec.upward_induction query.spec with
  | step parent ih =>
    obtain ⟨⟨context, chains⟩, member, ⟨wrapped, own⟩ | ⟨-, child, inside, occurs⟩⟩ :=
      mem_nestedIn_selections.mp occurs
    · cases context with
      | plain => exact absurd rfl wrapped
      | inline type => cases List.mem_singleton.mp own
      | spread other type =>
        cases List.mem_singleton.mp own
        exact ⟨parent, le_rfl, ⟨fragment, type, chains.map query.field⟩,
          mem_definitions.mpr ⟨chains, member, rfl⟩, rfl⟩
    · have family := (mem_of_mem_group member inside).1
      have below := spread_mem_nested_field (Spec.mem_closure_of_mem_children family) occurs
      obtain ⟨above, deeper, defined⟩ := ih child family below
      rw [Spec.length_of_mem_children family] at deeper
      exact ⟨above, by omega, defined⟩

theorem exists_definition_of_inner (defined : definition ∈ query.definitions parent)
    (occurs : .spread fragment ∈ nestedIn definition.selections) :
    ∃ above : Chain, parent.length < above.length ∧
      ∃ inner ∈ query.definitions above, inner.name = fragment := by
  obtain ⟨child, family, occurs⟩ := exists_child_of_mem_definition defined occurs
  have below := spread_mem_nested_field (Spec.mem_closure_of_mem_children family) occurs
  obtain ⟨above, deeper, inner⟩ := exists_definition_of_spread below
  rw [Spec.length_of_mem_children family] at deeper
  exact ⟨above, by omega, inner⟩

theorem spread_mem_nestedIn_selections (defined : definition ∈ query.definitions parent) :
    .spread definition.name ∈ nestedIn (query.selections parent) := by
  obtain ⟨chains, member, -⟩ := mem_definitions.mp defined
  refine mem_nestedIn_selections.mpr ⟨_, member, .inl ⟨?_, List.mem_singleton_self _⟩⟩
  exact Context.noConfusion

namespace Answers

variable {document : Document} (answers : query.Answers document)

include answers

theorem acc_within (parent : Chain) (definition : FragmentDefinition)
    (defined : definition ∈ query.definitions parent) : Acc document.Within definition.name := by
  refine ⟨_, fun fragment within => ?_⟩
  obtain ⟨other, member, same, occurs⟩ := within
  obtain ⟨elsewhere, defined'⟩ := (answers.mem_fragments other).mp member
  -- All definitions of one fragment are the same, so the one at this parent has the spread too.
  have := answers.compilable.consistent elsewhere parent other defined' definition defined same
  subst this
  obtain ⟨above, deeper, inner, defined', rfl⟩ := exists_definition_of_inner defined occurs
  exact acc_within above inner defined'
termination_by query.spec.depth - parent.length
decreasing_by
  obtain ⟨child, inside⟩ := List.exists_mem_of_ne_nil _ (children_ne_nil defined)
  have := Spec.depth_sub_lt inside
  omega

theorem within_wellFounded : WellFounded document.Within := by
  refine ⟨fun fragment => ⟨_, fun inner within => ?_⟩⟩
  obtain ⟨definition, member, rfl, occurs⟩ := within
  obtain ⟨parent, defined⟩ := (answers.mem_fragments definition).mp member
  exact (answers.acc_within parent definition defined).inv ⟨definition, member, rfl, occurs⟩

theorem reaches_of_spread {parent : Chain} (tree : parent = [] ∨ parent ∈ query.spec.closure)
    (occurs : .spread fragment ∈ nestedIn (query.selections parent)) :
    document.Reaches fragment := by
  suffices every : ∀ fragment, .spread fragment ∈ nestedIn (query.selections parent) →
      document.Reaches fragment from every fragment occurs
  refine Spec.downward_induction ?_ ?_ parent tree
  · intro fragment occurs
    refine ⟨fragment, ?_, .refl⟩
    rw [answers.selections]
    exact Selection.subset_nestedIn_orTypename _ _ occurs
  · intro parent child family ih fragment occurs
    have selected := Spec.mem_closure_of_mem_children family
    have occurs := subset_nested_field (Spec.ne_nil_of_mem_closure selected) occurs
    rcases nested_field_subset family with kept | ⟨definition, defined, -, moved⟩
    · exact ih fragment (kept occurs)
    · obtain ⟨start, first, path⟩ := ih _ (spread_mem_nestedIn_selections defined)
      refine ⟨start, first, path.tail ?_⟩
      exact ⟨definition, (answers.mem_fragments definition).mpr ⟨parent, defined⟩, rfl,
        moved occurs⟩

theorem definition_of_spread {parent : Chain}
    (occurs : .spread fragment ∈ nestedIn (query.selections parent)) :
    ∃ definition ∈ document.fragmentDefinitions, definition.name = fragment := by
  obtain ⟨above, -, definition, defined, rfl⟩ := exists_definition_of_spread occurs
  exact ⟨definition, (answers.mem_fragments definition).mpr ⟨above, defined⟩, rfl⟩

theorem fragmentsWellFormed : document.FragmentsWellFormed where
  sorted := answers.fragments_sorted
  known fragment occurs := by
    rcases List.mem_append.mp occurs with operation | fragments
    · rw [answers.selections] at operation
      rcases List.mem_cons.mp (Selection.nestedIn_orTypename_subset _ _ operation) with
        standIn | below
      · cases standIn
      · exact answers.definition_of_spread below
    · obtain ⟨definition, member, occurs⟩ := List.mem_flatMap.mp fragments
      obtain ⟨parent, defined⟩ := (answers.mem_fragments definition).mp member
      obtain ⟨above, -, inner, defined', rfl⟩ := exists_definition_of_inner defined occurs
      exact ⟨inner, (answers.mem_fragments inner).mpr ⟨above, defined'⟩, rfl⟩
  reached definition member := by
    obtain ⟨parent, defined⟩ := (answers.mem_fragments definition).mp member
    obtain ⟨child, inside⟩ := List.exists_mem_of_ne_nil _ (children_ne_nil defined)
    refine answers.reaches_of_spread ?_ (spread_mem_nestedIn_selections defined)
    exact (em (parent = [])).imp_right (Spec.parent_mem_closure inside)
  acyclic fragment cycle := answers.within_wellFounded.transGen.asymmetric _ _ cycle cycle
  wellFounded := answers.within_wellFounded

end Answers

end Query

/-- The fragments of a compiled document are well formed, and wherever one is spread its definition
is what the parent's own children in that fragment come to. -/
theorem compile_fragmentsWellFormed (query : Query) (document : Document)
    (compiled : compile query.view query.spec = .ok document) :
    document.FragmentsWellFormed ∧
      ∀ (parent child : Chain) (fragment type : Name), child ∈ query.spec.children parent →
        Plan.contextOf child = .spread fragment type →
        ⟨fragment, type, ((query.spec.children parent).filter fun chain =>
          Plan.contextOf chain = .spread fragment type).map query.field⟩ ∈
          document.fragmentDefinitions := by
  have answers := (meets_compile query).of_ok compiled
  refine ⟨answers.fragmentsWellFormed, fun parent child fragment type inside context => ?_⟩
  have group : child ∈ (query.spec.children parent).filter fun chain =>
      Plan.contextOf chain = .spread fragment type :=
    List.mem_filter.mpr ⟨inside, decide_eq_true context⟩
  refine (answers.mem_fragments _).mpr ⟨parent, Query.mem_definitions.mpr ⟨_, ?_, rfl⟩⟩
  exact Query.mem_groups.mpr ⟨rfl, List.ne_nil_of_mem group⟩

theorem compile_fragmentsWellFormed_friends :
    compile Sample.friends.view Sample.friends.spec = .ok Sample.friendsDocument ∧
      Sample.friendsDocument.FragmentsWellFormed ∧
      ∀ (parent child : Chain) (fragment type : Name),
        child ∈ Sample.friends.spec.children parent →
        Plan.contextOf child = .spread fragment type →
        ⟨fragment, type, ((Sample.friends.spec.children parent).filter fun chain =>
          Plan.contextOf chain = .spread fragment type).map Sample.friends.field⟩ ∈
          Sample.friendsDocument.fragmentDefinitions :=
  ⟨Sample.compile_friends,
    compile_fragmentsWellFormed Sample.friends Sample.friendsDocument Sample.compile_friends⟩

end PathQuery
