import PathQuery.Proofs.Compile
import PathQuery.Proofs.Query.Below

namespace PathQuery

open Std

/-- The fields met in selections that stand below a parent in a context, in order. -/
inductive Visits (fragments : List FragmentDefinition) :
    Chain → Context → List Selection → List Chain → Prop where
  | done {parent : Chain} {context : Context} : Visits fragments parent context [] []
  | field {parent : Chain} {context : Context} {alias? : Option Name} {name : Name}
      {arguments : List (Name × Value)} {selections rest : List Selection}
      {inner later : List Chain}
      (below : Visits fragments (parent ++ [⟨context, name, alias?⟩]) .plain selections inner)
      (after : Visits fragments parent context rest later) :
      Visits fragments parent context (.field alias? name arguments selections :: rest)
        ((parent ++ [⟨context, name, alias?⟩]) :: inner ++ later)
  | inline {parent : Chain} {context : Context} {type : Name} {selections rest : List Selection}
      {inner later : List Chain}
      (inside : Visits fragments parent (.inline type) selections inner)
      (after : Visits fragments parent context rest later) :
      Visits fragments parent context (.inline type selections :: rest) (inner ++ later)
  | spread {parent : Chain} {context : Context} {fragment : Name} {rest : List Selection}
      {definition : FragmentDefinition} {inner later : List Chain}
      (known : fragments.find? (fun definition => definition.name = fragment) = some definition)
      (inside : Visits fragments parent (.spread fragment definition.type) definition.selections
        inner)
      (after : Visits fragments parent context rest later) :
      Visits fragments parent context (.spread fragment :: rest) (inner ++ later)

def Document.Visits (document : Document) (visited : List Chain) : Prop :=
  PathQuery.Visits document.fragmentDefinitions [] .plain document.selections visited

namespace Visits

variable {fragments : List FragmentDefinition} {parent : Chain} {context : Context}
  {selections rest : List Selection} {visited others : List Chain}

theorem unique (one : Visits fragments parent context selections visited)
    (other : Visits fragments parent context selections others) : visited = others := by
  induction one generalizing others with
  | done =>
    cases other
    rfl
  | field below after ihBelow ihAfter =>
    cases other with
    | field below' after' => rw [ihBelow below', ihAfter after']
  | inline inside after ihInside ihAfter =>
    cases other with
    | inline inside' after' => rw [ihInside inside', ihAfter after']
  | spread known inside after ihInside ihAfter =>
    cases other with
    | spread known' inside' after' =>
      rw [known] at known'
      cases known'
      rw [ihInside inside', ihAfter after']

theorem append (one : Visits fragments parent context selections visited)
    (other : Visits fragments parent context rest others) :
    Visits fragments parent context (selections ++ rest) (visited ++ others) := by
  induction one with
  | done => exact other
  | field below after ihBelow ihAfter =>
    rw [List.append_assoc]
    exact .field below (ihAfter other)
  | inline inside after ihInside ihAfter =>
    rw [List.append_assoc]
    exact .inline inside (ihAfter other)
  | spread known inside after ihInside ihAfter =>
    rw [List.append_assoc]
    exact .spread known inside (ihAfter other)

theorem flatMap {α : Type} {as : List α} {selected : α → List Selection} {met : α → List Chain}
    (each : ∀ a ∈ as, Visits fragments parent context (selected a) (met a)) :
    Visits fragments parent context (as.flatMap selected) (as.flatMap met) := by
  induction as with
  | nil => exact .done
  | cons a as ih =>
    rw [List.flatMap_cons, List.flatMap_cons]
    exact (each a (by simp)).append (ih fun a member => each a (List.mem_cons_of_mem _ member))

end Visits

namespace Query

variable {query : Query} {fragments : List FragmentDefinition} {parent : Chain}

theorem visits_field {child : Chain} (inside : child ∈ query.spec.children parent)
    (below : Visits fragments child .plain
      (Plan.orTypename (query.onComposite child) (query.selections child)) (query.below child)) :
    Visits fragments parent (Plan.contextOf child) [query.field child]
      (child :: query.below child) := by
  obtain ⟨-, segment, rfl⟩ := Spec.mem_children.mp inside
  have onComposite : query.onComposite (parent ++ [segment]) =
      query.isComposite (parent ++ [segment]) := by simp [onComposite]
  rw [onComposite] at below
  have met : Visits fragments parent segment.context
      [.field segment.alias? segment.field (query.arguments (parent ++ [segment]))
        (Plan.orTypename (query.isComposite (parent ++ [segment]))
          (query.selections (parent ++ [segment])))]
      ((parent ++ [segment]) :: query.below (parent ++ [segment]) ++ []) := .field below .done
  rw [List.append_nil] at met
  rw [Plan.contextOf_concat, field, node, List.getLast?_concat, Option.elim_some]
  exact met

theorem visits_group
    (known : ∀ definition ∈ query.definitions parent,
      fragments.find? (fun other => other.name = definition.name) = some definition)
    {group : Context × List Chain} (member : group ∈ query.groups parent)
    (below : ∀ child ∈ query.spec.children parent, Visits fragments child .plain
      (Plan.orTypename (query.onComposite child) (query.selections child)) (query.below child)) :
    Visits fragments parent .plain (group.1.wrap (group.2.map query.field))
      (group.2.flatMap fun child => child :: query.below child) := by
  have fields : Visits fragments parent group.1 (group.2.map query.field)
      (group.2.flatMap fun child => child :: query.below child) := by
    rw [List.map_eq_flatMap]
    apply Visits.flatMap
    intro child inside
    obtain ⟨child, context⟩ := mem_of_mem_group member inside
    exact context ▸ visits_field child (below _ child)
  obtain ⟨context, chains⟩ := group
  rw [← List.append_nil (chains.flatMap _)]
  cases context with
  | plain =>
    rw [List.append_nil]
    exact fields
  | inline type => exact .inline fields .done
  | spread fragment type =>
    have defines : ⟨fragment, type, chains.map query.field⟩ ∈ query.definitions parent :=
      List.mem_filterMap.mpr ⟨_, member, rfl⟩
    exact .spread (known _ defines) fields .done

theorem visits_selections
    (known : ∀ parent, ∀ definition ∈ query.definitions parent,
      fragments.find? (fun other => other.name = definition.name) = some definition)
    (parent : Chain) :
    Visits fragments parent .plain
      (Plan.orTypename (query.onComposite parent) (query.selections parent))
      (query.below parent) := by
  induction parent using Spec.upward_induction query.spec with
  | step parent ih =>
    rw [below_eq]
    by_cases bare : query.spec.children parent = []
    · rw [selections_eq_nil bare, bare, List.flatMap_nil, List.append_nil, standIn, bare]
      cases query.onComposite parent with
      | false => exact .done
      | true => exact .field .done .done
    · have kept : Plan.orTypename (query.onComposite parent) (query.selections parent) =
          query.selections parent := by simp [Plan.orTypename, selections_ne_nil bare]
      rw [standIn_eq_nil bare, List.nil_append, kept, selections_eq, ← flatMap_groups,
        List.flatMap_assoc]
      exact Visits.flatMap fun group member => visits_group (known parent) member ih

theorem Answers.find?_fragment {document : Document} (answers : query.Answers document)
    (definition : FragmentDefinition) (defined : definition ∈ query.definitions parent) :
    document.fragmentDefinitions.find? (fun other => other.name = definition.name) =
      some definition := by
  have member := (answers.mem_fragments definition).mpr ⟨parent, defined⟩
  cases found : document.fragmentDefinitions.find? (fun other => other.name = definition.name) with
  | none => simpa using List.find?_eq_none.mp found definition member
  | some other =>
    obtain ⟨parent', defined'⟩ := (answers.mem_fragments other).mp (List.mem_of_find?_eq_some found)
    have same : other.name = definition.name := by simpa using List.find?_some found
    rw [answers.compilable.consistent parent' parent other defined' definition defined same]

theorem Answers.visits {document : Document} (answers : query.Answers document) :
    document.Visits (query.below []) := by
  rw [Document.Visits, answers.selections]
  exact visits_selections (fun parent => answers.find?_fragment) []

theorem Answers.visits_iff {document : Document} (answers : query.Answers document)
    {others : List Chain} : document.Visits others ↔ others = query.below [] := by
  constructor
  · intro visits
    exact visits.unique answers.visits
  · intro same
    rw [same]
    exact answers.visits

end Query

/-- A reader of a compiled document meets the selections of the spec, with `__typename` where a
composite one has none below it, in path order and each once. -/
theorem compile_visits (query : Query) (document : Document)
    (compiled : compile query.view query.spec = .ok document) :
    ∃ visited, (∀ others, document.Visits others ↔ others = visited) ∧
      (visited.map Path.ofSelection).Pairwise (fun a b => compare a b = .lt) ∧
      ∀ chain, chain ∈ visited ↔ chain ∈ query.spec.closure ∨
        (query.spec.closure = ∅ ∧ chain = [.plain .typename]) ∨
        ∃ parent ∈ query.spec.closure, query.isComposite parent = true ∧
          query.spec.children parent = [] ∧ chain = parent ++ [.plain .typename] := by
  have answers := (meets_compile query).of_ok compiled
  refine ⟨query.below [], fun others => answers.visits_iff, ?_, ?_⟩
  · refine List.pairwise_map.mpr ((Query.below_sorted []).imp fun {a b} less => ?_)
    rw [compare_ofSelection]
    exact less
  · exact fun chain => Query.mem_below_root_iff

theorem compile_visits_friends :
    compile Sample.friends.view Sample.friends.spec = .ok Sample.friendsDocument ∧
    ∃ visited, (∀ others, Sample.friendsDocument.Visits others ↔ others = visited) ∧
      (visited.map Path.ofSelection).Pairwise (fun a b => compare a b = .lt) ∧
      ∀ chain, chain ∈ visited ↔ chain ∈ Sample.friends.spec.closure ∨
        (Sample.friends.spec.closure = ∅ ∧ chain = [.plain .typename]) ∨
        ∃ parent ∈ Sample.friends.spec.closure, Sample.friends.isComposite parent = true ∧
          Sample.friends.spec.children parent = [] ∧ chain = parent ++ [.plain .typename] :=
  ⟨Sample.compile_friends,
    compile_visits Sample.friends Sample.friendsDocument Sample.compile_friends⟩

end PathQuery
