import PathQuery.Proofs.Levels
import PathQuery.Proofs.Outcome
import PathQuery.Proofs.Query.Conditions

namespace PathQuery

open Std

namespace Resolution

variable {query : Query} {resolution : Resolution} {root : Name} {done : List Chain}

/-- The resolution has the selections seen so far, each of which stands for a field. -/
structure Reads (query : Query) (done : List Chain) (resolution : Resolution) : Prop where
  found : ∀ chain : Chain, resolution[chain]? = if chain ∈ done then query.resolve? chain else none
  resolved : ∀ chain ∈ done, (query.resolve? chain).isSome = true

theorem reads_empty (query : Query) : Reads query [] ∅ where
  found chain := by simp
  resolved chain absent := by cases absent

theorem Reads.insert (reads : Reads query done resolution) {chain : Chain} {field : ResolvedField}
    (found : query.resolve? chain = some field) :
    Reads query (done ++ [chain]) (resolution.insert chain field) where
  found other := by
    rw [ExtTreeMap.getElem?_insert, reads.found]
    by_cases same : chain = other
    · subst same
      simp [found]
    · simp [same, Ne.symm same]
  resolved other member := by
    rcases List.mem_append.mp member with earlier | last
    · exact reads.resolved other earlier
    · rw [List.mem_singleton.mp last, found]
      rfl

theorem Reads.meets_parentType (reads : Reads query done resolution)
    (rooted : query.view.queryRoot? = some root) {parent : Chain} {segment : Segment}
    (ready : parent = [] ∨ parent ∈ done) :
    Meets
      (fun error => ∃ type, error = .unresolvedField (parent ++ [segment]) type segment.field ∧
        query.typeAbove? (parent ++ [segment]) = some type ∧
        query.resolve? (parent ++ [segment]) = none)
      (fun type => query.typeAbove? (parent ++ [segment]) = some type ∧
        query.resolve? (parent ++ [segment]) = query.view.enter? type segment)
      (parentType root resolution (parent ++ [segment]) segment) := by
  unfold parentType Query.typeAbove?
  simp only [List.dropLast_concat, List.isEmpty_iff]
  by_cases top : parent = []
  · subst top
    rw [if_pos rfl, if_pos rfl]
    refine ⟨rooted, ?_⟩
    simp [Query.resolve?, rooted, SchemaView.follow?]
  · rw [if_neg top, if_neg top]
    have member := ready.resolve_left top
    obtain ⟨field, resolves⟩ := Option.isSome_iff_exists.mp (reads.resolved parent member)
    rw [reads.found, if_pos member, resolves]
    cases inner : field.composite? with
    | none =>
      simp only [inner]
      refine ⟨_, rfl, by simp [inner], ?_⟩
      simp [Query.resolve?_concat top, resolves, inner]
    | some type =>
      simp only [inner]
      refine ⟨by simp [inner], ?_⟩
      simp [Query.resolve?_concat top, resolves, inner]

theorem Reads.meets_addSelection (reads : Reads query done resolution)
    (rooted : query.view.queryRoot? = some root) (level : Nat) {parent : Chain} {segment : Segment}
    (ready : parent = [] ∨ parent ∈ done) :
    Meets
      (fun error => ∃ type, error = .unresolvedField (parent ++ [segment]) type segment.field ∧
        query.typeAbove? (parent ++ [segment]) = some type ∧
        query.resolve? (parent ++ [segment]) = none)
      (Reads query (done ++ [parent ++ [segment]]))
      (addSelection query.view root level resolution (parent ++ [segment])) := by
  simp only [addSelection, List.getLast?_concat]
  refine (reads.meets_parentType rooted ready).bind fun type ⟨above, resolves⟩ => ?_
  cases selected : query.view.select? type segment with
  | none =>
    rw [SchemaView.enter?, selected, Option.map_none] at resolves
    exact ⟨type, rfl, above, resolves⟩
  | some definition =>
    rw [SchemaView.enter?, selected, Option.map_some] at resolves
    exact reads.insert resolves

theorem parent_mem_done {levels : Levels} (holds : levels.Holds (· ∈ query.spec.closure))
    {chain : Chain} {rest : List Chain} (order : levels.inOrder = done ++ chain :: rest) :
    chain.dropLast = [] ∨ chain.dropLast ∈ done := by
  apply (em (chain.dropLast = [])).imp_right
  intro proper
  have selected : chain ∈ query.spec.closure := holds.mem_inOrder.mp (by simp [order])
  have shorter : chain.dropLast.length < chain.length := by
    have := List.length_pos_iff.mpr (Spec.ne_nil_of_mem_closure selected)
    rw [List.length_dropLast]
    omega
  refine holds.mem_done order (Spec.closure_upward selected (List.dropLast_prefix _) proper) ?_ ?_
  · intro either
    rcases either with deeper | ⟨same, -⟩ <;> omega
  · intro same
    rw [same] at shorter
    omega

theorem Reads.meets_next {levels : Levels} (holds : levels.Holds (· ∈ query.spec.closure))
    (rooted : query.view.queryRoot? = some root) (reads : Reads query done resolution)
    (level : Nat) {chain : Chain} {rest : List Chain}
    (order : levels.inOrder = done ++ chain :: rest) :
    Meets query.LacksField (Reads query (done ++ [chain]))
      (addSelection query.view root level resolution chain) := by
  have ready := parent_mem_done holds order
  have selected : chain ∈ query.spec.closure := holds.mem_inOrder.mp (by simp [order])
  obtain ⟨child, segment, split⟩ := Spec.mem_children.mp (Spec.mem_children_dropLast selected)
  generalize chain.dropLast = parent at split ready
  subst split
  refine (reads.meets_addSelection rooted level ready).weaken ?_ fun _ reads => reads
  intro _ fault
  obtain ⟨type, rfl, above, missing⟩ := fault
  refine ⟨_, type, segment.field, rfl, selected, missing, ?_, above, by simp⟩
  intro other selected unresolved different
  by_contra before
  have := reads.resolved other (holds.mem_done order selected before different)
  rw [unresolved] at this
  cases this

theorem Reads.meets_addSelections {levels : Levels}
    (holds : levels.Holds (· ∈ query.spec.closure)) (rooted : query.view.queryRoot? = some root)
    (reads : Reads query done resolution) (level : Nat) {chains rest : List Chain}
    (order : levels.inOrder = done ++ (chains ++ rest)) :
    Meets query.LacksField (Reads query (done ++ chains))
      (chains.foldlM (addSelection query.view root level) resolution) := by
  refine Meets.foldlM (fun seen => Reads query (done ++ seen)) (by rwa [List.append_nil]) ?_
  intro seen chain later resolution split reads
  have order : levels.inOrder = (done ++ seen) ++ chain :: (later ++ rest) := by
    simp [order, split]
  have next := reads.meets_next holds rooted level order
  rwa [List.append_assoc] at next

theorem meets_addLevels {levels : Levels} (holds : levels.Holds (· ∈ query.spec.closure))
    (rooted : query.view.queryRoot? = some root) {seen rest : List (Nat × ChainSet)}
    (split : levels.ascending = seen ++ rest) :
    Meets query.LacksField (Reads query (Levels.chainsOf seen))
      (seen.foldlM (addLevel query.view root) ∅) := by
  refine Meets.foldlM (fun seen => Reads query (Levels.chainsOf seen)) (reads_empty query) ?_
  intro before level after resolution splitSeen reads
  obtain ⟨level, chains⟩ := level
  have order : levels.inOrder = Levels.chainsOf before ++
      (chains.toList ++ (Levels.chainsOf after ++ Levels.chainsOf rest)) := by
    simp [Levels.inOrder, Levels.chainsOf, split, splitSeen]
  rw [Levels.chainsOf_concat]
  exact reads.meets_addSelections holds rooted level order

end Resolution

end PathQuery
