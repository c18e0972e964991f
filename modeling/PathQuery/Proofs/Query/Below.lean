import PathQuery.Proofs.Query.Basic

namespace PathQuery

open Std

namespace Query

variable (query : Query)

def onComposite (parent : Chain) : Bool := parent.isEmpty || query.isComposite parent

def standIn (parent : Chain) : List Chain :=
  if (query.spec.children parent).isEmpty && query.onComposite parent then
    [parent ++ [.plain .typename]]
  else []

def below (parent : Chain) : List Chain :=
  query.standIn parent ++
    (query.spec.children parent).attach.flatMap fun child => child.1 :: below child.1
termination_by query.spec.depth - parent.length
decreasing_by exact Spec.depth_sub_lt child.2

theorem below_eq (parent : Chain) :
    query.below parent = query.standIn parent ++
      (query.spec.children parent).flatMap fun child => child :: query.below child := by
  rw [below]
  simp only [List.flatMap_def, List.map_attach_eq_pmap, List.pmap_eq_map]

variable {query}

theorem mem_standIn {parent chain : Chain} :
    chain ∈ query.standIn parent ↔ query.spec.children parent = [] ∧
      query.onComposite parent = true ∧ chain = parent ++ [.plain .typename] := by
  unfold standIn
  split
  · next bare => simp_all
  · next kept => simp_all

theorem standIn_eq_nil {parent : Chain} (some : query.spec.children parent ≠ []) :
    query.standIn parent = [] := by
  apply List.eq_nil_iff_forall_not_mem.mpr
  intro chain member
  exact some (mem_standIn.mp member).1

theorem mem_below {parent chain : Chain} :
    chain ∈ query.below parent ↔ chain ∈ query.standIn parent ∨
      ∃ child ∈ query.spec.children parent, chain = child ∨ chain ∈ query.below child := by
  rw [below_eq, List.mem_append, List.mem_flatMap]
  simp only [List.mem_cons]

theorem child_mem_below {parent child : Chain} (inside : child ∈ query.spec.children parent) :
    child ∈ query.below parent :=
  mem_below.mpr (.inr ⟨child, inside, .inl rfl⟩)

theorem exists_append_of_mem_below {parent chain : Chain} (member : chain ∈ query.below parent) :
    ∃ rest, rest ≠ [] ∧ chain = parent ++ rest := by
  induction parent using Spec.upward_induction query.spec with
  | step parent ih =>
    rcases mem_below.mp member with standsIn | ⟨child, inside, met⟩
    · exact ⟨_, List.cons_ne_nil _ _, (mem_standIn.mp standsIn).2.2⟩
    · obtain ⟨-, segment, same⟩ := Spec.mem_children.mp inside
      rcases met with rfl | member
      · exact ⟨_, List.cons_ne_nil _ _, same⟩
      · obtain ⟨rest, -, rfl⟩ := ih child inside member
        exact ⟨segment :: rest, List.cons_ne_nil _ _, by rw [same, List.append_assoc]; rfl⟩

theorem exists_append_of_mem_cons_below {child chain : Chain}
    (member : chain ∈ child :: query.below child) : ∃ rest, chain = child ++ rest := by
  rcases List.mem_cons.mp member with rfl | below
  · exact ⟨[], (List.append_nil _).symm⟩
  · obtain ⟨rest, -, same⟩ := exists_append_of_mem_below below
    exact ⟨rest, same⟩

theorem below_sorted (parent : Chain) :
    (query.below parent).Pairwise fun a b => compare a b = .lt := by
  induction parent using Spec.upward_induction query.spec with
  | step parent ih =>
    have each : ∀ child ∈ query.spec.children parent,
        (child :: query.below child).Pairwise fun a b => compare a b = .lt := by
      refine fun child inside => List.pairwise_cons.mpr ⟨fun chain member => ?_, ih child inside⟩
      obtain ⟨rest, more, rfl⟩ := exists_append_of_mem_below member
      exact compare_append_self_lt child more
    have families : ((query.spec.children parent).flatMap fun child =>
        child :: query.below child).Pairwise fun a b => compare a b = .lt := by
      refine List.pairwise_flatMap.mpr ⟨each, ?_⟩
      apply (Spec.children_sorted parent).imp_of_mem
      intro a b left right less
      have level : a.length = b.length :=
        (Spec.length_of_mem_children left).trans (Spec.length_of_mem_children right).symm
      intro chain met chain' met'
      obtain ⟨rest, rfl⟩ := exists_append_of_mem_cons_below met
      obtain ⟨rest', rfl⟩ := exists_append_of_mem_cons_below met'
      exact compare_append_of_lt level less rest rest'
    rw [below_eq]
    by_cases bare : query.spec.children parent = []
    · rw [bare, List.flatMap_nil, List.append_nil, standIn]
      split
      · exact List.pairwise_singleton _ _
      · exact .nil
    · rw [standIn_eq_nil bare, List.nil_append]
      exact families

theorem below_subset {parent chain : Chain} (member : chain ∈ query.below parent)
    (selected : chain ∈ query.spec.closure) : query.below chain ⊆ query.below parent := by
  induction parent using Spec.upward_induction query.spec with
  | step parent ih =>
    intro other inside
    rcases mem_below.mp member with standsIn | ⟨child, family, met⟩
    · obtain ⟨bare, -, same⟩ := mem_standIn.mp standsIn
      have child := Spec.mem_children.mpr ⟨selected, _, same⟩
      rw [bare] at child
      cases child
    · refine mem_below.mpr (.inr ⟨child, family, .inr ?_⟩)
      rcases met with rfl | member
      · exact inside
      · exact ih child family member inside

theorem mem_below_root {chain : Chain} (selected : chain ∈ query.spec.closure) :
    chain ∈ query.below [] := by
  induction chain using List.reverseRecOn with
  | nil => exact absurd rfl (Spec.ne_nil_of_mem_closure selected)
  | append_singleton parent segment ih =>
    have child : parent ++ [segment] ∈ query.spec.children parent :=
      Spec.mem_children.mpr ⟨selected, segment, rfl⟩
    by_cases top : parent = []
    · subst top
      exact child_mem_below child
    · have above := Spec.parent_mem_closure child top
      exact below_subset (ih above) above (child_mem_below child)

theorem of_mem_below {parent chain : Chain} (member : chain ∈ query.below parent) :
    chain ∈ query.spec.closure ∨
      ∃ above, (above = parent ∨ above ∈ query.spec.closure) ∧ chain ∈ query.standIn above := by
  induction parent using Spec.upward_induction query.spec with
  | step parent ih =>
    rcases mem_below.mp member with standsIn | ⟨child, family, met⟩
    · exact .inr ⟨parent, .inl rfl, standsIn⟩
    · have selected := Spec.mem_closure_of_mem_children family
      rcases met with rfl | member
      · exact .inl selected
      · refine (ih child family member).imp_right ?_
        intro found
        rcases found with ⟨above, rfl | deeper, standsIn⟩
        · exact ⟨above, .inr selected, standsIn⟩
        · exact ⟨above, .inr deeper, standsIn⟩

/-- What is met below the root: the selections, and a stand-in for each that lacks its own. -/
theorem mem_below_root_iff {chain : Chain} :
    chain ∈ query.below [] ↔ chain ∈ query.spec.closure ∨
      (query.spec.closure = ∅ ∧ chain = [.plain .typename]) ∨
      ∃ parent ∈ query.spec.closure, query.isComposite parent = true ∧
        query.spec.children parent = [] ∧ chain = parent ++ [.plain .typename] := by
  constructor
  · intro member
    refine (of_mem_below member).imp_right ?_
    intro found
    rcases found with ⟨above, rfl | selected, standsIn⟩
    · obtain ⟨bare, -, same⟩ := mem_standIn.mp standsIn
      exact .inl ⟨Spec.children_root_eq_nil_iff.mp bare, same⟩
    · obtain ⟨bare, composite, same⟩ := mem_standIn.mp standsIn
      have proper := Spec.ne_nil_of_mem_closure selected
      exact .inr ⟨above, selected, by simpa [onComposite, proper] using composite, bare, same⟩
  · intro either
    rcases either with selected | ⟨none, rfl⟩ | ⟨parent, selected, composite, bare, rfl⟩
    · exact mem_below_root selected
    · have bare := Spec.children_root_eq_nil_iff.mpr none
      exact mem_below.mpr (.inl (mem_standIn.mpr ⟨bare, rfl, rfl⟩))
    · refine below_subset (mem_below_root selected) selected (mem_below.mpr (.inl ?_))
      exact mem_standIn.mpr ⟨bare, by simp [onComposite, composite], rfl⟩

end Query

end PathQuery
