import PathQuery.Proofs.Path.ChainOrder
import PathQuery.Spec.Basic
import Mathlib.Data.List.Infix
import Mathlib.Data.List.Nodup

namespace PathQuery

open Std

namespace Spec

variable {spec : Spec}

/-- The listed selections and everything above them but the root. -/
def closure (spec : Spec) : ChainSet :=
  let listed := spec.fields.toList.filter Path.isSelection
  ExtTreeSet.ofList (listed.flatMap fun path => path.selection.inits.filter (· ≠ [])) compare

def children (spec : Spec) (parent : Chain) : List Chain :=
  spec.closure.toList.filter fun chain => Plan.parentOf? chain = some parent

def depth (spec : Spec) : Nat := (spec.closure.toList.map List.length).foldr max 0

theorem mem_closure {chain : Chain} :
    chain ∈ spec.closure ↔
      chain ≠ [] ∧ ∃ path ∈ spec.fields, path.isSelection = true ∧ chain <+: path.selection := by
  simp only [closure, ExtTreeSet.mem_ofList, List.contains_iff_mem, List.mem_flatMap,
    List.mem_filter, ExtTreeSet.mem_toList, List.mem_inits, decide_eq_true_eq]
  constructor
  · intro found
    obtain ⟨path, ⟨listed, selects⟩, above, proper⟩ := found
    exact ⟨proper, path, listed, selects, above⟩
  · intro found
    obtain ⟨proper, path, listed, selects, above⟩ := found
    exact ⟨path, ⟨listed, selects⟩, above, proper⟩

theorem ne_nil_of_mem_closure {chain : Chain} (member : chain ∈ spec.closure) : chain ≠ [] :=
  (mem_closure.mp member).1

theorem closure_upward {chain above : Chain} (member : chain ∈ spec.closure) (up : above <+: chain)
    (proper : above ≠ []) : above ∈ spec.closure := by
  obtain ⟨-, path, listed, selects, below⟩ := mem_closure.mp member
  exact mem_closure.mpr ⟨proper, path, listed, selects, up.trans below⟩

theorem closure_sorted : spec.closure.toList.Pairwise fun a b => compare a b = .lt :=
  ExtTreeSet.ordered_toList

theorem mem_children {parent chain : Chain} :
    chain ∈ spec.children parent ↔
      chain ∈ spec.closure ∧ ∃ segment, chain = parent ++ [segment] := by
  simp only [children, List.mem_filter, ExtTreeSet.mem_toList, decide_eq_true_eq,
    Plan.parentOf?_eq_some]

theorem mem_closure_of_mem_children {parent chain : Chain} (child : chain ∈ spec.children parent) :
    chain ∈ spec.closure :=
  (mem_children.mp child).1

theorem children_sorted (parent : Chain) :
    (spec.children parent).Pairwise fun a b => compare a b = .lt :=
  closure_sorted.filter _

theorem children_nodup (parent : Chain) : (spec.children parent).Nodup :=
  (children_sorted parent).imp fun less => ne_of_compare_eq_lt less

theorem flatMap_children_nodup (spec : Spec) {parents : List Chain} (distinct : parents.Nodup) :
    (parents.flatMap spec.children).Nodup := by
  refine List.nodup_flatMap.mpr ⟨fun parent _ => children_nodup parent, ?_⟩
  refine distinct.imp fun {a b} different chain one other => different ?_
  obtain ⟨-, segment, rfl⟩ := mem_children.mp one
  obtain ⟨-, segment', same⟩ := mem_children.mp other
  exact (List.append_inj' same rfl).1

theorem length_of_mem_children {parent chain : Chain} (child : chain ∈ spec.children parent) :
    chain.length = parent.length + 1 := by
  obtain ⟨-, segment, rfl⟩ := mem_children.mp child
  simp

theorem mem_children_dropLast {chain : Chain} (member : chain ∈ spec.closure) :
    chain ∈ spec.children chain.dropLast := by
  refine mem_children.mpr ⟨member, chain.getLast (ne_nil_of_mem_closure member), ?_⟩
  exact (List.dropLast_append_getLast _).symm

theorem parent_mem_closure {parent chain : Chain} (child : chain ∈ spec.children parent)
    (proper : parent ≠ []) : parent ∈ spec.closure := by
  obtain ⟨member, segment, rfl⟩ := mem_children.mp child
  exact closure_upward member (List.prefix_append _ _) proper

theorem children_root_eq_nil_iff : spec.children [] = [] ↔ spec.closure = ∅ := by
  constructor
  · intro bare
    apply ExtTreeSet.eq_empty_iff_forall_not_mem.mpr
    intro chain selected
    cases chain with
    | nil => exact ne_nil_of_mem_closure selected rfl
    | cons segment rest =>
      have top : [segment] ∈ spec.closure :=
        closure_upward selected ⟨rest, rfl⟩ (List.cons_ne_nil _ _)
      have child : [segment] ∈ spec.children [] := mem_children.mpr ⟨top, segment, rfl⟩
      rw [bare] at child
      cases child
  · intro none
    simp [children, none]

theorem length_le_depth {chain : Chain} (member : chain ∈ spec.closure) :
    chain.length ≤ spec.depth := by
  have bound : ∀ lengths : List Nat, ∀ n ∈ lengths, n ≤ lengths.foldr max 0 := by
    intro lengths
    induction lengths with
    | nil => simp
    | cons m rest ih =>
      intro n inside
      rcases List.mem_cons.mp inside with rfl | inside
      · exact Nat.le_max_left _ _
      · exact (ih n inside).trans (Nat.le_max_right _ _)
  exact bound _ _ (List.mem_map_of_mem (ExtTreeSet.mem_toList.mpr member))

theorem depth_sub_lt {parent chain : Chain} (child : chain ∈ spec.children parent) :
    spec.depth - chain.length < spec.depth - parent.length := by
  have longer := length_of_mem_children child
  have bound := length_le_depth (mem_children.mp child).1
  omega

/-- Induction from the deepest selections up. -/
@[elab_as_elim]
theorem upward_induction (spec : Spec) {motive : Chain → Prop}
    (step : ∀ parent, (∀ child ∈ spec.children parent, motive child) → motive parent)
    (parent : Chain) : motive parent :=
  step parent fun child _ => upward_induction spec step child
termination_by spec.depth - parent.length
decreasing_by exact depth_sub_lt ‹_›

/-- Induction from the root down. -/
@[elab_as_elim]
theorem downward_induction {motive : Chain → Prop} (root : motive [])
    (step : ∀ parent, ∀ child ∈ spec.children parent, motive parent → motive child)
    (chain : Chain) (tree : chain = [] ∨ chain ∈ spec.closure) : motive chain := by
  induction chain using List.reverseRecOn with
  | nil => exact root
  | append_singleton parent segment ih =>
    have selected := tree.resolve_left (by simp)
    have child : parent ++ [segment] ∈ spec.children parent :=
      mem_children.mpr ⟨selected, segment, rfl⟩
    exact step parent _ child (ih ((em (parent = [])).imp_right (parent_mem_closure child)))

end Spec

end PathQuery
