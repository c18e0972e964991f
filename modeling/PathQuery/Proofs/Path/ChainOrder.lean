import PathQuery.Assembly
import PathQuery.Proofs.Runs

namespace PathQuery

open Std

attribute [local instance] lexOrd

section Lists

variable {α : Type} [Ord α]

theorem compare_append_left [ReflOrd α] (common as bs : List α) :
    compare (common ++ as) (common ++ bs) = compare as bs := by
  induction common with
  | nil => rfl
  | cons a common ih =>
    rw [List.cons_append, List.cons_append, List.compare_cons_cons, ReflOrd.compare_self, ih]
    rfl

theorem compare_append_self_lt [ReflOrd α] (as : List α) {rest : List α} (more : rest ≠ []) :
    compare as (as ++ rest) = .lt := by
  have := compare_append_left as [] rest
  rw [List.append_nil] at this
  rw [this]
  cases rest with
  | nil => exact absurd rfl more
  | cons a rest => rfl

theorem compare_append_of_lt {as bs : List α} (level : as.length = bs.length)
    (less : compare as bs = .lt) (us vs : List α) : compare (as ++ us) (bs ++ vs) = .lt := by
  induction as generalizing bs with
  | nil =>
    rw [List.eq_nil_of_length_eq_zero level.symm] at less
    cases less
  | cons a as ih =>
    cases bs with
    | nil => cases level
    | cons b bs =>
      rw [List.compare_cons_cons, Ordering.then_eq_lt] at less
      rw [List.cons_append, List.cons_append, List.compare_cons_cons, Ordering.then_eq_lt]
      refine less.imp_right fun ⟨equal, less⟩ => ⟨equal, ih (Nat.succ.inj level) less⟩

theorem compare_dropLast_isLE [ReflOrd α] {as bs : List α} (level : as.length = bs.length)
    (notAbove : (compare as bs).isLE) : (compare as.dropLast bs.dropLast).isLE := by
  induction as generalizing bs with
  | nil =>
    rw [List.eq_nil_of_length_eq_zero level.symm]
    rfl
  | cons a as ih =>
    cases bs with
    | nil => cases level
    | cons b bs =>
      cases as with
      | nil =>
        rw [List.eq_nil_of_length_eq_zero (Nat.succ.inj level).symm]
        rfl
      | cons a' as =>
        cases bs with
        | nil => cases level
        | cons b' bs =>
          rw [List.compare_cons_cons, Ordering.isLE_then_iff_and] at notAbove
          rw [List.dropLast_cons_cons, List.dropLast_cons_cons, List.compare_cons_cons,
            Ordering.isLE_then_iff_and]
          exact notAbove.imp_right fun cases => cases.imp_right (ih (Nat.succ.inj level))

end Lists

/-- Less deep, or on the same level and earlier in path order. -/
def Chain.Before (a b : Chain) : Prop :=
  a.length < b.length ∨ (a.length = b.length ∧ compare a b = .lt)

theorem Path.eq_ofSelection {path : Path} (selects : path.isSelection = true) :
    path = ofSelection path.selection := by
  obtain ⟨selection, target⟩ := path
  cases target with
  | selection => rfl
  | argument attachment => cases selects
  | directive attachment => cases selects

theorem compare_ofSelection (a b : Chain) :
    compare (Path.ofSelection a) (Path.ofSelection b) = compare a b := by
  show (compare a b).then .eq = compare a b
  exact Ordering.then_eq

theorem Segment.compare_context_isLE {a b : Segment} (notAbove : (compare a b).isLE) :
    (compare a.context b.context).isLE := by
  have byContext : compare a b =
      (compare a.context b.context).then (compare (a.field, a.alias?) (b.field, b.alias?)) := rfl
  rw [byContext, Ordering.isLE_then_iff_and] at notAbove
  exact notAbove.1

namespace Plan

theorem parentOf?_eq_some {chain parent : Chain} :
    parentOf? chain = some parent ↔ ∃ segment, chain = parent ++ [segment] := by
  constructor
  · intro above
    rcases List.eq_nil_or_concat chain with rfl | ⟨front, segment, rfl⟩
    · cases above
    · have same : front = parent := by simpa [parentOf?] using above
      exact ⟨segment, by rw [List.concat_eq_append, same]⟩
  · intro found
    obtain ⟨segment, rfl⟩ := found
    simp [parentOf?]

@[simp] theorem parentOf?_concat (parent : Chain) (segment : Segment) :
    parentOf? (parent ++ [segment]) = some parent :=
  parentOf?_eq_some.mpr ⟨segment, rfl⟩

@[simp] theorem contextOf_concat (parent : Chain) (segment : Segment) :
    contextOf (parent ++ [segment]) = segment.context := by
  simp [contextOf]

theorem contexts_ascend {chains : List Chain} {parent : Chain}
    (sorted : chains.Pairwise fun a b => compare a b = .lt)
    (siblings : ∀ chain ∈ chains, parentOf? chain = some parent) :
    KeysAscend contextOf chains := by
  apply sorted.imp_of_mem
  intro a b left right less
  obtain ⟨s, rfl⟩ := parentOf?_eq_some.mp (siblings a left)
  obtain ⟨t, rfl⟩ := parentOf?_eq_some.mp (siblings b right)
  have last : compare [s] [t] = .lt := by rwa [compare_append_left] at less
  rw [List.compare_cons_cons, ReflOrd.compare_self, Ordering.then_eq] at last
  rw [contextOf_concat, contextOf_concat]
  exact Segment.compare_context_isLE (Ordering.isLE_of_eq_lt last)

theorem parents_ascend {chains : List Chain} {level : Nat}
    (sorted : chains.Pairwise fun a b => compare a b = .lt)
    (flat : ∀ chain ∈ chains, chain.length = level) : KeysAscend parentOf? chains := by
  apply sorted.imp_of_mem
  intro a b left right less
  have level : a.length = b.length := (flat a left).trans (flat b right).symm
  cases a with
  | nil =>
    rw [List.eq_nil_of_length_eq_zero level.symm]
    rfl
  | cons s a =>
    cases b with
    | nil => cases level
    | cons t b => exact compare_dropLast_isLE level (Ordering.isLE_of_eq_lt less)

end Plan

end PathQuery
