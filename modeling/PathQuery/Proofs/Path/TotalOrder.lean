import PathQuery.Proofs.Path.ChainOrder

namespace PathQuery

open Std

attribute [local instance] lexOrd

structure TotallyOrdered (α : Type) [Ord α] : Prop where
  trichotomous : ∀ a b : α,
    (compare a b = .lt ∧ a ≠ b ∧ compare b a ≠ .lt) ∨
    (compare a b ≠ .lt ∧ a = b ∧ compare b a ≠ .lt) ∨
    (compare a b ≠ .lt ∧ a ≠ b ∧ compare b a = .lt)
  eq_iff : ∀ a b : α, compare a b = .eq ↔ a = b
  swap : ∀ a b : α, compare b a = (compare a b).swap
  transitive : ∀ a b c : α, compare a b = .lt → compare b c = .lt → compare a c = .lt

theorem totallyOrdered (α : Type) [Ord α] [TransOrd α] [LawfulEqOrd α] : TotallyOrdered α where
  trichotomous a b := by
    have swapped : compare b a = (compare a b).swap := OrientedCmp.eq_swap
    have same : compare a b = .eq ↔ a = b := LawfulEqOrd.compare_eq_iff_eq
    cases order : compare a b with
    | lt =>
      rw [order] at swapped same
      have different : a ≠ b := fun equal => by cases same.mpr equal
      exact .inl ⟨rfl, different, by rw [swapped]; decide⟩
    | eq =>
      rw [order] at swapped
      exact .inr (.inl ⟨by decide, same.mp order, by rw [swapped]; decide⟩)
    | gt =>
      rw [order] at swapped same
      have different : a ≠ b := fun equal => by cases same.mpr equal
      exact .inr (.inr ⟨by decide, different, swapped⟩)
  eq_iff _ _ := LawfulEqOrd.compare_eq_iff_eq
  swap _ _ := OrientedCmp.eq_swap
  transitive _ _ _ less less' := TransCmp.lt_trans less less'

theorem compare_of_difference {α : Type} [Ord α] [ReflOrd α] (common : List α) {a b : α}
    (less : compare a b = .lt) (rest rest' : List α) :
    compare (common ++ a :: rest) (common ++ b :: rest') = .lt := by
  rw [compare_append_left, List.compare_cons_cons, less]
  rfl

/-- A list that comes first ends where the other one goes on, or has the lesser element where the
two part. -/
theorem exists_difference {α : Type} [Ord α] [LawfulEqOrd α] {as bs : List α}
    (less : compare as bs = .lt) :
    (∃ rest, rest ≠ [] ∧ bs = as ++ rest) ∨
      ∃ common a b rest rest', as = common ++ a :: rest ∧ bs = common ++ b :: rest' ∧
        compare a b = .lt := by
  induction as generalizing bs with
  | nil =>
    cases bs with
    | nil => cases less
    | cons b bs => exact .inl ⟨b :: bs, List.cons_ne_nil _ _, rfl⟩
  | cons a as ih =>
    cases bs with
    | nil => cases less
    | cons b bs =>
      rw [List.compare_cons_cons, Ordering.then_eq_lt] at less
      rcases less with here | ⟨equal, later⟩
      · exact .inr ⟨[], a, b, as, bs, rfl, rfl, here⟩
      · have same : a = b := LawfulEqOrd.eq_of_compare equal
        subst same
        rcases ih later with ends | differ
        · obtain ⟨rest, more, rfl⟩ := ends
          exact .inl ⟨rest, more, rfl⟩
        · obtain ⟨common, c, d, rest, rest', rfl, rfl, parts⟩ := differ
          exact .inr ⟨a :: common, c, d, rest, rest', rfl, rfl, parts⟩

namespace Context

def rank : Context → Nat
  | plain => 0
  | inline _ => 1
  | spread _ _ => 2

theorem compare_eq (a b : Context) :
    compare a b = (compare a.rank b.rank).then
      ((compare a.fragment? b.fragment?).then (compare a.type? b.type?)) := by
  cases a <;> cases b <;> rfl

end Context

namespace Segment

theorem compare_eq (a b : Segment) :
    compare a b = (compare a.context.rank b.context.rank).then
      ((compare a.context.fragment? b.context.fragment?).then
        ((compare a.context.type? b.context.type?).then
          ((compare a.field b.field).then (compare a.alias? b.alias?)))) := by
  have byContext : compare a b = (compare a.context b.context).then
      ((compare a.field b.field).then (compare a.alias? b.alias?)) := rfl
  rw [byContext, Context.compare_eq, Ordering.then_assoc, Ordering.then_assoc]

theorem compare_eq_lt_of_rank_lt {a b : Segment} (lower : a.context.rank < b.context.rank) :
    compare a b = .lt := by
  have first : compare a.context.rank b.context.rank = .lt := Nat.compare_eq_lt.mpr lower
  rw [compare_eq, first]
  rfl

end Segment

namespace Path

/-- The path's selection ends where the other one goes on, or it has the lesser segment where the
two part, or on the same selection it has the lesser argument or directive. -/
inductive Precedes : Path → Path → Prop where
  | ends {selection rest : Chain} {target target' : Target} (more : rest ≠ []) :
      Precedes ⟨selection, target⟩ ⟨selection ++ rest, target'⟩
  | parts {common rest rest' : Chain} {segment segment' : Segment} {target target' : Target}
      (less : compare segment segment' = .lt) :
      Precedes ⟨common ++ segment :: rest, target⟩ ⟨common ++ segment' :: rest', target'⟩
  | hangs {selection : Chain} {target target' : Target}
      (less : (compare target.argument? target'.argument?).then
        (compare target.directive? target'.directive?) = .lt) :
      Precedes ⟨selection, target⟩ ⟨selection, target'⟩

theorem compare_eq (a b : Path) :
    compare a b = (compare a.selection b.selection).then
      ((compare a.target.argument? b.target.argument?).then
        (compare a.target.directive? b.target.directive?)) :=
  rfl

theorem compare_eq_lt_iff {a b : Path} : compare a b = .lt ↔ a.Precedes b := by
  constructor
  · intro less
    obtain ⟨selection, target⟩ := a
    obtain ⟨selection', target'⟩ := b
    rw [compare_eq, Ordering.then_eq_lt] at less
    rcases less with before | ⟨equal, less⟩
    · rcases exists_difference before with
        ⟨rest, more, rfl⟩ | ⟨common, s, t, rest, rest', rfl, rfl, parts⟩
      · exact .ends more
      · exact .parts parts
    · have same : selection = selection' := LawfulEqOrd.eq_of_compare equal
      subst same
      exact .hangs less
  · intro precedes
    rw [compare_eq, Ordering.then_eq_lt]
    cases precedes with
    | ends more => exact .inl (compare_append_self_lt _ more)
    | parts less => exact .inl (compare_of_difference _ less _ _)
    | hangs less => exact .inr ⟨ReflOrd.compare_self, less⟩

end Path

theorem PathSet.nodup_toList (paths : PathSet) : paths.toList.Nodup :=
  ExtTreeSet.ordered_toList.imp fun less => ne_of_compare_eq_lt less

/-- Segments and paths are totally ordered, and two that compare as equal are the same. Segments are
ordered part by part, so that plain fields come before those in inline fragments and these before
those in spreads; paths are ordered by the first segment in which they differ, and a selection
comes before those that go on from it. A set of paths therefore keeps every path once. -/
theorem paths_totally_ordered :
    TotallyOrdered Segment ∧ TotallyOrdered Path ∧
    (∀ a b : Segment, compare a b = (compare a.context.rank b.context.rank).then
      ((compare a.context.fragment? b.context.fragment?).then
        ((compare a.context.type? b.context.type?).then
          ((compare a.field b.field).then (compare a.alias? b.alias?))))) ∧
    (∀ a b : Segment, a.context.rank < b.context.rank → compare a b = .lt) ∧
    (∀ a b : Path, compare a b = .lt ↔ a.Precedes b) ∧
    ∀ paths : List Path,
      (PathSet.ofList paths).toList.Pairwise (fun a b => compare a b = .lt) ∧
      (PathSet.ofList paths).toList.Nodup ∧
      ∀ path, path ∈ (PathSet.ofList paths).toList ↔ path ∈ paths := by
  refine ⟨totallyOrdered Segment, totallyOrdered Path, Segment.compare_eq, ?_, ?_, ?_⟩
  · intro a b lower
    exact Segment.compare_eq_lt_of_rank_lt lower
  · intro a b
    exact Path.compare_eq_lt_iff
  · intro paths
    exact ⟨ExtTreeSet.ordered_toList, PathSet.nodup_toList _, fun path =>
      ExtTreeSet.mem_toList.trans PathSet.mem_ofList⟩

/-- The unaliased selection of a field comes before its aliases, and an inline fragment before a
spread whatever the names. -/
example :
    let node : Segment := .plain (.of "node")
    let zeta : Path := .ofSelection [node, .plain (.of "zeta")]
    let aliased : Path := .ofSelection [node, ⟨.plain, .of "zeta", some (.of "alpha")⟩]
    let inlined : Path := .ofSelection [node, ⟨.inline (.of "User"), .of "name", none⟩]
    let spread : Path := .ofSelection [node, ⟨.spread (.of "A") (.of "Admin"), .of "age", none⟩]
    (PathSet.ofList [spread, aliased, inlined, zeta, .ofSelection [node], aliased]).toList =
      [.ofSelection [node], zeta, aliased, inlined, spread] := by
  decide +kernel

end PathQuery
