import PathQuery.Runs
import PathQuery.Path.Order
import PathQuery.Sorted
import Mathlib.Data.List.Dedup
import Mathlib.Data.List.Sort

namespace PathQuery

open Std

theorem ne_of_compare_eq_lt {κ : Type} [Ord κ] [ReflOrd κ] {a b : κ}
    (less : compare a b = .lt) : a ≠ b := by
  intro same
  rw [same, ReflOrd.compare_self] at less
  cases less

theorem eq_of_keys_sorted {α κ : Type} [Ord κ] [TransOrd κ] {key : α → κ} {as bs : List α}
    (sorted : as.Pairwise fun a b => compare (key a) (key b) = .lt)
    (sorted' : bs.Pairwise fun a b => compare (key a) (key b) = .lt)
    (same : ∀ a, a ∈ as ↔ a ∈ bs) : as = bs := by
  have different : ∀ a b : α, compare (key a) (key b) = .lt → a ≠ b :=
    fun a b less equal => ne_of_compare_eq_lt less (congrArg key equal)
  have perm : as.Perm bs := (List.perm_ext_iff_of_nodup (sorted.imp (different _ _))
    (sorted'.imp (different _ _))).mpr same
  refine perm.eq_of_pairwise ?_ sorted sorted'
  intro a b _ _ less greater
  have := TransCmp.lt_trans less greater
  rw [ReflOrd.compare_self] at this
  cases this

def KeysAscend {α κ : Type} [Ord κ] (key : α → κ) (as : List α) : Prop :=
  as.Pairwise fun a b => (compare (key a) (key b)).isLE

section Sorted

variable {α κ : Type} [Ord κ] (key : α → κ)

theorem insertBy_eq_orderedInsert (a : α) (as : List α) : insertBy key a as =
    as.orderedInsert (fun a b => (compare (key a) (key b)).isLE) a := by
  induction as with
  | nil => rfl
  | cons b rest ih => rw [insertBy, List.orderedInsert_cons, ih]

theorem sortBy_eq_insertionSort (as : List α) :
    sortBy key as = as.insertionSort fun a b => (compare (key a) (key b)).isLE := by
  rw [sortBy, funext₂ (insertBy_eq_orderedInsert key), List.insertionSort]

theorem perm_sortBy (as : List α) : (sortBy key as).Perm as := by
  rw [sortBy_eq_insertionSort]
  exact List.perm_insertionSort _ as

theorem keysAscend_sortBy [TransOrd κ] (as : List α) : KeysAscend key (sortBy key as) := by
  have total : Std.Total fun a b : α => (compare (key a) (key b)).isLE := by
    constructor
    intro a b
    by_cases up : (compare (key a) (key b)).isLE
    · exact .inl up
    · exact .inr (Ordering.isLE_of_eq_lt (OrientedCmp.lt_of_not_isLE up))
  have trans : IsTrans α fun a b => (compare (key a) (key b)).isLE :=
    ⟨fun _ _ _ => TransCmp.isLE_trans⟩
  rw [sortBy_eq_insertionSort]
  exact List.pairwise_insertionSort _ as

end Sorted

variable {α β κ : Type} [DecidableEq κ] {key : α → κ}

theorem runsBy_map (f : β → α) (bs : List β) :
    runsBy key (bs.map f) =
      (runsBy (fun b => key (f b)) bs).map fun run => (run.1, run.2.map f) := by
  induction bs with
  | nil => rfl
  | cons b rest ih =>
    simp only [List.map_cons, runsBy, ih]
    cases runsBy (fun b => key (f b)) rest with
    | nil => rfl
    | cons run runs =>
      simp only [List.map_cons]
      split <;> rfl

theorem run_ne_nil {as : List α} {run : κ × List α} (member : run ∈ runsBy key as) :
    run.2 ≠ [] := by
  fun_induction runsBy key as generalizing run with
  | case1 => cases member
  | case2 a rest eq ih => simp_all
  | case3 a rest first runs eq ih =>
    rcases List.mem_cons.mp member with rfl | member
    · simp
    · exact ih (eq ▸ List.mem_cons_of_mem _ member)
  | case4 a rest k first runs eq different ih =>
    rcases List.mem_cons.mp member with rfl | member
    · simp
    · exact ih (eq ▸ member)

theorem key_of_mem_run {as : List α} {run : κ × List α} (member : run ∈ runsBy key as)
    {a : α} (inside : a ∈ run.2) : key a = run.1 := by
  fun_induction runsBy key as generalizing run with
  | case1 => cases member
  | case2 a rest eq ih => simp_all
  | case3 b rest first runs eq ih =>
    rcases List.mem_cons.mp member with rfl | member
    · rcases List.mem_cons.mp inside with rfl | inside
      · rfl
      · have first : (key b, first) ∈ runsBy key rest := eq ▸ List.mem_cons_self ..
        have same := ih first inside
        exact same
    · exact ih (eq ▸ List.mem_cons_of_mem _ member) inside
  | case4 b rest k first runs eq different ih =>
    rcases List.mem_cons.mp member with rfl | member
    · simp_all
    · exact ih (eq ▸ member) inside

theorem mem_of_mem_run {as : List α} {run : κ × List α} (member : run ∈ runsBy key as)
    {a : α} (inside : a ∈ run.2) : a ∈ as := by
  rw [← flatMap_runsBy key as]
  exact List.mem_flatMap.mpr ⟨run, member, inside⟩

theorem exists_key_eq {as : List α} {run : κ × List α} (member : run ∈ runsBy key as) :
    ∃ a ∈ as, key a = run.1 := by
  obtain ⟨a, inside⟩ := List.exists_mem_of_ne_nil _ (run_ne_nil member)
  exact ⟨a, mem_of_mem_run member inside, key_of_mem_run member inside⟩

theorem filter_flatMap_runs {runs : List (κ × List α)}
    (distinct : runs.Pairwise fun first second => first.1 ≠ second.1)
    (keyed : ∀ run ∈ runs, ∀ a ∈ run.2, key a = run.1) {run : κ × List α} (member : run ∈ runs) :
    (runs.flatMap Prod.snd).filter (fun a => key a = run.1) = run.2 := by
  induction runs with
  | nil => cases member
  | cons first rest ih =>
    obtain ⟨different, distinct⟩ := List.pairwise_cons.mp distinct
    have own : ∀ a ∈ first.2, key a = first.1 := keyed first (List.mem_cons_self ..)
    have keyedRest : ∀ run ∈ rest, ∀ a ∈ run.2, key a = run.1 :=
      fun run member => keyed run (List.mem_cons_of_mem _ member)
    rw [List.flatMap_cons, List.filter_append]
    rcases List.mem_cons.mp member with rfl | member
    · have all : run.2.filter (fun a => key a = run.1) = run.2 :=
        List.filter_eq_self.mpr fun a inside => decide_eq_true (own a inside)
      have none : (rest.flatMap Prod.snd).filter (fun a => key a = run.1) = [] := by
        apply List.filter_eq_nil_iff.mpr
        intro a inside
        obtain ⟨other, member, inside⟩ := List.mem_flatMap.mp inside
        simpa [keyedRest other member a inside] using (different other member).symm
      rw [all, none, List.append_nil]
    · have none : first.2.filter (fun a => key a = run.1) = [] := by
        apply List.filter_eq_nil_iff.mpr
        intro a inside
        simpa [own a inside] using different run member
      rw [none, ih distinct keyedRest member, List.nil_append]

/-- Whatever stands between two elements of one key has that key. -/
def Consecutive (key : α → κ) (as : List α) : Prop :=
  ∀ a b c, [a, b, c].Sublist as → key a = key c → key b = key a

/-- Elements of one key are consecutive, so that each key that occurs has exactly one run, which is
all there is of that key. -/
structure Gathered (key : α → κ) (as : List α) : Prop where
  consecutive : Consecutive key as
  distinct : ((runsBy key as).map Prod.fst).Nodup
  mem_iff : ∀ k run, (k, run) ∈ runsBy key as ↔ run = as.filter (fun a => key a = k) ∧ run ≠ []

section Ordered

variable [Ord κ]

variable [TransOrd κ] [LawfulEqOrd κ]

theorem runsBy_keys_sorted {as : List α} (ascend : KeysAscend key as) :
    (runsBy key as).Pairwise fun first second => compare first.1 second.1 = .lt := by
  fun_induction runsBy key as with
  | case1 => exact .nil
  | case2 a rest eq ih => exact List.pairwise_singleton _ _
  | case3 a rest first runs eq ih =>
    have sorted := ih (List.pairwise_cons.mp ascend).2
    rw [eq] at sorted
    exact List.pairwise_cons.mpr (List.pairwise_cons.mp sorted)
  | case4 a rest k first runs eq different ih =>
    obtain ⟨least, ascend⟩ := List.pairwise_cons.mp ascend
    have sorted := ih ascend
    rw [eq] at sorted
    refine List.pairwise_cons.mpr ⟨?_, sorted⟩
    have below : compare (key a) k = .lt := by
      obtain ⟨b, inside, same⟩ := exists_key_eq (eq ▸ List.mem_cons_self .. : (k, first) ∈ _)
      have notAbove := least b inside
      rw [same] at notAbove
      rcases Ordering.isLE_iff_eq_lt_or_eq_eq.mp notAbove with less | equal
      · exact less
      · exact absurd (LawfulEqOrd.eq_of_compare equal) different
    intro run member
    rcases List.mem_cons.mp member with rfl | member
    · exact below
    · exact TransCmp.lt_trans below ((List.pairwise_cons.mp sorted).1 run member)

theorem runsBy_keys_distinct {as : List α} (ascend : KeysAscend key as) :
    (runsBy key as).Pairwise fun first second => first.1 ≠ second.1 :=
  (runsBy_keys_sorted ascend).imp fun less => ne_of_compare_eq_lt less

theorem mem_runsBy_iff {as : List α} (ascend : KeysAscend key as) (k : κ) (run : List α) :
    (k, run) ∈ runsBy key as ↔ run = as.filter (fun a => key a = k) ∧ run ≠ [] := by
  have whole : ∀ run ∈ runsBy key as, as.filter (fun a => key a = run.1) = run.2 := by
    intro run member
    have := filter_flatMap_runs (runsBy_keys_distinct ascend)
      (fun run member a => key_of_mem_run member) member
    rwa [flatMap_runsBy] at this
  constructor
  · intro member
    exact ⟨(whole _ member).symm, run_ne_nil member⟩
  · intro picked
    obtain ⟨rfl, occurs⟩ := picked
    obtain ⟨a, inside⟩ := List.exists_mem_of_ne_nil _ occurs
    obtain ⟨inside, same⟩ := List.mem_filter.mp inside
    rw [← flatMap_runsBy key as] at inside
    obtain ⟨other, member, inside⟩ := List.mem_flatMap.mp inside
    have sameKey : other.1 = k := (key_of_mem_run member inside).symm.trans (of_decide_eq_true same)
    have := whole other member
    rw [sameKey] at this
    rw [this, ← sameKey]
    exact member

theorem KeysAscend.gathered {as : List α} (ascend : KeysAscend key as) : Gathered key as where
  consecutive a b c inside same := by
    obtain ⟨fromA, fromB⟩ := List.pairwise_cons.mp (ascend.sublist inside)
    have below : (compare (key a) (key b)).isLE := fromA b (by simp)
    have above : (compare (key b) (key c)).isLE := (List.pairwise_cons.mp fromB).1 c (by simp)
    rw [← same] at above
    exact LawfulEqOrd.eq_of_compare (OrientedCmp.isLE_antisymm above below)
  distinct := List.pairwise_map.mpr (runsBy_keys_distinct ascend)
  mem_iff := mem_runsBy_iff ascend

theorem runsBy_eq_map_dedup {as : List α} (ascend : KeysAscend key as) :
    runsBy key as =
      (as.map key).dedup.map fun k => (k, as.filter fun a => key a = k) := by
  have keys : (as.map key).dedup.Pairwise fun k k' => compare k k' = .lt := by
    have ordered : (as.map key).Pairwise fun k k' => (compare k k').isLE :=
      List.pairwise_map.mpr ascend
    refine (ordered.sublist (List.dedup_sublist _)).imp₂ ?_ (List.nodup_dedup _)
    intro k k' notAbove different
    rcases Ordering.isLE_iff_eq_lt_or_eq_eq.mp notAbove with less | equal
    · exact less
    · exact absurd (LawfulEqOrd.eq_of_compare equal) different
  refine eq_of_keys_sorted (runsBy_keys_sorted ascend) (List.pairwise_map.mpr keys) ?_
  intro run
  rw [mem_runsBy_iff ascend, List.mem_map]
  constructor
  · intro found
    obtain ⟨elements, occurs⟩ := found
    obtain ⟨a, inside⟩ := List.exists_mem_of_ne_nil _ occurs
    rw [elements, List.mem_filter, decide_eq_true_eq] at inside
    obtain ⟨inside, same⟩ := inside
    refine ⟨run.1, ?_, Prod.ext rfl elements.symm⟩
    exact List.mem_dedup.mpr (List.mem_map.mpr ⟨a, inside, same⟩)
  · intro found
    obtain ⟨k, occurs, rfl⟩ := found
    obtain ⟨a, inside, same⟩ := List.mem_map.mp (List.mem_dedup.mp occurs)
    have member : a ∈ as.filter fun a => key a = k :=
      List.mem_filter.mpr ⟨inside, decide_eq_true same⟩
    exact ⟨rfl, List.ne_nil_of_mem member⟩

end Ordered

end PathQuery
