import PathQuery.Proofs.Prefixes

namespace PathQuery

open Std

namespace Spec

variable {spec : Spec}

def listed (spec : Spec) : List Chain :=
  (spec.fields.toList.filter Path.isSelection).map Path.selection

def reach (spec : Spec) : Nat := (spec.listed.map List.length).max?.getD 0

/-- The number of distinct ways in which listed selections begin, up to a level. -/
def width (spec : Spec) (level : Nat) : Nat :=
  ((spec.listed.filter fun chain => level ≤ chain.length).map (List.take level)).dedup.length

theorem mem_closure_iff_listed {chain : Chain} :
    chain ∈ spec.closure ↔ chain ≠ [] ∧ ∃ whole ∈ spec.listed, chain <+: whole := by
  rw [mem_closure]
  simp only [listed, List.mem_map, List.mem_filter, ExtTreeSet.mem_toList, and_assoc]
  refine and_congr_right fun _ => ⟨fun found => ?_, fun found => ?_⟩
  · obtain ⟨path, member, selects, above⟩ := found
    exact ⟨path.selection, ⟨path, member, selects, rfl⟩, above⟩
  · obtain ⟨_, ⟨path, member, selects, rfl⟩, above⟩ := found
    exact ⟨path, member, selects, above⟩

theorem reach_eq (spec : Spec) : spec.reach = deepest spec.fields.toList := by
  rw [reach, listed, List.map_map]
  rfl

theorem exists_length_eq_iff {level : Nat} :
    (∃ chain ∈ spec.closure, chain.length = level) ↔ 1 ≤ level ∧ level ≤ spec.reach := by
  simp only [mem_closure_iff_implied, exists_implied_iff, reach_eq]

theorem width_eq {level : Nat} (positive : 1 ≤ level) :
    spec.width level =
      (spec.closure.toList.filter fun chain => chain.length = level).length := by
  have sorted : (spec.closure.toList.filter fun chain => chain.length = level).Nodup :=
    (closure_sorted.imp fun less => ne_of_compare_eq_lt less).filter _
  refine ((List.perm_ext_iff_of_nodup (List.nodup_dedup _) sorted).mpr fun chain => ?_).length_eq
  simp only [List.mem_dedup, List.mem_map, List.mem_filter, decide_eq_true_eq,
    ExtTreeSet.mem_toList, mem_closure_iff_listed]
  constructor
  · intro found
    obtain ⟨whole, ⟨member, long⟩, rfl⟩ := found
    exact ⟨⟨Levels.take_ne_nil positive long, whole, member, List.take_prefix level whole⟩,
      List.length_take_of_le long⟩
  · intro found
    obtain ⟨⟨_, whole, member, above⟩, rfl⟩ := found
    exact ⟨whole, ⟨member, above.length_le⟩, (List.prefix_iff_eq_take.mp above).symm⟩

end Spec

namespace Levels

variable {levels : Levels} {spec : Spec} (holds : levels.Holds (· ∈ spec.closure))

include holds

theorem Holds.size_chainsAt {level : Nat} (positive : 1 ≤ level) :
    (levels.chainsAt level).size = spec.width level := by
  rw [Spec.width_eq positive, ← holds.toList_chainsAt, ExtTreeSet.length_toList]

theorem Holds.ascending_eq :
    levels.ascending = (List.range' 1 spec.reach).map levels.numbered :=
  holds.ascending_eq_numbered fun _ => Spec.exists_length_eq_iff

theorem Holds.ascending_split {above below : List (Nat × ChainSet)} {level : Nat × ChainSet}
    (split : levels.ascending = above ++ level :: below) :
    (1 ≤ level.1 ∧ level.1 ≤ spec.reach) ∧
      above ++ [level] = (List.range' 1 level.1).map levels.numbered ∧
      level :: below =
        (List.range' level.1 (spec.reach + 1 - level.1)).map levels.numbered := by
  obtain ⟨lower, upper, numbers, rfl, later⟩ :=
    List.map_eq_append_iff.mp (holds.ascending_eq.symm.trans split)
  obtain ⟨number, higher, rfl, rfl, rfl⟩ := List.map_eq_cons_iff.mp later
  obtain ⟨k, bound, rfl, upper⟩ := List.range'_eq_append_iff.mp numbers
  obtain ⟨rfl, some, rfl⟩ := List.range'_eq_cons_iff.mp upper.symm
  rw [Nat.mul_one] at *
  have count : spec.reach + 1 - (1 + k) = spec.reach - k - 1 + 1 := by omega
  refine ⟨by simp only [numbered]; omega, ?_, ?_⟩
  · show _ = (List.range' 1 (1 + k)).map levels.numbered
    rw [Nat.add_comm 1 k, List.range'_1_concat, List.map_append, Nat.add_comm 1 k]
    rfl
  · show _ = (List.range' (1 + k) (spec.reach + 1 - (1 + k))).map levels.numbered
    rw [count, List.range'_succ]
    rfl

end Levels

end PathQuery
