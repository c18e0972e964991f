import PathQuery.Levels
import PathQuery.Proofs.Spec.Closure

namespace PathQuery

open Std

def Implied (paths : List Path) (chain : Chain) : Prop :=
  chain ≠ [] ∧ ∃ path ∈ paths, path.isSelection = true ∧ chain <+: path.selection

theorem Spec.mem_closure_iff_implied {spec : Spec} {chain : Chain} :
    chain ∈ spec.closure ↔ Implied spec.fields.toList chain := by
  simp only [Implied, mem_closure, ExtTreeSet.mem_toList]

namespace Levels

structure Holds (levels : Levels) (selected : Chain → Prop) : Prop where
  occupied : ∀ (level : Nat) (chains : ChainSet), levels.buckets[level]? = some chains → chains ≠ ∅
  mem_chainsAt : ∀ level chain,
    chain ∈ levels.chainsAt level ↔ selected chain ∧ chain.length = level

variable {levels : Levels} {selected other : Chain → Prop}

theorem Holds.congr (holds : levels.Holds selected) (same : ∀ chain, selected chain ↔ other chain) :
    levels.Holds other where
  occupied := holds.occupied
  mem_chainsAt level chain := by rw [holds.mem_chainsAt, same]

theorem Holds.unique {levels' : Levels} (holds : levels.Holds selected)
    (holds' : levels'.Holds selected) : levels = levels' := by
  have level : ∀ n, levels.chainsAt n = levels'.chainsAt n := fun n =>
    ExtTreeSet.ext_mem fun chain => by rw [holds.mem_chainsAt, holds'.mem_chainsAt]
  have bucket : ∀ {levels : Levels} (_ : levels.Holds selected) (n : Nat),
      levels.buckets[n]? = if levels.chainsAt n = ∅ then none else some (levels.chainsAt n) := by
    intro levels holds n
    rw [chainsAt, ExtTreeMap.getD_eq_getD_getElem?]
    cases found : levels.buckets[n]? with
    | none => rfl
    | some chains => exact (if_neg (holds.occupied n chains found)).symm
  obtain ⟨buckets⟩ := levels
  obtain ⟨buckets'⟩ := levels'
  refine congrArg Levels.mk (ExtTreeMap.ext_getElem? fun {n} => ?_)
  have one := bucket holds n
  have other := bucket holds' n
  rw [level] at one
  exact one.trans other.symm

theorem holds_empty : empty.Holds fun _ => False where
  occupied level chains found := by simp [empty] at found
  mem_chainsAt level chain := by simp [chainsAt, empty]

theorem Holds.contains_iff (holds : levels.Holds selected) (chain : Chain) :
    levels.contains chain = true ↔ selected chain := by
  have := holds.mem_chainsAt chain.length chain
  rw [← ExtTreeSet.contains_iff_mem] at this
  simpa [contains] using this

theorem chainsAt_add (levels : Levels) (chain : Chain) (level : Nat) :
    (levels.add chain).chainsAt level =
      if chain.length = level then (levels.chainsAt level).insert chain
      else levels.chainsAt level := by
  simp only [chainsAt, add, ExtTreeMap.getD_insert, LawfulEqOrd.compare_eq_iff_eq]
  split
  · next same => rw [same]
  · rfl

theorem Holds.add (holds : levels.Holds selected) (chain : Chain) :
    (levels.add chain).Holds fun c => selected c ∨ c = chain where
  occupied level chains found := by
    simp only [Levels.add, ExtTreeMap.getElem?_insert] at found
    split at found
    · cases found
      exact ExtTreeSet.ne_empty_of_mem ExtTreeSet.mem_insert_self
    · exact holds.occupied level chains found
  mem_chainsAt level c := by
    rw [chainsAt_add]
    split
    · next same =>
      rw [ExtTreeSet.mem_insert, LawfulEqOrd.compare_eq_iff_eq, holds.mem_chainsAt]
      constructor
      · intro either
        rcases either with rfl | ⟨sel, level⟩
        · exact ⟨.inr rfl, same⟩
        · exact ⟨.inl sel, level⟩
      · intro found
        rcases found with ⟨sel | rfl, level⟩
        · exact .inr ⟨sel, level⟩
        · exact .inl rfl
    · next different =>
      rw [holds.mem_chainsAt]
      refine and_congr_left fun level => ⟨.inl, ?_⟩
      intro either
      rcases either with sel | rfl
      · exact sel
      · exact absurd level different

/-- The walk up may stop early because whatever is there has everything above it. While the walk
is under way this holds of the shorter selections only. -/
theorem Holds.insertUpTo {levels : Levels} {selected : Chain → Prop} (holds : levels.Holds selected)
    {chain : Chain} {n : Nat} (short : n ≤ chain.length)
    (upward : ∀ m ≤ n, selected (chain.take m) → ∀ k, 0 < k → k ≤ m → selected (chain.take k)) :
    (levels.insertUpTo chain n).Holds
      fun c => selected c ∨ ∃ k, 0 < k ∧ k ≤ n ∧ c = chain.take k := by
  induction n generalizing levels selected with
  | zero =>
    refine holds.congr fun c => ⟨.inl, ?_⟩
    intro either
    rcases either with sel | ⟨k, positive, bound, -⟩
    · exact sel
    · omega
  | succ n ih =>
    unfold Levels.insertUpTo
    split
    · next there =>
      have there := (holds.contains_iff _).mp there
      refine holds.congr fun c => ⟨.inl, ?_⟩
      intro either
      rcases either with sel | ⟨k, positive, bound, rfl⟩
      · exact sel
      · exact upward _ le_rfl there k positive bound
    · next absent =>
      have added := holds.add (chain.take (n + 1))
      have shorter : ∀ m ≤ n, chain.take m ≠ chain.take (n + 1) := by
        intro m bound same
        have := congrArg List.length same
        rw [List.length_take, List.length_take] at this
        omega
      refine (ih added (by omega) ?_).congr fun c => ?_
      · intro m bound either k positive below
        rcases either with sel | same
        · exact .inl (upward m (by omega) sel k positive below)
        · exact absurd same (shorter m bound)
      · constructor
        · intro either
          rcases either with (sel | rfl) | ⟨k, positive, bound, rfl⟩
          · exact .inl sel
          · exact .inr ⟨n + 1, by omega, le_rfl, rfl⟩
          · exact .inr ⟨k, positive, by omega, rfl⟩
        · intro either
          rcases either with sel | ⟨k, positive, bound, rfl⟩
          · exact .inl (.inl sel)
          · rcases Nat.lt_or_ge n k with last | below
            · have : k = n + 1 := by omega
              exact .inl (.inr (by rw [this]))
            · exact .inr ⟨k, positive, below, rfl⟩

theorem take_ne_nil {chain : Chain} {k : Nat} (positive : 0 < k) (bound : k ≤ chain.length) :
    chain.take k ≠ [] := by
  intro none
  have := congrArg List.length none
  rw [List.length_take, List.length_nil] at this
  omega

def Upward (selected : Chain → Prop) : Prop :=
  ∀ chain above, selected chain → above <+: chain → above ≠ [] → selected above

theorem Holds.insert (holds : levels.Holds selected) (upward : Upward selected) (chain : Chain) :
    (levels.insert chain).Holds fun c => selected c ∨ (c ≠ [] ∧ c <+: chain) := by
  refine (holds.insertUpTo le_rfl ?_).congr fun c => or_congr_right ?_
  · intro m bound sel k positive below
    exact upward _ _ sel (List.take_prefix_take_left below) (take_ne_nil positive (by omega))
  · constructor
    · intro found
      obtain ⟨k, positive, bound, rfl⟩ := found
      exact ⟨take_ne_nil positive bound, List.take_prefix _ _⟩
    · intro found
      obtain ⟨proper, above⟩ := found
      exact ⟨c.length, List.length_pos_iff.mpr proper, above.length_le,
        List.prefix_iff_eq_take.mp above⟩

theorem Upward.insert (upward : Upward selected) (chain : Chain) :
    Upward fun c => selected c ∨ (c ≠ [] ∧ c <+: chain) := by
  intro c above either up proper
  rcases either with sel | ⟨-, below⟩
  · exact .inl (upward c above sel up proper)
  · exact .inr ⟨proper, up.trans below⟩

theorem Holds.foldl_insertPath (paths : List Path) {levels : Levels} {selected : Chain → Prop}
    (holds : levels.Holds selected) (upward : Upward selected) :
    (paths.foldl insertPath levels).Holds fun c =>
      selected c ∨ (c ≠ [] ∧ ∃ path ∈ paths, path.isSelection = true ∧ c <+: path.selection) := by
  induction paths generalizing levels selected with
  | nil => exact holds.congr fun c => by simp
  | cons path rest ih =>
    rw [List.foldl_cons, insertPath]
    split
    · next selects =>
      refine (ih (holds.insert upward path.selection) (upward.insert path.selection)).congr
        fun c => ?_
      simp only [List.mem_cons, exists_eq_or_imp, selects, true_and]
      tauto
    · next skipped =>
      apply (ih holds upward).congr
      intro c
      simp [skipped]

theorem holds_ofPaths (paths : List Path) : (ofPaths paths).Holds (Implied paths) :=
  (holds_empty.foldl_insertPath paths fun _ _ no => no.elim).congr fun c => by simp [Implied]

theorem holds_closure (spec : Spec) :
    (ofPaths spec.fields.toList).Holds (· ∈ spec.closure) :=
  (holds_ofPaths spec.fields.toList).congr fun _ => Spec.mem_closure_iff_implied.symm

theorem ascending_sorted (levels : Levels) :
    levels.ascending.Pairwise fun above below => above.1 < below.1 :=
  ExtTreeMap.ordered_keys_toList.imp fun less => Nat.compare_eq_lt.mp less

theorem Holds.mem_ascending (holds : levels.Holds selected) {level : Nat} {chains : ChainSet} :
    (level, chains) ∈ levels.ascending ↔ chains = levels.chainsAt level ∧ chains ≠ ∅ := by
  rw [ascending, ExtTreeMap.mem_toList_iff_getElem?_eq_some]
  constructor
  · intro found
    refine ⟨?_, holds.occupied level chains found⟩
    rw [chainsAt, ExtTreeMap.getD_eq_getD_getElem?, found, Option.getD_some]
  · intro found
    obtain ⟨rfl, occupied⟩ := found
    rw [chainsAt, ExtTreeMap.getD_eq_getD_getElem?] at occupied ⊢
    cases found : levels.buckets[level]? with
    | none => rw [found] at occupied; exact absurd rfl occupied
    | some chains => rfl

def chainsOf (levels : List (Nat × ChainSet)) : List Chain :=
  levels.flatMap fun level => level.2.toList

theorem chainsOf_concat (levels : List (Nat × ChainSet)) (level : Nat × ChainSet) :
    chainsOf (levels ++ [level]) = chainsOf levels ++ level.2.toList := by
  simp [chainsOf]

def inOrder (levels : Levels) : List Chain := chainsOf levels.ascending

def parentsOf (levels : List (Nat × ChainSet)) : List Chain :=
  levels.flatMap fun level => (runsBy Plan.parentOf? level.2.toList).filterMap Prod.fst

theorem parentsOf_concat (levels : List (Nat × ChainSet)) (level : Nat × ChainSet) :
    parentsOf (levels ++ [level]) =
      parentsOf levels ++ (runsBy Plan.parentOf? level.2.toList).filterMap Prod.fst := by
  simp [parentsOf]

def parents (levels : Levels) : List Chain := parentsOf levels.descending

section Closure

variable {spec : Spec} (holds : levels.Holds (· ∈ spec.closure))

include holds

theorem Holds.toList_chainsAt (level : Nat) :
    (levels.chainsAt level).toList =
      spec.closure.toList.filter fun chain => chain.length = level := by
  rw [← ExtTreeSet.toList_filter]
  congr 1
  apply ExtTreeSet.ext_mem
  intro chain
  rw [holds.mem_chainsAt, ExtTreeSet.mem_filter]
  simp only [ExtTreeSet.get_eq, decide_eq_true_eq, exists_prop]

theorem Holds.mem_level {level : Nat} {chains : ChainSet}
    (found : (level, chains) ∈ levels.ascending) {chain : Chain} :
    chain ∈ chains.toList ↔ chain ∈ spec.closure ∧ chain.length = level := by
  rw [(holds.mem_ascending.mp found).1, ExtTreeSet.mem_toList, holds.mem_chainsAt]

theorem Holds.mem_inOrder {chain : Chain} : chain ∈ levels.inOrder ↔ chain ∈ spec.closure := by
  simp only [inOrder, chainsOf, List.mem_flatMap, Prod.exists]
  constructor
  · intro found
    obtain ⟨level, chains, found, inside⟩ := found
    exact ((holds.mem_level found).mp inside).1
  · intro selected
    have there : chain ∈ levels.chainsAt chain.length :=
      (holds.mem_chainsAt _ _).mpr ⟨selected, rfl⟩
    exact ⟨_, _, holds.mem_ascending.mpr ⟨rfl, ExtTreeSet.ne_empty_of_mem there⟩,
      ExtTreeSet.mem_toList.mpr there⟩

theorem Holds.inOrder_sorted : levels.inOrder.Pairwise Chain.Before := by
  refine List.pairwise_flatMap.mpr ⟨?_, ?_⟩
  · intro level found
    obtain ⟨level, chains⟩ := level
    apply (ExtTreeSet.ordered_toList (t := chains)).imp_of_mem
    intro a b left right less
    have one := ((holds.mem_level found).mp left).2
    have other := ((holds.mem_level found).mp right).2
    exact .inr ⟨one.trans other.symm, less⟩
  · apply levels.ascending_sorted.imp_of_mem
    intro a b left right less x above y below
    have one := ((holds.mem_level left).mp above).2
    have other := ((holds.mem_level right).mp below).2
    exact .inl (by omega)

theorem Holds.mem_done {done rest : List Chain} {chain other : Chain}
    (split : levels.inOrder = done ++ chain :: rest) (selected : other ∈ spec.closure)
    (before : ¬ chain.Before other) (different : other ≠ chain) : other ∈ done := by
  have sorted := holds.inOrder_sorted
  have seen := holds.mem_inOrder.mpr selected
  rw [split] at sorted seen
  rcases List.mem_append.mp seen with done | rest
  · exact done
  · rcases List.mem_cons.mp rest with rfl | later
    · exact absurd rfl different
    · have ordered := (List.pairwise_append.mp sorted).2.1
      exact absurd ((List.pairwise_cons.mp ordered).1 other later) before

theorem Holds.filter_chainsAt {level : Nat} {parent : Chain} (above : parent.length + 1 = level) :
    (levels.chainsAt level).toList.filter (fun chain => Plan.parentOf? chain = some parent) =
      spec.children parent := by
  rw [holds.toList_chainsAt, List.filter_filter, Spec.children]
  apply List.filter_congr
  intro chain _
  by_cases child : Plan.parentOf? chain = some parent
  · obtain ⟨segment, rfl⟩ := Plan.parentOf?_eq_some.mp child
    simp [above]
  · simp [child]

theorem Holds.mem_families {level : Nat} {parent? : Option Chain} {family : List Chain} :
    (parent?, family) ∈ runsBy Plan.parentOf? (levels.chainsAt level).toList ↔
      ∃ parent, parent? = some parent ∧ parent.length + 1 = level ∧
        family = spec.children parent ∧ family ≠ [] := by
  have flat : ∀ chain ∈ (levels.chainsAt level).toList, chain ≠ [] ∧ chain.length = level := by
    intro chain member
    have there := ExtTreeSet.mem_toList.mp member
    obtain ⟨selected, length⟩ := (holds.mem_chainsAt level chain).mp there
    exact ⟨Spec.ne_nil_of_mem_closure selected, length⟩
  have ascend := Plan.parents_ascend ExtTreeSet.ordered_toList fun chain member =>
    (flat chain member).2
  rw [mem_runsBy_iff ascend]
  constructor
  · intro found
    obtain ⟨rfl, occupied⟩ := found
    obtain ⟨chain, inside⟩ := List.exists_mem_of_ne_nil _ occupied
    obtain ⟨member, child⟩ := List.mem_filter.mp inside
    obtain ⟨proper, length⟩ := flat chain member
    have up : parent? = some chain.dropLast :=
      (of_decide_eq_true child).symm.trans (if_neg (by simpa using proper))
    subst up
    have above : chain.dropLast.length + 1 = level := by
      rw [List.length_dropLast]
      have := List.length_pos_iff.mpr proper
      omega
    exact ⟨chain.dropLast, rfl, above, holds.filter_chainsAt above, occupied⟩
  · intro found
    obtain ⟨parent, rfl, above, rfl, occupied⟩ := found
    exact ⟨(holds.filter_chainsAt above).symm, occupied⟩

theorem Holds.mem_parents {parent : Chain} :
    parent ∈ levels.parents ↔ spec.children parent ≠ [] := by
  simp only [parents, parentsOf, descending, List.mem_flatMap, List.mem_reverse, List.mem_filterMap,
    Prod.exists]
  constructor
  · intro found
    obtain ⟨level, chains, found, parent?, family, member, rfl⟩ := found
    rw [(holds.mem_ascending.mp found).1] at member
    obtain ⟨other, same, -, rfl, occupied⟩ := holds.mem_families.mp member
    cases same
    exact occupied
  · intro occupied
    obtain ⟨child, inside⟩ := List.exists_mem_of_ne_nil _ occupied
    have there : child ∈ levels.chainsAt child.length :=
      (holds.mem_chainsAt _ _).mpr ⟨Spec.mem_closure_of_mem_children inside, rfl⟩
    refine ⟨_, _, holds.mem_ascending.mpr ⟨rfl, ExtTreeSet.ne_empty_of_mem there⟩, some parent,
      spec.children parent, holds.mem_families.mpr ⟨parent, rfl, ?_, rfl, occupied⟩, rfl⟩
    exact (Spec.length_of_mem_children inside).symm

theorem Holds.length_of_mem_families {level : Nat} {chains : ChainSet}
    (found : (level, chains) ∈ levels.ascending) {parent? : Option Chain} {family : List Chain}
    (member : (parent?, family) ∈ runsBy Plan.parentOf? chains.toList) {parent : Chain}
    (named : parent? = some parent) : parent.length + 1 = level := by
  rw [(holds.mem_ascending.mp found).1] at member
  obtain ⟨other, same, above, -, -⟩ := holds.mem_families.mp member
  rw [named, Option.some_inj] at same
  exact same ▸ above

theorem Holds.parents_sorted : levels.parents.Pairwise fun a b =>
    b.length < a.length ∨ (a.length = b.length ∧ compare a b = .lt) := by
  refine List.pairwise_flatMap.mpr ⟨?_, ?_⟩
  · intro level member
    obtain ⟨level, chains⟩ := level
    have found := List.mem_reverse.mp member
    have flat : ∀ chain ∈ chains.toList, chain.length = level :=
      fun chain inside => ((holds.mem_level found).mp inside).2
    have sorted := runsBy_keys_sorted (Plan.parents_ascend ExtTreeSet.ordered_toList flat)
    refine List.pairwise_filterMap.mpr (sorted.imp_of_mem fun {run run'} one other less => ?_)
    intro a named b named'
    have level := holds.length_of_mem_families found one named
    have level' := holds.length_of_mem_families found other named'
    rw [named, named'] at less
    exact .inr ⟨by omega, less⟩
  · apply List.pairwise_reverse.mpr
    apply levels.ascending_sorted.imp_of_mem
    intro a b one other less x inside y inside'
    obtain ⟨run, member, named⟩ := List.mem_filterMap.mp inside
    obtain ⟨run', member', named'⟩ := List.mem_filterMap.mp inside'
    have level := holds.length_of_mem_families other member named
    have level' := holds.length_of_mem_families one member' named'
    exact .inl (by omega)

/-- When the turn of a parent comes its children have been served and it has not. -/
theorem Holds.parents_split {done rest : List Chain} {parent : Chain}
    (split : levels.parents = done ++ parent :: rest) :
    parent ∉ done ∧ (∀ child ∈ spec.children parent, spec.children child = [] ∨ child ∈ done) ∧
      ∀ other ∈ done, parent ∉ spec.children other := by
  have sorted := holds.parents_sorted
  rw [split] at sorted
  obtain ⟨-, ordered, before⟩ := List.pairwise_append.mp sorted
  refine ⟨fun member => ?_, fun child inside => ?_, fun other member child => ?_⟩
  · rcases before parent member parent (by simp) with deeper | ⟨-, less⟩
    · omega
    · exact ne_of_compare_eq_lt less rfl
  · apply (em (spec.children child = [])).imp_right
    intro occupied
    have deeper := Spec.length_of_mem_children inside
    have member := holds.mem_parents.mpr occupied
    rw [split] at member
    rcases List.mem_append.mp member with done | rest
    · exact done
    · rcases List.mem_cons.mp rest with rfl | later
      · omega
      · rcases (List.pairwise_cons.mp ordered).1 child later with shallower | ⟨level, -⟩ <;> omega
  · have deeper := Spec.length_of_mem_children child
    rcases before other member parent (by simp) with shallower | ⟨level, -⟩ <;> omega

theorem Holds.parents_nodup : levels.parents.Nodup :=
  holds.parents_sorted.imp fun {a b} sorted same => by
    rcases sorted with deeper | ⟨-, less⟩
    · rw [same] at deeper
      omega
    · exact ne_of_compare_eq_lt less same

end Closure

end Levels

end PathQuery
