import PathQuery.Proofs.Levels
import PathQuery.Proofs.Path.Ancestors

namespace PathQuery

open Std

def deepest (paths : List Path) : Nat :=
  ((paths.filter Path.isSelection).map Path.level).max?.getD 0

section Paths

variable {paths : List Path} {chain : Chain} {level : Nat}

theorem le_deepest_iff (positive : 1 ≤ level) :
    level ≤ deepest paths ↔ ∃ path ∈ paths, path.isSelection = true ∧ level ≤ path.level := by
  unfold deepest
  cases top : ((paths.filter Path.isSelection).map Path.level).max? with
  | none =>
    have bare := List.map_eq_nil_iff.mp (List.max?_eq_none_iff.mp top)
    constructor
    · intro below
      rw [Option.getD_none] at below
      omega
    · intro found
      obtain ⟨path, listed, selects, -⟩ := found
      exact absurd selects (List.filter_eq_nil_iff.mp bare path listed)
  | some depth =>
    obtain ⟨attained, bound⟩ := List.max?_eq_some_iff.mp top
    rw [Option.getD_some]
    constructor
    · intro below
      obtain ⟨path, inside, rfl⟩ := List.mem_map.mp attained
      obtain ⟨listed, selects⟩ := List.mem_filter.mp inside
      exact ⟨path, listed, selects, below⟩
    · intro found
      obtain ⟨path, listed, selects, below⟩ := found
      have inside := List.mem_map_of_mem (f := Path.level) (List.mem_filter.mpr ⟨listed, selects⟩)
      exact below.trans (bound _ inside)

theorem implied_and_length_iff :
    Implied paths chain ∧ chain.length = level ↔
      1 ≤ level ∧ ∃ path ∈ paths, path.isSelection = true ∧ level ≤ path.level ∧
        chain = path.selection.take level := by
  constructor
  · intro found
    obtain ⟨⟨proper, path, listed, selects, above⟩, rfl⟩ := found
    exact ⟨List.length_pos_iff.mpr proper, path, listed, selects, above.length_le,
      List.prefix_iff_eq_take.mp above⟩
  · intro found
    obtain ⟨positive, path, listed, selects, long, rfl⟩ := found
    exact ⟨⟨Levels.take_ne_nil positive long, path, listed, selects, List.take_prefix _ _⟩,
      List.length_take_of_le long⟩

theorem exists_implied_iff :
    (∃ chain, Implied paths chain ∧ chain.length = level) ↔ 1 ≤ level ∧ level ≤ deepest paths := by
  simp only [implied_and_length_iff]
  constructor
  · intro found
    obtain ⟨chain, positive, path, listed, selects, long, -⟩ := found
    exact ⟨positive, (le_deepest_iff positive).mpr ⟨path, listed, selects, long⟩⟩
  · intro bounds
    obtain ⟨positive, bound⟩ := bounds
    obtain ⟨path, listed, selects, long⟩ := (le_deepest_iff positive).mp bound
    exact ⟨_, positive, path, listed, selects, long, rfl⟩

theorem upward_implied (paths : List Path) : Levels.Upward (Implied paths) := by
  intro chain above implied up proper
  obtain ⟨-, path, listed, selects, below⟩ := implied
  exact ⟨proper, path, listed, selects, up.trans below⟩

end Paths

/-- The selection of a path and those above it, the root excepted. -/
def Path.lineage (path : Path) : List Chain :=
  ((path :: path.ancestors).filter fun above => !above.isRoot).map selection

theorem Path.mem_lineage {path : Path} (selects : path.isSelection = true) {chain : Chain} :
    chain ∈ path.lineage ↔ chain ≠ [] ∧ chain <+: path.selection := by
  rw [eq_ofSelection selects, lineage, ancestors_selection, ← List.map_cons]
  generalize path.selection = whole
  have proper : (!(ofSelection chain).isRoot) = true ↔ chain ≠ [] := by
    simp [isRoot, ofSelection, isSelection]
  have same : selection ∘ ofSelection = id := rfl
  rw [List.filter_map, List.map_map, same, List.map_id, List.mem_filter, mem_cons_properPrefixes,
    and_comm]
  exact and_congr_left' proper

namespace Levels

variable {levels : Levels} {selected : Chain → Prop}

def insertLineage (levels : Levels) (path : Path) : Levels :=
  if path.isSelection then path.lineage.foldl add levels else levels

def ParentClosed (levels : Levels) : Prop :=
  ∀ chain parent, levels.contains chain = true → (Path.ofSelection chain).parent? = some parent →
    parent = .root ∨ levels.contains parent.selection = true

theorem Holds.parentClosed (holds : levels.Holds selected) (upward : Upward selected) :
    levels.ParentClosed := by
  intro chain parent there up
  rcases List.eq_nil_or_concat' chain with rfl | ⟨front, segment, rfl⟩
  · cases up
  · rw [Path.parent?_segment, Option.some_inj] at up
    subst up
    apply (em (front = [])).imp
    · intro top
      rw [top]
      rfl
    · intro proper
      have below := (holds.contains_iff _).mp there
      exact (holds.contains_iff front).mpr (upward _ _ below (List.prefix_append _ _) proper)

theorem Holds.foldl_add (holds : levels.Holds selected) (chains : List Chain) :
    (chains.foldl Levels.add levels).Holds fun c => selected c ∨ c ∈ chains := by
  induction chains generalizing levels selected with
  | nil => exact holds.congr fun c => by simp
  | cons chain rest ih =>
    exact (ih (holds.add chain)).congr fun c => by rw [List.mem_cons, or_assoc]

/-- The early stop makes no difference where nothing is there without what is above it. -/
theorem Holds.insertPath_eq (holds : levels.Holds selected) (upward : Upward selected)
    (path : Path) : levels.insertPath path = levels.insertLineage path := by
  unfold insertPath insertLineage
  split
  · next selects =>
    -- Both hold the prefixes of the selection besides, and nothing else tells levels apart.
    refine (holds.insert upward path.selection).unique ?_
    exact (holds.foldl_add path.lineage).congr fun c => by rw [Path.mem_lineage selects]
  · rfl

theorem Holds.foldl_insertPath_eq (holds : levels.Holds selected) (upward : Upward selected)
    (paths : List Path) : paths.foldl insertPath levels = paths.foldl insertLineage levels := by
  induction paths generalizing levels selected with
  | nil => rfl
  | cons path rest ih =>
    rw [List.foldl_cons, List.foldl_cons, ← holds.insertPath_eq upward, insertPath]
    split
    · exact ih (holds.insert upward path.selection) (upward.insert path.selection)
    · exact ih holds upward

def numbered (levels : Levels) (level : Nat) : Nat × ChainSet := (level, levels.chainsAt level)

theorem Holds.chainsAt_ne_empty_iff (holds : levels.Holds selected) {level : Nat} :
    levels.chainsAt level ≠ ∅ ↔ ∃ chain, selected chain ∧ chain.length = level := by
  constructor
  · intro occupied
    by_contra none
    refine occupied (ExtTreeSet.eq_empty_iff_forall_not_mem.mpr fun chain there => none ?_)
    exact ⟨chain, (holds.mem_chainsAt level chain).mp there⟩
  · intro found
    obtain ⟨chain, there⟩ := found
    exact ExtTreeSet.ne_empty_of_mem ((holds.mem_chainsAt level chain).mpr there)

theorem Holds.ascending_eq_numbered (holds : levels.Holds selected) {depth : Nat}
    (reaches : ∀ level, (∃ chain, selected chain ∧ chain.length = level) ↔
      1 ≤ level ∧ level ≤ depth) :
    levels.ascending = (List.range' 1 depth).map levels.numbered := by
  have sorted : ((List.range' 1 depth).map levels.numbered).Pairwise
      fun above below => compare above.1 below.1 = .lt :=
    List.pairwise_map.mpr
      ((List.pairwise_lt_range' 1 (by decide)).imp fun less => Nat.compare_eq_lt.mpr less)
  refine eq_of_keys_sorted
    (levels.ascending_sorted.imp fun less => Nat.compare_eq_lt.mpr less) sorted fun level => ?_
  obtain ⟨level, chains⟩ := level
  rw [holds.mem_ascending, List.mem_map]
  constructor
  · intro found
    obtain ⟨rfl, occupied⟩ := found
    have bounds := (reaches level).mp (holds.chainsAt_ne_empty_iff.mp occupied)
    exact ⟨level, List.mem_range'_1.mpr (by omega), rfl⟩
  · intro found
    obtain ⟨_, inside, same⟩ := found
    obtain ⟨rfl, rfl⟩ := Prod.mk.inj same
    have bounds := List.mem_range'_1.mp inside
    exact ⟨rfl, holds.chainsAt_ne_empty_iff.mpr ((reaches _).mpr (by omega))⟩

/-- A level of a list of paths holds the prefixes of that length of the selections in the list and
nothing else. The levels go from one to the depth of the deepest selection, and with each selection
the one above it is there. It makes no difference if everything above a selection is added every
time, or if the selections come in path order, each of them once, and no other paths do. -/
theorem ofPaths_holds_prefixes (paths : List Path) :
    (∀ level chain, chain ∈ (ofPaths paths).chainsAt level ↔
      1 ≤ level ∧ ∃ path ∈ paths, path.isSelection = true ∧ level ≤ path.level ∧
        chain = path.selection.take level) ∧
    (ofPaths paths).ascending = (List.range' 1 (deepest paths)).map (ofPaths paths).numbered ∧
    (ofPaths paths).ParentClosed ∧
    ofPaths paths = paths.foldl insertLineage empty ∧
    ofPaths paths = ofPaths (PathSet.ofList (paths.filter Path.isSelection)).toList := by
  have holds := holds_ofPaths paths
  refine ⟨fun level chain => ?_, ?_, ?_, ?_, ?_⟩
  · exact (holds.mem_chainsAt level chain).trans implied_and_length_iff
  · exact holds.ascending_eq_numbered fun level => exists_implied_iff
  · exact holds.parentClosed (upward_implied paths)
  · exact holds_empty.foldl_insertPath_eq (fun _ _ no => no.elim) paths
  · refine holds.unique ((holds_ofPaths _).congr fun chain => ?_)
    simp only [Implied, ExtTreeSet.mem_toList, PathSet.mem_ofList, List.mem_filter, and_assoc,
      and_self_left]

/-- What is above the deeper selections is there as well, and an argument leaves nothing. -/
example :
    let river : Segment := .plain (.of "river")
    let mouth : Segment := .plain (.of "mouth")
    let source : Segment := ⟨.inline (.of "Spring"), .of "source", none⟩
    let tide : Path := (Path.ofSelection [mouth]).argumentPath (.of "tide")
    let levels := ofPaths [.ofSelection [river, mouth, source], tide, .root,
      .ofSelection [river, source], .ofSelection [river, mouth]]
    levels.ascending.map (fun level => (level.1, level.2.toList)) =
      [(1, [[river]]), (2, [[river, mouth], [river, source]]), (3, [[river, mouth, source]])] := by
  decide +kernel

/-- With a selection that came without the one above it the early stop would leave that one out. -/
example :
    let mouth : Path := .ofFields [.of "river", .of "mouth"]
    let levels := empty.add mouth.selection
    (levels.insertPath mouth).ascending.length = 1 ∧
      (levels.insertLineage mouth).ascending.length = 2 := by
  decide +kernel

end Levels

end PathQuery
