import PathQuery.Proofs.Path.ChainOrder

namespace PathQuery

open Std

attribute [local instance] lexOrd

inductive Context.Precedes : Context → Context → Prop where
  | plain_inline {type : Name} : Precedes .plain (.inline type)
  | plain_spread {fragment type : Name} : Precedes .plain (.spread fragment type)
  | inlines {type type' : Name} (less : compare type type' = .lt) :
      Precedes (.inline type) (.inline type')
  | inline_spread {type fragment type' : Name} : Precedes (.inline type) (.spread fragment type')
  | fragments {fragment fragment' type type' : Name} (less : compare fragment fragment' = .lt) :
      Precedes (.spread fragment type) (.spread fragment' type')
  | types {fragment type type' : Name} (less : compare type type' = .lt) :
      Precedes (.spread fragment type) (.spread fragment type')

theorem Context.compare_eq_lt_iff {a b : Context} : compare a b = .lt ↔ a.Precedes b := by
  constructor
  · intro less
    cases a with
    | plain =>
      cases b with
      | plain => cases less
      | inline type => exact .plain_inline
      | spread fragment type => exact .plain_spread
    | inline type =>
      cases b with
      | plain => cases less
      | inline type' => exact .inlines less
      | spread fragment type' => exact .inline_spread
    | spread fragment type =>
      cases b with
      | plain => cases less
      | inline type' => cases less
      | spread fragment' type' =>
        have parts : (compare fragment fragment').then (compare type type') = .lt := less
        rcases Ordering.then_eq_lt.mp parts with before | ⟨equal, before⟩
        · exact .fragments before
        · cases LawfulEqOrd.eq_of_compare equal
          exact .types before
  · intro precedes
    cases precedes with
    | plain_inline => rfl
    | plain_spread => rfl
    | inlines less => exact less
    | inline_spread => rfl
    | @fragments fragment fragment' type type' less =>
      show (compare fragment fragment').then (compare type type') = .lt
      rw [less]
      rfl
    | @types fragment type type' less =>
      show (compare fragment fragment).then (compare type type') = .lt
      rw [ReflOrd.compare_self]
      exact less

theorem KeysAscend.precedes {α : Type} {key : α → Context} {as : List α}
    (ascend : KeysAscend key as) :
    as.Pairwise fun a b => key a = key b ∨ (key a).Precedes (key b) := by
  apply List.Pairwise.imp _ ascend
  intro a b notAbove
  rcases Ordering.isLE_iff_eq_lt_or_eq_eq.mp notAbove with less | equal
  · exact .inr (Context.compare_eq_lt_iff.mp less)
  · exact .inl (LawfulEqOrd.eq_of_compare equal)

namespace Path

def context (path : Path) : Context := Plan.contextOf path.selection

theorem parent?_eq_map_parentOf? {path : Path} (selects : path.isSelection = true) :
    path.parent? = (Plan.parentOf? path.selection).map ofSelection := by
  rw [eq_ofSelection selects]
  show (if path.selection.isEmpty then none else some (ofSelection path.selection.dropLast)) =
    (if path.selection.isEmpty then none else some path.selection.dropLast).map ofSelection
  split <;> rfl

theorem parent?_eq_iff {a b : Path} (selects : a.isSelection = true)
    (selects' : b.isSelection = true) :
    a.parent? = b.parent? ↔ Plan.parentOf? a.selection = Plan.parentOf? b.selection := by
  have injective : Function.Injective ofSelection := fun _ _ same => congrArg selection same
  rw [parent?_eq_map_parentOf? selects, parent?_eq_map_parentOf? selects']
  exact (Option.map_injective injective).eq_iff

end Path

namespace Plan

theorem contexts_ascend_of_family {family : List Chain} {parent? : Option Chain}
    (sorted : family.Pairwise fun a b => compare a b = .lt)
    (siblings : ∀ chain ∈ family, parentOf? chain = parent?) : KeysAscend contextOf family := by
  cases parent? with
  | some parent => exact contexts_ascend sorted siblings
  | none =>
    -- Only the root has no parent, and in a sorted list it is not there twice.
    have root : ∀ chain ∈ family, chain = [] := by
      intro chain member
      have none := siblings chain member
      simpa [parentOf?] using none
    apply sorted.imp_of_mem
    intro a b left right less
    rw [root a left, root b right] at less
    cases less

end Plan

def familyOf (paths : List Path) (parent? : Option Path) : List Path :=
  paths.filter fun path => path.parent? = parent?

section Level

variable {paths : List Path} (sorted : paths.Pairwise fun a b => compare a b = .lt)
  (selects : ∀ path ∈ paths, path.isSelection = true)

include sorted selects

theorem selections_sorted :
    (paths.map Path.selection).Pairwise fun a b => compare a b = .lt := by
  apply List.pairwise_map.mpr
  apply sorted.imp_of_mem
  intro a b left right less
  rw [Path.eq_ofSelection (selects a left), Path.eq_ofSelection (selects b right),
    compare_ofSelection] at less
  exact less

theorem parents_gathered {level : Nat} (flat : ∀ path ∈ paths, path.level = level) :
    Gathered Plan.parentOf? (paths.map Path.selection) := by
  have flat : ∀ chain ∈ paths.map Path.selection, chain.length = level := by
    intro chain member
    obtain ⟨path, listed, rfl⟩ := List.mem_map.mp member
    exact flat path listed
  exact (Plan.parents_ascend (selections_sorted sorted selects) flat).gathered

theorem parents_consecutive {level : Nat} (flat : ∀ path ∈ paths, path.level = level) :
    Consecutive Path.parent? paths := by
  intro a b c inside same
  have selection : ∀ path ∈ [a, b, c], path.isSelection = true :=
    fun path member => selects path (inside.subset member)
  have first := selection a (by simp)
  rw [Path.parent?_eq_iff first (selection c (by simp))] at same
  rw [Path.parent?_eq_iff (selection b (by simp)) first]
  exact (parents_gathered sorted selects flat).consecutive _ _ _ (inside.map Path.selection) same

theorem contexts_ascend_below (parent? : Option Path) :
    KeysAscend Path.context (familyOf paths parent?) := by
  have listed : ∀ path ∈ familyOf paths parent?, path.isSelection = true :=
    fun path member => selects path (List.mem_of_mem_filter member)
  have ordered : ((familyOf paths parent?).map Path.selection).Pairwise
      fun a b => compare a b = .lt :=
    selections_sorted (sorted.filter _) listed
  have siblings : ∀ chain ∈ (familyOf paths parent?).map Path.selection,
      Plan.parentOf? chain = parent?.map Path.selection := by
    intro chain member
    obtain ⟨path, inside, rfl⟩ := List.mem_map.mp member
    have above := of_decide_eq_true (List.mem_filter.mp inside).2
    have same : Path.selection ∘ Path.ofSelection = id := rfl
    rw [← above, Path.parent?_eq_map_parentOf? (listed path inside), Option.map_map, same,
      Option.map_id_apply]
  exact List.pairwise_map.mp (Plan.contexts_ascend_of_family ordered siblings)

theorem contexts_ascend_in_run {parent? : Option Chain} {family : List Chain}
    (member : (parent?, family) ∈ runsBy Plan.parentOf? (paths.map Path.selection))
    {level : Nat} (flat : ∀ path ∈ paths, path.level = level) :
    KeysAscend Plan.contextOf family := by
  have whole := (((parents_gathered sorted selects flat).mem_iff parent? family).mp member).1
  have ordered : family.Pairwise fun a b => compare a b = .lt := by
    rw [whole]
    exact (selections_sorted sorted selects).filter _
  exact Plan.contexts_ascend_of_family ordered fun _ inside => key_of_mem_run member inside

end Level

/-- Among selections of one level, each once and in path order, those with one parent are
consecutive. Among these, those in one context are: plain ones first, then the inline fragments by
type, then the spreads by fragment and type. Cut wherever the parent changes, such a list has one
run for each parent, with all its children; cut wherever the context changes, that run has one run
for each context, and they stand in the order of contexts. -/
theorem siblings_stand_together {paths : List Path} {level : Nat}
    (sorted : paths.Pairwise fun a b => compare a b = .lt)
    (selects : ∀ path ∈ paths, path.isSelection = true)
    (flat : ∀ path ∈ paths, path.level = level) :
    Consecutive Path.parent? paths ∧
    (∀ parent?,
      Consecutive Path.context (familyOf paths parent?) ∧
      (familyOf paths parent?).Pairwise fun a b =>
        a.context = b.context ∨ a.context.Precedes b.context) ∧
    (∀ path ∈ paths, path.parent? = (Plan.parentOf? path.selection).map Path.ofSelection) ∧
    Gathered Plan.parentOf? (paths.map Path.selection) ∧
    ∀ parent? family, (parent?, family) ∈ runsBy Plan.parentOf? (paths.map Path.selection) →
      Gathered Plan.contextOf family ∧
      (runsBy Plan.contextOf family).Pairwise fun first second => first.1.Precedes second.1 := by
  refine ⟨parents_consecutive sorted selects flat, fun parent? => ?_, fun path listed => ?_,
    parents_gathered sorted selects flat, fun parent? family member => ?_⟩
  · have ascend := contexts_ascend_below sorted selects parent?
    exact ⟨ascend.gathered.consecutive, ascend.precedes⟩
  · exact Path.parent?_eq_map_parentOf? (selects path listed)
  · have ascend := contexts_ascend_in_run sorted selects member flat
    exact ⟨ascend.gathered, (runsBy_keys_sorted ascend).imp Context.compare_eq_lt_iff.mp⟩

namespace Sample

def pier : Segment := .plain (.of "pier")

def pierside : List Chain :=
  let berth : Name := .of "berth"
  let crane : Name := .of "crane"
  let barge : Name := .of "Barge"
  let tug : Name := .of "Tug"
  [[pier, .plain berth], [pier, ⟨.plain, berth, some (.of "slip")⟩], [pier, .plain crane],
    [pier, ⟨.inline barge, berth, none⟩], [pier, ⟨.inline barge, crane, none⟩],
    [pier, ⟨.inline tug, berth, none⟩],
    [pier, ⟨.spread (.of "Crew") tug, crane, none⟩],
    [pier, ⟨.spread (.of "Load") barge, berth, none⟩],
    [pier, ⟨.spread (.of "Load") tug, berth, none⟩]]

def harbour : List Path :=
  pierside.map .ofSelection ++ [.ofSelection [.plain (.of "quay"), .plain (.of "berth")]]

end Sample

theorem siblings_stand_together_harbour :
    (Sample.harbour.Pairwise fun a b => compare a b = .lt) ∧
    (∀ path ∈ Sample.harbour, path.isSelection = true) ∧
    (∀ path ∈ Sample.harbour, path.level = 2) ∧
    Consecutive Path.parent? Sample.harbour ∧
    Gathered Plan.parentOf? (Sample.harbour.map Path.selection) ∧
    Gathered Plan.contextOf Sample.pierside ∧
    (runsBy Plan.contextOf Sample.pierside).Pairwise
      (fun first second => first.1.Precedes second.1) ∧
    (runsBy Plan.contextOf Sample.pierside).map (fun run => run.2.length) = [3, 2, 1, 1, 1, 1] := by
  have sorted : Sample.harbour.Pairwise fun a b => compare a b = .lt := by decide +kernel
  have selects : ∀ path ∈ Sample.harbour, path.isSelection = true := by decide +kernel
  have flat : ∀ path ∈ Sample.harbour, path.level = 2 := by decide +kernel
  have run : (some [Sample.pier], Sample.pierside) ∈
      runsBy Plan.parentOf? (Sample.harbour.map Path.selection) := by decide +kernel
  obtain ⟨consecutive, -, -, parents, families⟩ := siblings_stand_together sorted selects flat
  obtain ⟨contexts, ordered⟩ := families _ _ run
  exact ⟨sorted, selects, flat, consecutive, parents, contexts, ordered, by decide +kernel⟩

end PathQuery
