import Mathlib.Data.List.Induction
import PathQuery.Proofs.Path.TotalOrder

namespace PathQuery

open Std

attribute [local instance] lexOrd

def properPrefixes {α : Type} (as : List α) : List (List α) :=
  (List.range as.length).reverse.map as.take

theorem properPrefixes_concat {α : Type} (front : List α) (last : α) :
    properPrefixes (front ++ [last]) = front :: properPrefixes front := by
  have same : ∀ n ∈ (List.range front.length).reverse,
      (front ++ [last]).take n = front.take n := by
    intro n member
    have within : n < front.length := by simpa using member
    exact List.take_append_of_le_length (Nat.le_of_lt within)
  simp only [properPrefixes, List.length_append, List.length_singleton, List.range_succ,
    List.reverse_append, List.reverse_singleton, List.singleton_append, List.map_cons,
    List.take_left, List.map_congr_left same]

theorem mem_cons_properPrefixes {α : Type} {as whole : List α} :
    as ∈ whole :: properPrefixes whole ↔ as <+: whole := by
  simp only [properPrefixes, List.mem_cons, List.mem_map, List.mem_reverse, List.mem_range]
  constructor
  · intro either
    rcases either with rfl | ⟨n, -, rfl⟩
    · exact List.prefix_rfl
    · exact List.take_prefix n whole
  · intro beginning
    rcases Nat.lt_or_eq_of_le beginning.length_le with shorter | equal
    · exact .inr ⟨as.length, shorter, (List.prefix_iff_eq_take.mp beginning).symm⟩
    · exact .inl (beginning.eq_of_length equal)

def Attachment.enclosing (attachment : Attachment) : List Attachment :=
  (properPrefixes attachment.subPath).map fun keys => ⟨attachment.name, keys⟩

theorem Attachment.enclosing_concat (name : Name) (front : List Name) (key : Name) :
    enclosing ⟨name, front ++ [key]⟩ = ⟨name, front⟩ :: enclosing ⟨name, front⟩ := by
  rw [enclosing, properPrefixes_concat]
  rfl

def Target.Hangs (hang : Attachment → Target) : Prop := hang = .argument ∨ hang = .directive

namespace Path

def up? (path : Path) : Nat → Option Path
  | 0 => some path
  | n + 1 => (path.up? n).bind parent?

inductive Step : Path → Path → Prop where
  | segment (front : Chain) (segment : Segment) :
      Step (ofSelection (front ++ [segment])) (ofSelection front)
  | key {hang : Attachment → Target} (hangs : Target.Hangs hang) (selection : Chain)
      (name : Name) (front : List Name) (key : Name) :
      Step ⟨selection, hang ⟨name, front ++ [key]⟩⟩ ⟨selection, hang ⟨name, front⟩⟩
  | whole {hang : Attachment → Target} (hangs : Target.Hangs hang) (selection : Chain)
      (name : Name) : Step ⟨selection, hang (.whole name)⟩ (ofSelection selection)

section Steps

variable {path parent : Path} {hang : Attachment → Target}

theorem parent?_segment (front : Chain) (segment : Segment) :
    (ofSelection (front ++ [segment])).parent? = some (ofSelection front) := by
  simp [parent?, ofSelection]

theorem parent?_key (hangs : Target.Hangs hang) (selection : Chain) (name : Name)
    (front : List Name) (key : Name) :
    parent? ⟨selection, hang ⟨name, front ++ [key]⟩⟩ = some ⟨selection, hang ⟨name, front⟩⟩ := by
  rcases hangs with rfl | rfl <;> simp [parent?, Attachment.parent?, Attachment.shorten]

theorem parent?_whole (hangs : Target.Hangs hang) (selection : Chain) (name : Name) :
    parent? ⟨selection, hang (.whole name)⟩ = some (ofSelection selection) := by
  rcases hangs with rfl | rfl <;> rfl

theorem eq_root_or_step (path : Path) : path = root ∨ ∃ parent, Step path parent := by
  obtain ⟨selection, target⟩ := path
  have hanging {hang : Attachment → Target} (hangs : Target.Hangs hang) (attachment : Attachment) :
      ∃ parent, Step ⟨selection, hang attachment⟩ parent := by
    obtain ⟨name, keys⟩ := attachment
    rcases List.eq_nil_or_concat' keys with rfl | ⟨front, key, rfl⟩
    · exact ⟨_, .whole hangs selection name⟩
    · exact ⟨_, .key hangs selection name front key⟩
  cases target with
  | selection =>
    rcases List.eq_nil_or_concat' selection with rfl | ⟨front, segment, rfl⟩
    · exact .inl rfl
    · exact .inr ⟨_, .segment front segment⟩
  | argument attachment => exact .inr (hanging (.inl rfl) attachment)
  | directive attachment => exact .inr (hanging (.inr rfl) attachment)

theorem Step.parent? (step : Step path parent) : path.parent? = some parent := by
  cases step with
  | segment front segment => exact parent?_segment front segment
  | key hangs selection name front key => exact parent?_key hangs selection name front key
  | whole hangs selection name => exact parent?_whole hangs selection name

theorem parent?_eq_some_iff : path.parent? = some parent ↔ Step path parent := by
  constructor
  · intro up
    rcases eq_root_or_step path with rfl | ⟨other, step⟩
    · cases up
    · rw [step.parent?] at up
      cases up
      exact step
  · exact Step.parent?

theorem parent?_eq_none_iff : path.parent? = none ↔ path = root := by
  constructor
  · intro top
    refine (eq_root_or_step path).resolve_right fun stepping => ?_
    obtain ⟨parent, step⟩ := stepping
    rw [step.parent?] at top
    cases top
  · intro atRoot
    rw [atRoot]
    rfl

theorem compare_hang (hangs : Target.Hangs hang) (a b : Attachment) :
    (compare (hang a).argument? (hang b).argument?).then
      (compare (hang a).directive? (hang b).directive?) = compare a b := by
  rcases hangs with rfl | rfl
  · exact Ordering.then_eq
  · rfl

theorem Step.less (step : Step path parent) : compare parent path = .lt := by
  rw [compare_eq_lt_iff]
  cases step with
  | segment front segment => exact .ends (List.cons_ne_nil _ _)
  | key hangs selection name front key =>
    refine .hangs ?_
    have shorter : compare front (front ++ [key]) = .lt :=
      compare_append_self_lt front (List.cons_ne_nil _ _)
    rw [compare_hang hangs]
    show (compare name name).then (compare front (front ++ [key])) = .lt
    rw [ReflOrd.compare_self, shorter]
    rfl
  | whole hangs selection name =>
    refine .hangs ?_
    rcases hangs with rfl | rfl <;> rfl

theorem ancestors_root : root.ancestors = [] := by
  rw [ancestors]
  rfl

theorem Step.ancestors (step : Step path parent) : path.ancestors = parent :: parent.ancestors := by
  rw [Path.ancestors]
  split
  · next top => rw [step.parent?] at top; cases top
  · next other up =>
    rw [step.parent?] at up
    cases up
    rfl

theorem upwards {motive : Path → Prop} (atRoot : motive root)
    (below : ∀ {path parent}, Step path parent → motive parent → motive path) (path : Path) :
    motive path := by
  fun_induction Path.ancestors path with
  | case1 path top => exact parent?_eq_none_iff.mp top ▸ atRoot
  | case2 path parent up ih => exact below (parent?_eq_some_iff.mp up) ih

end Steps

section Ancestors

variable {hang : Attachment → Target}

theorem length_ancestors (path : Path) : path.ancestors.length = path.depth := by
  induction path using upwards with
  | atRoot => rw [ancestors_root]; rfl
  | below step ih => rw [step.ancestors, List.length_cons, ih, depth_of_parent? step.parent?]

theorem getLast?_ancestors (path : Path) : (path :: path.ancestors).getLast? = some root := by
  induction path using upwards with
  | atRoot => rw [ancestors_root]; rfl
  | below step ih => rw [step.ancestors, List.getLast?_cons_cons, ih]

theorem ancestors_descend (path : Path) :
    (path :: path.ancestors).Pairwise fun below above => compare above below = .lt := by
  induction path using upwards with
  | atRoot => rw [ancestors_root]; exact List.pairwise_singleton _ _
  | below step ih =>
    rw [step.ancestors]
    refine List.pairwise_cons.mpr ⟨fun other member => ?_, ih⟩
    rcases List.mem_cons.mp member with rfl | further
    · exact step.less
    · exact TransCmp.lt_trans ((List.pairwise_cons.mp ih).1 other further) step.less

theorem up?_succ (path : Path) (n : Nat) :
    path.up? (n + 1) = path.parent?.bind fun parent => parent.up? n := by
  induction n with
  | zero => cases up : path.parent? <;> simp [up?, up]
  | succ n ih =>
    rw [up?, ih, Option.bind_assoc]
    rfl

theorem getElem?_ancestors (path : Path) (n : Nat) : path.ancestors[n]? = path.up? (n + 1) := by
  induction path using upwards generalizing n with
  | atRoot => rw [ancestors_root, up?_succ]; rfl
  | below step ih =>
    rw [step.ancestors, up?_succ, step.parent?]
    cases n with
    | zero => rfl
    | succ n => exact ih n

theorem up?_eq_none_iff {path : Path} {n : Nat} : path.up? n = none ↔ path.depth < n := by
  cases n with
  | zero => simp [up?]
  | succ n =>
    rw [← getElem?_ancestors, List.getElem?_eq_none_iff, length_ancestors]
    omega

theorem ancestors_selection (selection : Chain) :
    (ofSelection selection).ancestors = (properPrefixes selection).map ofSelection := by
  induction selection using List.reverseRecOn with
  | nil => exact ancestors_root
  | append_singleton front segment ih =>
    rw [(Step.segment front segment).ancestors, ih, properPrefixes_concat]
    rfl

theorem ancestors_hanging (hangs : Target.Hangs hang) (selection : Chain)
    (attachment : Attachment) :
    ancestors ⟨selection, hang attachment⟩ =
      (attachment.enclosing.map fun outer => ⟨selection, hang outer⟩) ++
        ofSelection selection :: (ofSelection selection).ancestors := by
  obtain ⟨name, keys⟩ := attachment
  induction keys using List.reverseRecOn with
  | nil => exact (Step.whole hangs selection name).ancestors
  | append_singleton front key ih =>
    rw [(Step.key hangs selection name front key).ancestors, ih, Attachment.enclosing_concat,
      List.map_cons, List.cons_append]

end Ancestors

/-- The parents of a path, taken one after another, end at the root: after a step for each segment
and, below an argument or directive, one for each key and one more. Each is less than the one before
it. Above a selection are its proper prefixes; above a part of an argument or directive are what
encloses it, then the selection it hangs off and what is above that. -/
theorem ancestors_lead_to_root :
    (∀ path : Path,
      (∀ n, path.ancestors[n]? = path.up? (n + 1)) ∧
      (∀ n, path.up? n = none ↔ path.level + path.target.depth < n) ∧
      path.ancestors.length = path.level + path.target.depth ∧
      (path :: path.ancestors).Pairwise (fun below above => compare above below = .lt) ∧
      (path :: path.ancestors).getLast? = some root ∧
      ∀ name, (path.argumentPath name).parent? = some path.selectionPath) ∧
    (∀ selection : Chain,
      (ofSelection selection).ancestors = (properPrefixes selection).map ofSelection) ∧
    ∀ (selection : Chain) (attachment : Attachment),
      ancestors ⟨selection, .argument attachment⟩ =
        (attachment.enclosing.map fun outer => ⟨selection, .argument outer⟩) ++
          ofSelection selection :: (ofSelection selection).ancestors ∧
      ancestors ⟨selection, .directive attachment⟩ =
        (attachment.enclosing.map fun outer => ⟨selection, .directive outer⟩) ++
          ofSelection selection :: (ofSelection selection).ancestors := by
  refine ⟨fun path => ?_, ancestors_selection, fun selection attachment => ?_⟩
  · refine ⟨getElem?_ancestors path, fun n => up?_eq_none_iff, length_ancestors path,
      ancestors_descend path, getLast?_ancestors path, fun name => ?_⟩
    exact (Step.whole (.inl rfl) path.selection name).parent?
  · exact ⟨ancestors_hanging (.inl rfl) selection attachment,
      ancestors_hanging (.inr rfl) selection attachment⟩

end Path

end PathQuery
