import PathQuery.Proofs.Literal.Number
import PathQuery.Proofs.Literal.Canonical
import Mathlib.Data.List.Forall2

namespace PathQuery

open Std

section ByKey

variable {α β : Type}

theorem getElem?_ofList (members : List (String × α)) (key : String) :
    (ExtTreeMap.ofList members compare)[key]? = members.reverse.lookup key := by
  rw [ExtTreeMap.ofList_eq_insertMany_empty, ExtTreeMap.getElem?_insertMany_list,
    ExtTreeMap.getElem?_empty, Option.or_none, List.findSomeRev?_eq_findSome?_reverse]
  induction members.reverse with
  | nil => rfl
  | cons member rest ih =>
    obtain ⟨other, value⟩ := member
    rw [List.findSome?_cons, List.lookup_cons, ih]
    by_cases same : key = other
    · subst same
      simp
    · rw [beq_false_of_ne same]
      simp [Ne.symm same]

theorem byKey_eq_iff {members members' : List (String × α)} : byKey members = byKey members' ↔
    ∀ key, members.reverse.lookup key = members'.reverse.lookup key := by
  unfold byKey
  rw [ExtTreeMap.toList_inj]
  constructor
  · intro same key
    rw [← getElem?_ofList, ← getElem?_ofList, same]
  · intro same
    refine ExtTreeMap.ext_getElem? fun {key} => ?_
    rw [getElem?_ofList, getElem?_ofList, same]

theorem lookup_map_snd (f : α → β) (members : List (String × α)) (key : String) :
    (members.map fun member => (member.1, f member.2)).lookup key = (members.lookup key).map f := by
  induction members with
  | nil => rfl
  | cons member rest ih =>
    obtain ⟨other, value⟩ := member
    rw [List.map_cons, List.lookup_cons, List.lookup_cons, ih]
    cases key == other <;> rfl

end ByKey

theorem rel_iff_map_eq {α β : Type} {f : α → β} {a b : Option α} :
    Option.Rel (fun a b => f a = f b) a b ↔ a.map f = b.map f := by
  cases a <;> cases b <;> simp

namespace Literal

theorem canonicalItems_eq_map (items : List Literal) :
    canonicalItems items = items.map canonical := by
  induction items with
  | nil => rfl
  | cons item rest ih => rw [canonicalItems, ih, List.map_cons]

theorem canonicalMembers_eq_map (members : List (String × Literal)) :
    canonicalMembers members = members.map fun member => (member.1, member.2.canonical) := by
  induction members with
  | nil => rfl
  | cons member rest ih => rw [canonicalMembers, ih, List.map_cons]

theorem same_number_iff {a b : Number} : (number a).Same (number b) ↔ a.text = b.text := by
  constructor
  · intro same
    cases same
    rfl
  · intro same
    rw [Number.text_injective same]
    rfl

theorem same_array_iff {as bs : List Literal} :
    (array as).Same (array bs) ↔ List.Forall₂ Same as bs := by
  simp only [Same, canonical, canonicalItems_eq_map, array.injEq]
  rw [← List.forall₂_eq_eq_eq, List.forall₂_map_left_iff, List.forall₂_map_right_iff]
  rfl

theorem same_object_iff {members members' : List (String × Literal)} :
    (object members).Same (object members') ↔
      ∀ key, Option.Rel Same (members.reverse.lookup key) (members'.reverse.lookup key) := by
  simp only [Same, canonical, canonicalMembers_eq_map, object.injEq, byKey_eq_iff,
    ← List.map_reverse, lookup_map_snd canonical]
  exact forall_congr' fun key => rel_iff_map_eq.symm

/-- Two literals of one kind whose parts are the same; of a repeated key the last value counts. -/
def SameParts : Literal → Literal → Prop
  | null, null => True
  | bool a, bool b => a = b
  | number a, number b => a.text = b.text
  | string a, string b => a = b
  | array as, array bs => List.Forall₂ Same as bs
  | object members, object members' =>
    ∀ key, Option.Rel Same (members.reverse.lookup key) (members'.reverse.lookup key)
  | _, _ => False

theorem same_iff_sameParts (a b : Literal) : a.Same b ↔ a.SameParts b := by
  cases a with
  | number a =>
    cases b with
    | number b => exact same_number_iff
    | _ => simp [Same, canonical, SameParts]
  | array as =>
    cases b with
    | array bs => exact same_array_iff
    | _ => simp [Same, canonical, SameParts]
  | object members =>
    cases b with
    | object members' => exact same_object_iff
    | _ => simp [Same, canonical, SameParts]
  | _ => cases b <;> simp [Same, canonical, SameParts]

end Literal

end PathQuery
