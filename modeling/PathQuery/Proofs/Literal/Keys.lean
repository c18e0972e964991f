import PathQuery.CompileError
import PathQuery.Proofs.Literal.Place

namespace PathQuery

open Std

theorem findSome?_congr {α β : Type} {as : List α} {f g : α → Option β}
    (same : ∀ a ∈ as, f a = g a) : as.findSome? f = as.findSome? g := by
  induction as with
  | nil => rfl
  | cons a as ih =>
    rw [List.findSome?_cons, List.findSome?_cons, same a (by simp),
      ih fun a member => same a (List.mem_cons_of_mem _ member)]

theorem exists_mem_byKey {α : Type} {members : List (String × α)} {member : String × α}
    (listed : member ∈ members) : ∃ kept ∈ byKey members, kept.1 = member.1 := by
  have known : member.1 ∈ ExtTreeMap.ofList members compare := by
    rw [ExtTreeMap.mem_ofList, List.contains_iff_mem]
    exact List.mem_map_of_mem listed
  rw [← ExtTreeMap.mem_keys, ← ExtTreeMap.map_fst_toList_eq_keys] at known
  exact List.mem_map.mp known

namespace Literal

mutual

/-- All keys in a literal, in the order that conversion meets them. -/
def keys : Literal → List String
  | array items => keysOfItems items
  | object members => (byKey (keysOfMembers members)).flatMap Prod.snd
  | null | bool _ | number _ | string _ => []

def keysOfItems : List Literal → List String
  | [] => []
  | item :: rest => item.keys ++ keysOfItems rest

def keysOfMembers : List (String × Literal) → List (String × List String)
  | [] => []
  | (key, value) :: rest => (key, key :: value.keys) :: keysOfMembers rest

end

theorem keys_array (items : List Literal) : (array items).keys = items.flatMap keys := by
  rw [keys]
  induction items with
  | nil => rfl
  | cons item rest ih => rw [keysOfItems, ih, List.flatMap_cons]

theorem keysOfMembers_eq_map (members : List (String × Literal)) :
    keysOfMembers members = members.map fun member => (member.1, member.1 :: member.2.keys) := by
  induction members with
  | nil => rfl
  | cons member rest ih => rw [keysOfMembers, ih, List.map_cons]

theorem keys_object (members : List (String × Literal)) : (object members).keys =
    (byKey members).flatMap fun member => member.1 :: member.2.keys := by
  rw [keys, keysOfMembers_eq_map, byKey_map fun key value => key :: keys value, List.flatMap_map]

def badKey? (literal : Literal) : Option String :=
  literal.keys.find? fun key => (Name.ofString? key).isNone

variable {view : SchemaView} {type? : Option TypeRef} {literal part : Literal} {key : String}

theorem fault?_toMember (key : String) (convert : Name → Except String Value) :
    fault? (toMember key convert) = match Name.ofString? key with
      | none => some key
      | some name => fault? (convert name) := by
  unfold toMember
  cases Name.ofString? key with
  | none => rfl
  | some name => exact fault?_map _ _

theorem fault?_toValue : fault? (literal.toValue view type?) = literal.badKey? := by
  induction literal using inductionOn generalizing type? with
  | null | bool | number | string => rfl
  | array items ih =>
    rw [toValue_array, fault?_map, fault?_mapM, badKey?, keys_array, List.find?_flatMap]
    exact findSome?_congr fun item member => ih item member
  | object members ih =>
    rw [toValue_object, fault?_map, fault?_mapM, badKey?, keys_object, List.find?_flatMap]
    refine findSome?_congr fun member inside => ?_
    rw [fault?_toMember, List.find?_cons]
    cases Name.ofString? member.1 with
    | none => rfl
    | some name => exact ih member (mem_of_mem_byKey inside)

theorem toValue_eq_error_iff :
    literal.toValue view type? = .error key ↔ literal.badKey? = some key := by
  rw [← fault?_eq_some_iff, fault?_toValue]

theorem keys_subset_of_step? {step : Step} (found : literal.step? step = some part) :
    part.keys ⊆ literal.keys := by
  cases literal with
  | null | bool | number | string => cases found
  | array items =>
    cases step with
    | member key => cases found
    | item index =>
      rw [keys_array]
      exact fun key met => List.mem_flatMap.mpr ⟨part, List.mem_of_getElem? found, met⟩
  | object members =>
    cases step with
    | item index => cases found
    | member key =>
      obtain ⟨member, picked, rfl⟩ := Option.map_eq_some_iff.mp found
      rw [keys_object]
      exact fun key met => List.mem_flatMap.mpr
        ⟨member, List.mem_of_find?_eq_some picked, List.mem_cons_of_mem _ met⟩

theorem keys_subset_of_at? {place : Place} (found : literal.at? place = some part) :
    part.keys ⊆ literal.keys := by
  induction place generalizing literal with
  | nil =>
    cases found
    exact List.Subset.refl _
  | cons step rest ih =>
    obtain ⟨next, taken, found⟩ := Option.bind_eq_some_iff.mp found
    exact List.Subset.trans (ih found) (keys_subset_of_step? taken)

theorem exists_object_of_mem_keys (met : key ∈ literal.keys) : ∃ place members,
    literal.at? place = some (.object members) ∧ ∃ member ∈ members, member.1 = key := by
  induction literal using inductionOn with
  | null | bool | number | string => cases met
  | array items ih =>
    rw [keys_array] at met
    obtain ⟨item, listed, met⟩ := List.mem_flatMap.mp met
    obtain ⟨index, found⟩ := List.mem_iff_getElem?.mp listed
    obtain ⟨place, members, stands, named⟩ := ih item listed met
    have next : (array items).step? (.item index) = some item := found
    exact ⟨.item index :: place, members, (at?_cons next place).trans stands, named⟩
  | object members ih =>
    rw [keys_object] at met
    obtain ⟨member, kept, met⟩ := List.mem_flatMap.mp met
    have listed := mem_of_mem_byKey kept
    rcases List.mem_cons.mp met with rfl | deeper
    · exact ⟨[], members, rfl, member, listed, rfl⟩
    · obtain ⟨place, members', stands, named⟩ := ih member listed deeper
      have found := find?_of_mem (byKey_sorted members) kept
        (p := fun other => other.1 = member.1) fun other => decide_eq_true_iff
      have next : (object members).step? (.member member.1) = some member.2 := by
        rw [step?, found, Option.map_some]
      exact ⟨.member member.1 :: place, members', (at?_cons next place).trans stands, named⟩

theorem mem_keys_iff : key ∈ literal.keys ↔ ∃ place members,
    literal.at? place = some (.object members) ∧ ∃ member ∈ members, member.1 = key := by
  refine ⟨exists_object_of_mem_keys, fun found => ?_⟩
  obtain ⟨place, members, stands, member, listed, rfl⟩ := found
  apply keys_subset_of_at? stands
  obtain ⟨kept, inside, same⟩ := exists_mem_byKey listed
  rw [keys_object, ← same]
  exact List.mem_flatMap.mpr ⟨kept, inside, List.mem_cons_self⟩

theorem exists_badKey_iff : (∃ key, literal.badKey? = some key) ↔ ∃ place members,
    literal.at? place = some (.object members) ∧ ∃ member ∈ members,
      Name.ofString? member.1 = none := by
  rw [← Option.isSome_iff_exists, badKey?, List.find?_isSome]
  constructor
  · intro found
    obtain ⟨key, met, none⟩ := found
    obtain ⟨place, members, stands, member, listed, rfl⟩ := mem_keys_iff.mp met
    exact ⟨place, members, stands, member, listed, Option.isNone_iff_eq_none.mp none⟩
  · intro found
    obtain ⟨place, members, stands, member, listed, none⟩ := found
    exact ⟨member.1, mem_keys_iff.mpr ⟨place, members, stands, member, listed, rfl⟩,
      Option.isNone_iff_eq_none.mpr none⟩

/-- A conversion fails exactly if some object has a key that is no name, with words about the first
such key; and the order of members has no say in it. -/
theorem toValue_fails_on_first_badKey (view : SchemaView) (type? : Option TypeRef)
    (literal : Literal) :
    ((∃ key, literal.toValue view type? = .error key) ↔ ∃ place members,
      literal.at? place = some (.object members) ∧ ∃ member ∈ members,
        Name.ofString? member.1 = none) ∧
    (∀ key, literal.toValue view type? = .error key ↔ literal.badKey? = some key) ∧
    (∀ message,
      (literal.toValue view type?).mapError CompileError.invalidKeyReason = .error message ↔
        ∃ key, literal.badKey? = some key ∧
          message = "object key `" ++ key ++ "` is not a valid GraphQL name") ∧
    ∀ other, literal.Same other → other.toValue view type? = literal.toValue view type? := by
  refine ⟨?_, fun key => toValue_eq_error_iff, fun message => ?_, fun other same => ?_⟩
  · simp only [toValue_eq_error_iff]
    exact exists_badKey_iff
  · rw [mapError_eq_error_iff]
    refine exists_congr fun key => and_congr toValue_eq_error_iff ?_
    exact eq_comm
  · exact (same.toValue_eq view type?).symm

end Literal

end PathQuery
