import PathQuery.Literal.Value
import PathQuery.Proofs.Outcome

namespace PathQuery

open Std

namespace Value

mutual

def vars : Value → List Name
  | var name => [name]
  | list items => varsOfItems items
  | object members => varsOfMembers members
  | null | boolean _ | int _ | float _ | string _ | enum _ => []

def varsOfItems : List Value → List Name
  | [] => []
  | item :: rest => vars item ++ varsOfItems rest

def varsOfMembers : List (Name × Value) → List Name
  | [] => []
  | (_, value) :: rest => vars value ++ varsOfMembers rest

end

theorem varsOfMembers_eq_nil {members : List (Name × Value)}
    (none : ∀ member ∈ members, member.2.vars = []) : varsOfMembers members = [] := by
  induction members with
  | nil => rfl
  | cons member rest ih =>
    rw [varsOfMembers, none member (by simp), List.nil_append]
    exact ih fun member inside => none member (List.mem_cons_of_mem _ inside)

end Value

theorem mem_of_mem_byKey {α : Type} {members : List (String × α)} {member : String × α}
    (inside : member ∈ byKey members) : member ∈ members := by
  rw [byKey, ExtTreeMap.mem_toList_iff_getElem?_eq_some, ExtTreeMap.ofList_eq_insertMany_empty,
    ExtTreeMap.getElem?_insertMany_list, ExtTreeMap.getElem?_empty, Option.or_none,
    List.findSomeRev?_eq_findSome?_reverse] at inside
  obtain ⟨⟨key, value⟩, listed, picked⟩ := List.exists_of_findSome?_eq_some inside
  obtain ⟨same, taken⟩ := Option.ite_none_right_eq_some.mp picked
  have same := LawfulEqOrd.eq_of_compare same
  have listed := List.mem_reverse.mp listed
  subst same
  cases taken
  exact listed

namespace Literal

theorem meets_toMember {key : String} {convert : Name → Except String Value}
    (meets : ∀ name, Meets (fun _ => True) (fun value => value.vars = []) (convert name)) :
    Meets (fun _ => True) (fun member => member.2.vars = []) (toMember key convert) := by
  unfold toMember
  cases Name.ofString? key with
  | none => trivial
  | some name => exact (meets name).map

mutual

theorem meets_toValue (view : SchemaView) (type? : Option TypeRef) (literal : Literal) :
    Meets (fun _ => True) (fun value => value.vars = []) (literal.toValue view type?) := by
  cases literal with
  | null => exact rfl
  | bool value => exact rfl
  | number value =>
    show (ofNumber value).vars = []
    unfold ofNumber
    split <;> rfl
  | string text =>
    show (ofString view type? text).vars = []
    unfold ofString
    split
    · cases Name.ofString? text <;> rfl
    · rfl
  | array items =>
    have := meets_toItems view (type?.bind TypeRef.item?) items
    rw [toValue]
    exact this.map
  | object members =>
    have each : ∀ member ∈ byKey (toMembers view type? members),
        Meets (fun _ => True) (fun converted => converted.2.vars = []) member.2 :=
      fun member inside => meets_toMembers view type? members member (mem_of_mem_byKey inside)
    rw [toValue]
    exact ((Meets.mapM each).imp fun values none => Value.varsOfMembers_eq_nil none).map

theorem meets_toItems (view : SchemaView) (type? : Option TypeRef) (items : List Literal) :
    Meets (fun _ => True) (fun values => Value.varsOfItems values = [])
      (toItems view type? items) := by
  cases items with
  | nil => exact rfl
  | cons item rest =>
    have first := meets_toValue view type? item
    have others := meets_toItems view type? rest
    rw [toItems]
    refine first.bind fun value none => others.bind fun values none' => ?_
    show Value.varsOfItems (value :: values) = []
    rw [Value.varsOfItems, none, none']
    rfl

theorem meets_toMembers (view : SchemaView) (type? : Option TypeRef)
    (members : List (String × Literal)) :
    ∀ member ∈ toMembers view type? members,
      Meets (fun _ => True) (fun converted => converted.2.vars = []) member.2 := by
  cases members with
  | nil => exact fun member none => by cases none
  | cons first rest =>
    have one : ∀ name, Meets (fun _ => True) (fun value => value.vars = [])
        (first.2.toValue view (memberType? view type? name)) :=
      fun name => meets_toValue view (memberType? view type? name) first.2
    rw [toMembers]
    exact List.forall_mem_cons.mpr ⟨meets_toMember one, meets_toMembers view type? rest⟩

end

end Literal

end PathQuery
