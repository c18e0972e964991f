import PathQuery.Proofs.Literal.Value

namespace PathQuery

open Std

section ByKey

variable {α β : Type}

theorem map_insert {κ : Type} [Ord κ] [TransOrd κ] [LawfulEqOrd κ] (f : κ → α → β)
    (table : ExtTreeMap κ α compare) (key : κ) (value : α) :
    (table.insert key value).map f = (table.map f).insert key (f key value) := by
  refine ExtTreeMap.ext_getElem? fun {other} => ?_
  simp only [ExtTreeMap.getElem?_map, ExtTreeMap.getElem?_insert]
  split
  · next same =>
    rw [LawfulEqOrd.eq_of_compare same]
    rfl
  · rfl

theorem map_foldl_insert (f : String → α → β) (members : List (String × α))
    (table : ExtTreeMap String α compare) :
    (members.foldl (fun table member => table.insert member.1 member.2) table).map f =
      members.foldl (fun table member => table.insert member.1 (f member.1 member.2))
        (table.map f) := by
  induction members generalizing table with
  | nil => rfl
  | cons member rest ih => rw [List.foldl_cons, List.foldl_cons, ih, map_insert]

theorem byKey_map (f : String → α → β) (members : List (String × α)) :
    byKey (members.map fun member => (member.1, f member.1 member.2)) =
      (byKey members).map fun member => (member.1, f member.1 member.2) := by
  unfold byKey
  rw [← ExtTreeMap.toList_map, ExtTreeMap.ofList_eq_foldl, ExtTreeMap.ofList_eq_foldl,
    List.foldl_map, map_foldl_insert]
  rfl

theorem byKey_byKey (members : List (String × α)) : byKey (byKey members) = byKey members := by
  generalize kept : ExtTreeMap.ofList members compare = table
  have whole : ExtTreeMap.ofList table.toList compare = table := by
    refine ExtTreeMap.ext_getElem? fun {key} => ?_
    cases found : table[key]? with
    | some value =>
      exact ExtTreeMap.getElem?_ofList_of_mem ReflOrd.compare_self
        ExtTreeMap.distinct_keys_toList (ExtTreeMap.mem_toList_iff_getElem?_eq_some.mpr found)
    | none =>
      apply ExtTreeMap.getElem?_ofList_of_contains_eq_false
      rw [ExtTreeMap.map_fst_toList_eq_keys]
      simpa using found
  unfold byKey
  rw [kept, whole]

end ByKey

namespace Literal

theorem toMembers_eq_map (view : SchemaView) (type? : Option TypeRef)
    (members : List (String × Literal)) :
    toMembers view type? members = members.map fun member =>
      (member.1, toMember member.1 fun name =>
        member.2.toValue view (memberType? view type? name)) := by
  induction members with
  | nil => rfl
  | cons member rest ih => rw [toMembers, ih, List.map_cons]

theorem byKey_toMembers (view : SchemaView) (type? : Option TypeRef)
    (members : List (String × Literal)) :
    byKey (toMembers view type? (byKey members)) = byKey (toMembers view type? members) := by
  let convert (key : String) (literal : Literal) : Except String (Name × Value) :=
    toMember key fun name => literal.toValue view (memberType? view type? name)
  rw [toMembers_eq_map, toMembers_eq_map, byKey_map convert, byKey_map convert, byKey_byKey]

mutual

theorem toValue_canonical (view : SchemaView) (type? : Option TypeRef) (literal : Literal) :
    literal.canonical.toValue view type? = literal.toValue view type? := by
  cases literal with
  | null => rfl
  | bool value => rfl
  | number value => rfl
  | string text => rfl
  | array items => rw [canonical, toValue, toValue, toItems_canonicalItems]
  | object members =>
    rw [canonical, toValue, toValue, byKey_toMembers, toMembers_canonicalMembers]

theorem toItems_canonicalItems (view : SchemaView) (type? : Option TypeRef)
    (items : List Literal) :
    toItems view type? (canonicalItems items) = toItems view type? items := by
  cases items with
  | nil => rfl
  | cons item rest =>
    rw [canonicalItems, toItems, toItems, toValue_canonical view type? item,
      toItems_canonicalItems view type? rest]

theorem toMembers_canonicalMembers (view : SchemaView) (type? : Option TypeRef)
    (members : List (String × Literal)) :
    toMembers view type? (canonicalMembers members) = toMembers view type? members := by
  cases members with
  | nil => rfl
  | cons member rest =>
    rw [canonicalMembers, toMembers, toMembers, toMembers_canonicalMembers view type? rest]
    simp only [toValue_canonical view _ member.2]

end

theorem Same.toValue_eq {a b : Literal} (same : a.Same b) (view : SchemaView)
    (type? : Option TypeRef) : a.toValue view type? = b.toValue view type? := by
  rw [← toValue_canonical, same, toValue_canonical]

theorem map_toValue_eq {a b : Option Literal} (same : a.map canonical = b.map canonical)
    (view : SchemaView) (type? : Option TypeRef) :
    (a.map fun literal => literal.toValue view type?) =
      b.map fun literal => literal.toValue view type? := by
  have converted := congrArg (Option.map fun literal => literal.toValue view type?) same
  simpa only [Option.map_map, Function.comp_def, toValue_canonical] using converted

end Literal

end PathQuery
