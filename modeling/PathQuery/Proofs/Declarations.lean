import PathQuery.Declarations
import PathQuery.Proofs.Outcome

namespace PathQuery

open Std

abbrev Declaration := Path × VariableDefinition

namespace Variables

variable {table : Variables} {declared : List Declaration} {name : Name}

/-- The entry is the declaration of the name with a least argument, and all have its type. -/
def Least (declared : List Declaration) (name : Name) : Option Declaration → Prop
  | none => ∀ other ∈ declared, other.2.name ≠ name
  | some entry => entry ∈ declared ∧ entry.2.name = name ∧ ∀ other ∈ declared, other.2.name = name →
      other.2.type = entry.2.type ∧ (compare entry.1 other.1).isLE

def Holds (table : Variables) (declared : List Declaration) : Prop :=
  ∀ name : Name, Least declared name table[name]?

/-- Two of the declarations are of one variable with different types; the one of the smaller
argument is named first. -/
def Conflict (declared : List Declaration) (error : CompileError) : Prop :=
  ∃ first ∈ declared, ∃ second ∈ declared, first.2.name = second.2.name ∧
    first.2.type ≠ second.2.type ∧ (compare first.1 second.1).isLE ∧
      error = .variableConflict first.2.name first.2.type second.2.type

theorem Least.other {kept? : Option Declaration} (least : Least declared name kept?)
    {latest : Declaration} (different : latest.2.name ≠ name) :
    Least (declared ++ [latest]) name kept? := by
  cases kept? with
  | none =>
    intro other member
    rcases List.mem_append.mp member with earlier | last
    · exact least other earlier
    · exact List.mem_singleton.mp last ▸ different
  | some entry =>
    obtain ⟨member, named, below⟩ := least
    refine ⟨List.mem_append_left _ member, named, fun other member same => ?_⟩
    rcases List.mem_append.mp member with earlier | last
    · exact below other earlier same
    · exact absurd (List.mem_singleton.mp last ▸ same) different

theorem Least.first {latest : Declaration} (least : Least declared latest.2.name none) :
    Least (declared ++ [latest]) latest.2.name (some latest) := by
  refine ⟨by simp, rfl, fun other member same => ?_⟩
  rcases List.mem_append.mp member with earlier | last
  · exact absurd same (least other earlier)
  · rw [List.mem_singleton.mp last, ReflOrd.compare_self]
    exact ⟨rfl, rfl⟩

theorem Least.lower {latest entry : Declaration} (least : Least declared latest.2.name (some entry))
    (type : entry.2.type = latest.2.type) (lower : compare latest.1 entry.1 = .lt) :
    Least (declared ++ [latest]) latest.2.name (some latest) := by
  obtain ⟨-, -, below⟩ := least
  refine ⟨by simp, rfl, fun other member same => ?_⟩
  rcases List.mem_append.mp member with earlier | last
  · obtain ⟨sameType, above⟩ := below other earlier same
    exact ⟨sameType.trans type,
      Ordering.isLE_of_eq_lt (TransCmp.lt_of_lt_of_isLE lower above)⟩
  · rw [List.mem_singleton.mp last, ReflOrd.compare_self]
    exact ⟨rfl, rfl⟩

theorem Least.stay {latest entry : Declaration} (least : Least declared latest.2.name (some entry))
    (type : entry.2.type = latest.2.type) (notLower : (compare entry.1 latest.1).isLE) :
    Least (declared ++ [latest]) latest.2.name (some entry) := by
  obtain ⟨member, named, below⟩ := least
  refine ⟨List.mem_append_left _ member, named, fun other member same => ?_⟩
  rcases List.mem_append.mp member with earlier | last
  · exact below other earlier same
  · rw [List.mem_singleton.mp last]
    exact ⟨type.symm, notLower⟩

theorem holds_empty : Holds ∅ [] := by
  intro name
  rw [ExtTreeMap.getElem?_empty]
  exact fun other member => by cases member

theorem Holds.insert (holds : table.Holds declared) {latest : Declaration}
    (least : Least (declared ++ [latest]) latest.2.name (some latest)) :
    Holds (table.insert latest.2.name latest) (declared ++ [latest]) := by
  intro name
  rw [ExtTreeMap.getElem?_insert]
  split
  · next same => exact LawfulEqOrd.eq_of_compare same ▸ least
  · next different =>
    exact (holds name).other fun same => different (by rw [same, ReflOrd.compare_self])

theorem Holds.keep (holds : table.Holds declared) {latest : Declaration}
    (least : Least (declared ++ [latest]) latest.2.name table[latest.2.name]?) :
    Holds table (declared ++ [latest]) := by
  intro name
  by_cases same : latest.2.name = name
  · exact same ▸ least
  · exact (holds name).other same

theorem Holds.meets_declare (holds : table.Holds declared) (latest : Declaration) :
    Meets (Conflict (declared ++ [latest])) (fun table => Holds table (declared ++ [latest]))
      (table.declare latest.1 latest.2) := by
  have known := holds latest.2.name
  unfold declare
  cases found : table[latest.2.name]? with
  | none =>
    rw [found] at known
    exact holds.insert known.first
  | some entry =>
    rw [found] at known
    have member : entry ∈ declared ++ [latest] := List.mem_append_left _ known.1
    have last : latest ∈ declared ++ [latest] := by simp
    dsimp only
    by_cases type : entry.2.type = latest.2.type
    · rw [if_pos type]
      by_cases lower : compare latest.1 entry.1 = .lt
      · simp only [lower, beq_self_eq_true, ↓reduceIte]
        exact holds.insert (known.lower type lower)
      · have notLower : (compare entry.1 latest.1).isLE :=
          OrientedCmp.isGE_iff_isLE.mp (Ordering.isGE_iff_ne_lt.mpr lower)
        simp only [beq_iff_eq, lower, ↓reduceIte]
        exact holds.keep (found ▸ known.stay type notLower)
    · rw [if_neg type]
      split
      · next lower =>
        exact ⟨latest, last, entry, member, known.2.1.symm, Ne.symm type,
          Ordering.isLE_of_eq_lt (by simpa using lower), rfl⟩
      · next notLower =>
        exact ⟨entry, member, latest, last, known.2.1, type,
          OrientedCmp.isGE_iff_isLE.mp (Ordering.isGE_iff_ne_lt.mpr (by simpa using notLower)),
          by rw [known.2.1]⟩

theorem mem_definitions {definition : VariableDefinition} :
    definition ∈ table.definitions ↔
      ∃ (name : Name) (argument : Path), table[name]? = some (argument, definition) := by
  simp only [definitions, List.mem_map, Prod.exists, ExtTreeMap.mem_toList_iff_getElem?_eq_some,
    exists_eq_right]

theorem Holds.least_of_mem (holds : table.Holds declared) {definition : VariableDefinition}
    (member : definition ∈ table.definitions) :
    ∃ argument, Least declared definition.name (some (argument, definition)) := by
  obtain ⟨name, argument, found⟩ := mem_definitions.mp member
  have least := holds name
  rw [found] at least
  obtain rfl := least.2.1
  exact ⟨argument, least⟩

theorem Holds.exists_definition (holds : table.Holds declared) {declaration : Declaration}
    (member : declaration ∈ declared) :
    ∃ definition ∈ table.definitions, definition.name = declaration.2.name := by
  have least := holds declaration.2.name
  cases found : table[declaration.2.name]? with
  | none =>
    rw [found] at least
    exact absurd rfl (least declaration member)
  | some entry =>
    rw [found] at least
    exact ⟨entry.2, mem_definitions.mpr ⟨_, entry.1, found⟩, least.2.1⟩

theorem Holds.definitions_sorted (holds : table.Holds declared) :
    table.definitions.Pairwise fun a b => compare a.name b.name = .lt := by
  refine List.pairwise_map.mpr (ExtTreeMap.ordered_keys_toList.imp_of_mem ?_)
  intro first second one other less
  obtain ⟨name, entry⟩ := first
  obtain ⟨name', entry'⟩ := second
  have named := holds name
  have named' := holds name'
  rw [ExtTreeMap.mem_toList_iff_getElem?_eq_some.mp one] at named
  rw [ExtTreeMap.mem_toList_iff_getElem?_eq_some.mp other] at named'
  simpa only [named.2.1, named'.2.1] using less

end Variables

namespace Fragments

variable {table : Fragments} {defined : List FragmentDefinition}

def Holds (table : Fragments) (defined : List FragmentDefinition) : Prop :=
  ∀ (name : Name) (definition : FragmentDefinition),
    table[name]? = some definition ↔ definition ∈ defined ∧ definition.name = name

def Conflict (defined : List FragmentDefinition) (error : CompileError) : Prop :=
  ∃ first ∈ defined, ∃ second ∈ defined, first.name = second.name ∧ first ≠ second ∧
    error = .fragmentConflict first.name

theorem holds_empty : Holds ∅ [] := by
  intro name definition
  simp

theorem Holds.meets_define (holds : table.Holds defined) (latest : FragmentDefinition) :
    Meets (Conflict (defined ++ [latest])) (fun table => Holds table (defined ++ [latest]))
      (table.define latest) := by
  unfold define
  have last : latest ∈ defined ++ [latest] := by simp
  cases found : table[latest.name]? with
  | none =>
    intro name definition
    rw [ExtTreeMap.getElem?_insert, List.mem_append, List.mem_singleton]
    split
    · next same =>
      obtain rfl := LawfulEqOrd.eq_of_compare same
      have new : ¬ (definition ∈ defined ∧ definition.name = latest.name) := by
        intro known
        rw [← holds, found] at known
        cases known
      constructor
      · intro found
        obtain ⟨⟩ := found
        exact ⟨.inr rfl, rfl⟩
      · intro known
        rcases known with ⟨earlier | rfl, named⟩
        · exact absurd ⟨earlier, named⟩ new
        · rfl
    · next different =>
      rw [holds]
      refine and_congr_left fun named => ⟨.inl, fun either => either.elim id ?_⟩
      intro same
      subst same
      exact absurd (by rw [named, ReflOrd.compare_self]) different
  | some existing =>
    have known := (holds latest.name existing).mp found
    dsimp only
    split
    · next same =>
      subst same
      intro name definition
      rw [holds, List.mem_append, List.mem_singleton]
      exact and_congr_left fun _ => ⟨.inl, fun either => either.elim id fun same => same ▸ known.1⟩
    · next different =>
      exact ⟨existing, List.mem_append_left _ known.1, latest, last, known.2, different,
        by rw [known.2]⟩

theorem Holds.mem_definitions (holds : table.Holds defined) {definition : FragmentDefinition} :
    definition ∈ table.definitions ↔ definition ∈ defined := by
  simp only [definitions, List.mem_map, Prod.exists, ExtTreeMap.mem_toList_iff_getElem?_eq_some,
    exists_eq_right, holds _ definition]
  exact ⟨fun ⟨_, member, _⟩ => member, fun member => ⟨_, member, rfl⟩⟩

theorem Holds.eq_of_name (holds : table.Holds defined) {first second : FragmentDefinition}
    (one : first ∈ defined) (other : second ∈ defined) (same : first.name = second.name) :
    first = second := by
  have found := (holds _ first).mpr ⟨one, same⟩
  rw [(holds _ second).mpr ⟨other, rfl⟩] at found
  exact (Option.some.inj found).symm

theorem Holds.definitions_sorted (holds : table.Holds defined) :
    table.definitions.Pairwise fun a b => compare a.name b.name = .lt := by
  refine List.pairwise_map.mpr (ExtTreeMap.ordered_keys_toList.imp_of_mem ?_)
  intro first second one other less
  obtain ⟨name, definition⟩ := first
  obtain ⟨name', definition'⟩ := second
  have named := (holds name definition).mp (ExtTreeMap.mem_toList_iff_getElem?_eq_some.mp one)
  have named' := (holds name' definition').mp (ExtTreeMap.mem_toList_iff_getElem?_eq_some.mp other)
  simpa only [named.2, named'.2] using less

end Fragments

end PathQuery
