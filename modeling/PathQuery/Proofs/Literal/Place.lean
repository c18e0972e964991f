import PathQuery.Proofs.Literal.Canonical
import PathQuery.Proofs.Runs

namespace PathQuery

open Std

section Related

variable {α β : Type} {related : α → β → Prop}

theorem rel_getElem? {as : List α} {bs : List β} (each : List.Forall₂ related as bs)
    (index : Nat) : Option.Rel related as[index]? bs[index]? := by
  induction each generalizing index with
  | nil => exact .none
  | cons head _ ih =>
    cases index with
    | zero => exact .some head
    | succ index => exact ih index

theorem rel_find? {as : List α} {bs : List β} (each : List.Forall₂ related as bs)
    {p : α → Bool} {q : β → Bool} (same : ∀ a b, related a b → p a = q b) :
    Option.Rel (fun a b => p a = true ∧ related a b) (as.find? p) (bs.find? q) := by
  induction each with
  | nil => exact .none
  | @cons a b as bs head _ ih =>
    rw [List.find?_cons, List.find?_cons, same a b head]
    cases found : q b with
    | true => exact .some ⟨(same a b head).trans found, head⟩
    | false => exact ih

variable {a? : Option α} {b? : Option β} (both : Option.Rel related a? b?)

include both

theorem rel_bind {γ δ : Type} {bound : γ → δ → Prop} {f : α → Option γ} {g : β → Option δ}
    (each : ∀ a b, related a b → Option.Rel bound (f a) (g b)) :
    Option.Rel bound (a?.bind f) (b?.bind g) := by
  cases both with
  | none => exact .none
  | some holds => exact each _ _ holds

theorem rel_map {γ δ : Type} {mapped : γ → δ → Prop} {f : α → γ} {g : β → δ}
    (each : ∀ a b, related a b → mapped (f a) (g b)) :
    Option.Rel mapped (a?.map f) (b?.map g) := by
  cases both with
  | none => exact .none
  | some holds => exact .some (each _ _ holds)

theorem exists_right {a : α} (left : a? = some a) : ∃ b, b? = some b ∧ related a b := by
  cases both with
  | none => cases left
  | some holds =>
    cases left
    exact ⟨_, rfl, holds⟩

theorem exists_left {b : β} (right : b? = some b) : ∃ a, a? = some a ∧ related a b := by
  cases both with
  | none => cases right
  | some holds =>
    cases right
    exact ⟨_, rfl, holds⟩

end Related

section Keys

variable {α κ : Type} [Ord κ] [TransOrd κ] {entries : List (κ × α)}
  (sorted : entries.Pairwise fun a b => compare a.1 b.1 = .lt)

include sorted

theorem eq_of_same_key {a b : κ × α} (left : a ∈ entries) (right : b ∈ entries)
    (same : a.1 = b.1) : a = b := by
  have distinct : (entries.map Prod.fst).Nodup :=
    List.pairwise_map.mpr (sorted.imp fun less => ne_of_compare_eq_lt less)
  exact List.inj_on_of_nodup_map distinct left right same

theorem find?_of_mem {entry : κ × α} (member : entry ∈ entries) {p : κ × α → Bool}
    (picks : ∀ other, p other = true ↔ other.1 = entry.1) : entries.find? p = some entry := by
  cases found : entries.find? p with
  | none => exact absurd ((picks entry).mpr rfl) (List.find?_eq_none.mp found entry member)
  | some other =>
    have same := (picks other).mp (List.find?_some found)
    rw [eq_of_same_key sorted (List.mem_of_find?_eq_some found) member same]

end Keys

theorem byKey_sorted {α : Type} (members : List (String × α)) :
    (byKey members).Pairwise fun a b => compare a.1 b.1 = .lt :=
  ExtTreeMap.ordered_keys_toList

/-- One step into a value: to an item of a list, or to what an object has under a key. -/
inductive Step where
  | item (index : Nat)
  | member (key : String)
deriving DecidableEq

abbrev Place := List Step

namespace Literal

def step? : Literal → Step → Option Literal
  | array items, .item index => items[index]?
  | object members, .member key =>
    ((byKey members).find? fun member => member.1 = key).map Prod.snd
  | _, _ => none

def at? : Literal → Place → Option Literal
  | literal, [] => some literal
  | literal, step :: rest => (literal.step? step).bind fun part => part.at? rest

theorem at?_cons {literal part : Literal} {step : Step} (next : literal.step? step = some part)
    (rest : Place) : literal.at? (step :: rest) = part.at? rest := by
  rw [at?, next, Option.bind_some]

end Literal

namespace Value

def step? : Value → Step → Option Value
  | list items, .item index => items[index]?
  | object members, .member key => (members.find? fun member => member.1.text = key).map Prod.snd
  | _, _ => none

def at? : Value → Place → Option Value
  | value, [] => some value
  | value, step :: rest => (value.step? step).bind fun part => part.at? rest

theorem at?_cons {value part : Value} {step : Step} (next : value.step? step = some part)
    (rest : Place) : value.at? (step :: rest) = part.at? rest := by
  rw [at?, next, Option.bind_some]

inductive Part : (value part : Value) → Prop where
  | whole (value : Value) : Part value value
  | item {items : List Value} {item part : Value} (listed : item ∈ items)
      (inside : Part item part) : Part (.list items) part
  | member {members : List (Name × Value)} {member : Name × Value} {part : Value}
      (listed : member ∈ members) (inside : Part member.2 part) : Part (.object members) part

theorem part_of_at? {value piece : Value} {place : Place} (found : value.at? place = some piece) :
    value.Part piece := by
  induction place generalizing value with
  | nil =>
    cases found
    exact .whole _
  | cons step rest ih =>
    obtain ⟨next, taken, found⟩ := Option.bind_eq_some_iff.mp found
    have inside := ih found
    cases value with
    | list items =>
      cases step with
      | item index => exact .item (List.mem_of_getElem? taken) inside
      | member key => cases taken
    | object members =>
      cases step with
      | item index => cases taken
      | member key =>
        obtain ⟨member, picked, rfl⟩ := Option.map_eq_some_iff.mp taken
        exact .member (List.mem_of_find?_eq_some picked) inside
    | null | boolean | int | float | string | enum | var => cases taken

end Value

namespace SchemaView

variable (view : SchemaView)

def stepType? (type? : Option TypeRef) : Step → Option TypeRef
  | .item _ => type?.bind TypeRef.item?
  | .member key => (Name.ofString? key).bind (Literal.memberType? view type?)

def typeAt? (type? : Option TypeRef) (place : Place) : Option TypeRef :=
  place.foldl view.stepType? type?

def AsksEnum (type? : Option TypeRef) : Prop :=
  ∃ type, type? = some type ∧ view.isEnum type.innerName = true

end SchemaView

namespace Literal

@[elab_as_elim]
theorem inductionOn {motive : Literal → Prop} (literal : Literal) (null : motive .null)
    (bool : ∀ value, motive (.bool value)) (number : ∀ number, motive (.number number))
    (string : ∀ text, motive (.string text))
    (array : ∀ items, (∀ item ∈ items, motive item) → motive (.array items))
    (object : ∀ members, (∀ member ∈ members, motive member.2) → motive (.object members)) :
    motive literal :=
  @Literal.rec motive (fun items => ∀ item ∈ items, motive item)
    (fun members => ∀ member ∈ members, motive member.2) (fun member => motive member.2)
    null bool number string array object (by simp)
    (fun _ _ first rest => List.forall_mem_cons.mpr ⟨first, rest⟩) (by simp)
    (fun _ _ first rest => List.forall_mem_cons.mpr ⟨first, rest⟩) (fun _ _ holds => holds) literal

section Equations

variable (view : SchemaView) (type? : Option TypeRef)

theorem toItems_eq_mapM (items : List Literal) :
    toItems view type? items = items.mapM (toValue view type?) := by
  induction items with
  | nil => rfl
  | cons item rest ih => rw [toItems, ih, List.mapM_cons]

theorem toValue_array (items : List Literal) : (array items).toValue view type? =
    .list <$> items.mapM (toValue view (type?.bind TypeRef.item?)) := by
  rw [toValue, toItems_eq_mapM]

theorem toValue_object (members : List (String × Literal)) :
    (object members).toValue view type? = .object <$> (byKey members).mapM fun member =>
      toMember member.1 fun name => member.2.toValue view (memberType? view type? name) := by
  let convert (key : String) (literal : Literal) : Except String (Name × Value) :=
    toMember key fun name => literal.toValue view (memberType? view type? name)
  rw [toValue, toMembers_eq_map, byKey_map convert, List.mapM_map]
  rfl

end Equations

variable {view : SchemaView} {type? : Option TypeRef} {literal : Literal} {value : Value}

theorem toMember_eq_ok_iff {key : String} {convert : Name → Except String Value}
    {member : Name × Value} : toMember key convert = .ok member ↔
      member.1.text = key ∧ convert member.1 = .ok member.2 := by
  unfold toMember
  constructor
  · intro converted
    split at converted
    · cases converted
    · next name read =>
      obtain ⟨value, inner, rfl⟩ := map_eq_ok_iff.mp converted
      exact ⟨Name.text_of_ofString? read, inner⟩
  · intro both
    obtain ⟨rfl, converted⟩ := both
    rw [Name.ofString?_text]
    exact map_eq_ok_iff.mpr ⟨member.2, converted, rfl⟩

theorem ofString_of_asksEnum (asks : view.AsksEnum type?) (name : Name) :
    ofString view type? name.text = .enum name := by
  obtain ⟨type, rfl, enum⟩ := asks
  simp [ofString, enum, Name.ofString?_text]

theorem ofString_of_not_asksEnum (free : ¬ view.AsksEnum type?) (text : String) :
    ofString view type? text = .string text := by
  refine if_neg fun asks => free ?_
  exact (Option.any_eq_true _ _).mp asks

theorem ofString_of_no_name {text : String} (none : Name.ofString? text = none) :
    ofString view type? text = .string text := by
  unfold ofString
  split
  · rw [none, Option.elim_none]
  · rfl

/-- What a literal is converted to, one kind of literal at a time. -/
inductive Becomes (view : SchemaView) (type? : Option TypeRef) : Literal → Value → Prop where
  | null : Becomes view type? .null .null
  | bool (value : Bool) : Becomes view type? (.bool value) (.boolean value)
  | int {number : Number} (integer : number.isInteger = true) :
      Becomes view type? (.number number) (.int number.text)
  | float {number : Number} (fractional : number.isInteger = false) :
      Becomes view type? (.number number) (.float number.text)
  | string {text : String} (free : view.AsksEnum type? → Name.ofString? text = none) :
      Becomes view type? (.string text) (.string text)
  | enum {text : String} {name : Name} (asks : view.AsksEnum type?) (named : name.text = text) :
      Becomes view type? (.string text) (.enum name)
  | array {items : List Literal} {values : List Value}
      (each : List.Forall₂ (fun item value =>
        item.toValue view (type?.bind TypeRef.item?) = .ok value) items values) :
      Becomes view type? (.array items) (.list values)
  | object {members : List (String × Literal)} {members' : List (Name × Value)}
      (each : List.Forall₂ (fun member member' => member'.1.text = member.1 ∧
        member.2.toValue view (memberType? view type? member'.1) = .ok member'.2)
        (byKey members) members') :
      Becomes view type? (.object members) (.object members')

theorem becomes_ofString (view : SchemaView) (type? : Option TypeRef) (text : String) :
    Becomes view type? (.string text) (ofString view type? text) := by
  by_cases asks : view.AsksEnum type?
  · cases read : Name.ofString? text with
    | none =>
      rw [ofString_of_no_name read]
      exact .string fun _ => read
    | some name =>
      obtain rfl := Name.text_of_ofString? read
      rw [ofString_of_asksEnum asks]
      exact .enum asks rfl
  · rw [ofString_of_not_asksEnum asks]
    exact .string fun asks' => absurd asks' asks

theorem Becomes.of_toValue (converted : literal.toValue view type? = .ok value) :
    Becomes view type? literal value := by
  cases literal with
  | null =>
    cases converted
    exact .null
  | bool value =>
    cases converted
    exact .bool value
  | number number =>
    cases converted
    unfold ofNumber
    split
    · next integer => exact .int integer
    · next fractional => exact .float (Bool.not_eq_true _ ▸ fractional)
  | string text =>
    cases converted
    exact becomes_ofString view type? text
  | array items =>
    rw [toValue_array] at converted
    obtain ⟨values, outcome, rfl⟩ := map_eq_ok_iff.mp converted
    exact .array (mapM_eq_ok_iff_forall₂.mp outcome)
  | object members =>
    rw [toValue_object] at converted
    obtain ⟨members', outcome, rfl⟩ := map_eq_ok_iff.mp converted
    refine .object ((mapM_eq_ok_iff_forall₂.mp outcome).imp fun member member' one => ?_)
    exact toMember_eq_ok_iff.mp one

theorem rel_step? (converted : literal.toValue view type? = .ok value) (step : Step) :
    Option.Rel (fun part piece => part.toValue view (view.stepType? type? step) = .ok piece)
      (literal.step? step) (value.step? step) := by
  cases Becomes.of_toValue converted with
  | null | bool | int | float | string | enum => exact .none
  | array each =>
    cases step with
    | item index => exact rel_getElem? each index
    | member key => exact .none
  | object each =>
    cases step with
    | item index => exact .none
    | member key =>
      refine rel_map (rel_find? each fun member member' both => by rw [both.1]) ?_
      intro member member' both
      obtain ⟨same, named, converted⟩ := both
      obtain rfl := named.trans (of_decide_eq_true same)
      rw [SchemaView.stepType?, Name.ofString?_text, Option.bind_some]
      exact converted

/-- The part of the value at a place is what the part of the literal there is converted to. -/
theorem rel_at? (converted : literal.toValue view type? = .ok value) (place : Place) :
    Option.Rel (fun part piece => part.toValue view (view.typeAt? type? place) = .ok piece)
      (literal.at? place) (value.at? place) := by
  induction place generalizing literal value type? with
  | nil => exact .some converted
  | cons step rest ih =>
    rw [at?, Value.at?]
    exact rel_bind (rel_step? converted step) fun _ _ inner => ih inner

theorem members_sorted {members : List (Name × Value)}
    (converted : literal.toValue view type? = .ok (.object members)) :
    members.Pairwise fun a b => compare a.1 b.1 = .lt := by
  cases Becomes.of_toValue converted with
  | @object members' _ each =>
    have keys : List.Forall₂ Eq ((byKey members').map Prod.fst)
        (members.map fun member => member.1.text) := by
      rw [List.forall₂_map_left_iff, List.forall₂_map_right_iff]
      exact each.imp fun _ _ both => both.1.symm
    rw [List.forall₂_eq_eq_eq] at keys
    have texts : (members.map fun member => member.1.text).Pairwise fun a b =>
        compare a b = .lt :=
      keys ▸ List.pairwise_map.mpr (byKey_sorted members')
    exact List.pairwise_map.mp texts

theorem exists_place (converted : literal.toValue view type? = .ok value) {piece : Value}
    (inside : value.Part piece) : ∃ place, value.at? place = some piece := by
  induction inside generalizing literal type? with
  | whole value => exact ⟨[], rfl⟩
  | @item items item piece listed _ ih =>
    obtain ⟨index, found⟩ := List.mem_iff_getElem?.mp listed
    have next : (Value.list items).step? (.item index) = some item := found
    obtain ⟨part, -, inner⟩ := exists_left (rel_step? converted _) next
    obtain ⟨place, found⟩ := ih inner
    exact ⟨.item index :: place, (Value.at?_cons next place).trans found⟩
  | @member members member piece listed _ ih =>
    have found := find?_of_mem (members_sorted converted) listed
      (p := fun other => other.1.text = member.1.text) fun other => by
        rw [decide_eq_true_eq]
        exact ⟨Name.text_injective, congrArg Name.text⟩
    have next : (Value.object members).step? (.member member.1.text) = some member.2 := by
      rw [Value.step?, found, Option.map_some]
    obtain ⟨part, -, inner⟩ := exists_left (rel_step? converted _) next
    obtain ⟨place, found⟩ := ih inner
    exact ⟨.member member.1.text :: place, (Value.at?_cons next place).trans found⟩

end Literal

end PathQuery
