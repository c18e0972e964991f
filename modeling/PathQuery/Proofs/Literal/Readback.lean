import PathQuery.Proofs.Literal.Lexical
import PathQuery.Proofs.Literal.Place
import PathQuery.Proofs.Literal.Same

namespace PathQuery

namespace Value

mutual

/-- What a value without variables says. Enum values and strings are not told apart. -/
def literal? : Value → Option Literal
  | null => some .null
  | boolean value => some (.bool value)
  | int text | float text => (Number.ofText? text).map Literal.number
  | string text => some (.string text)
  | enum name => some (.string name.text)
  | var _ => none
  | list items => (literalItems? items).map Literal.array
  | object members => (literalMembers? members).map Literal.object

def literalItems? : List Value → Option (List Literal)
  | [] => some []
  | item :: rest => do
    let first ← item.literal?
    let others ← literalItems? rest
    return first :: others

def literalMembers? : List (Name × Value) → Option (List (String × Literal))
  | [] => some []
  | (name, value) :: rest => do
    let first ← value.literal?
    let others ← literalMembers? rest
    return (name.text, first) :: others

end

variable {α : Type} {read : α → Literal}

theorem literalItems?_eq_some {as : List α} {values : List Value}
    (each : List.Forall₂ (fun a value => value.literal? = some (read a)) as values) :
    literalItems? values = some (as.map read) := by
  induction each with
  | nil => rfl
  | cons first _ ih =>
    rw [literalItems?, first, ih]
    rfl

theorem literalMembers?_eq_some {as : List (String × α)} {members : List (Name × Value)}
    (each : List.Forall₂ (fun a member => member.1.text = a.1 ∧
      member.2.literal? = some (read a.2)) as members) :
    literalMembers? members = some (as.map fun a => (a.1, read a.2)) := by
  induction each with
  | nil => rfl
  | cons first _ ih =>
    rw [literalMembers?, first.1, first.2, ih]
    rfl

end Value

namespace Literal

theorem canonical_object (members : List (String × Literal)) : (object members).canonical =
    .object ((byKey members).map fun member => (member.1, member.2.canonical)) := by
  rw [canonical, canonicalMembers_eq_map, byKey_map fun _ => canonical]

theorem canonical_canonical (literal : Literal) : literal.canonical.canonical = literal.canonical := by
  induction literal using inductionOn with
  | null | bool | number | string => rfl
  | array items ih =>
    rw [canonical, canonicalItems_eq_map, canonical, canonicalItems_eq_map, List.map_map]
    exact congrArg array (List.map_congr_left ih)
  | object members ih =>
    rw [canonical_object, canonical_object, byKey_map fun _ => canonical, byKey_byKey, List.map_map]
    refine congrArg object (List.map_congr_left fun member inside => ?_)
    rw [Function.comp_apply, ih member (mem_of_mem_byKey inside)]

variable {view : SchemaView} {type? : Option TypeRef} {literal : Literal} {value : Value}

theorem literal?_of_toValue (converted : literal.toValue view type? = .ok value) :
    value.literal? = some literal.canonical := by
  induction literal using inductionOn generalizing type? value with
  | null =>
    cases Becomes.of_toValue converted
    rfl
  | bool value =>
    cases Becomes.of_toValue converted
    rfl
  | number number =>
    cases Becomes.of_toValue converted with
    | int | float => rw [Value.literal?, Number.ofText?_text, Option.map_some, canonical]
  | string text =>
    cases Becomes.of_toValue converted with
    | string => rfl
    | enum asks named =>
      subst named
      rfl
  | array items ih =>
    cases Becomes.of_toValue converted with
    | array each =>
      have reads := ((List.forall₂_and_left _ _).mpr ⟨ih, each⟩).imp
        fun item value both => both.1 both.2
      rw [Value.literal?, Value.literalItems?_eq_some reads, canonical, canonicalItems_eq_map,
        Option.map_some]
  | object members ih =>
    cases Becomes.of_toValue converted with
    | object each =>
      have inner : ∀ member ∈ byKey members, ∀ {type? value},
          member.2.toValue view type? = .ok value → value.literal? = some member.2.canonical :=
        fun member inside _ _ => ih member (mem_of_mem_byKey inside)
      have reads := ((List.forall₂_and_left _ _).mpr ⟨inner, each⟩).imp
        fun member member' both => And.intro both.2.1 (both.1 both.2.2)
      rw [Value.literal?, Value.literalMembers?_eq_some reads, canonical_object, Option.map_some]

/-- The value keeps what the literal says, in the shape that a query asks for. -/
structure KeptBy (view : SchemaView) (type? : Option TypeRef) (literal : Literal) (value : Value) :
    Prop where
  readsBack : ∃ back, value.literal? = some back ∧ back.Same literal
  sorted : ∀ members, value.Part (.object members) →
    members.Pairwise fun a b => compare a.1 b.1 = .lt
  numbers : ∀ place number, literal.at? place = some (.number number) →
    value.at? place = some (if Lexical.looksFractional number.text then .float number.text
      else .int number.text)
  ints : ∀ text, value.Part (.int text) → Lexical.IntValue text.toList
  floats : ∀ text, value.Part (.float text) → Lexical.FloatValue text.toList
  strings : ∀ place text, literal.at? place = some (.string text) →
    value.at? place = some (.string text) ∨
      ∃ name, name.text = text ∧ value.at? place = some (.enum name)
  enums : ∀ place name, value.at? place = some (.enum name) →
    literal.at? place = some (.string name.text) ∧ view.AsksEnum (view.typeAt? type? place)
  asked : ∀ place name, literal.at? place = some (.string name.text) →
    view.AsksEnum (view.typeAt? type? place) → name.isEnumValue = true →
    value.at? place = some (.enum name)
  placed : ∀ piece, value.Part piece ↔ ∃ place, value.at? place = some piece

section Converted

variable (converted : literal.toValue view type? = .ok value)

include converted

theorem exists_origin {piece : Value} (inside : value.Part piece) :
    ∃ part type?, Becomes view type? part piece ∧ part.toValue view type? = .ok piece := by
  obtain ⟨place, found⟩ := exists_place converted inside
  obtain ⟨part, -, inner⟩ := exists_left (rel_at? converted place) found
  exact ⟨part, _, .of_toValue inner, inner⟩

theorem number_at {place : Place} {number : Number}
    (found : literal.at? place = some (.number number)) :
    value.at? place = some (if Lexical.looksFractional number.text then .float number.text
      else .int number.text) := by
  obtain ⟨piece, stands, inner⟩ := exists_right (rel_at? converted place) found
  rw [stands, Number.looksFractional_text]
  cases Becomes.of_toValue inner with
  | int integer => simp [integer]
  | float fractional => simp [fractional]

theorem string_at {place : Place} {text : String}
    (found : literal.at? place = some (.string text)) :
    value.at? place = some (.string text) ∨
      ∃ name, name.text = text ∧ value.at? place = some (.enum name) := by
  obtain ⟨piece, stands, inner⟩ := exists_right (rel_at? converted place) found
  cases Becomes.of_toValue inner with
  | string => exact .inl stands
  | enum asks named => exact .inr ⟨_, named, stands⟩

theorem enum_at {place : Place} {name : Name} (found : value.at? place = some (.enum name)) :
    literal.at? place = some (.string name.text) ∧ view.AsksEnum (view.typeAt? type? place) := by
  obtain ⟨part, stands, inner⟩ := exists_left (rel_at? converted place) found
  cases Becomes.of_toValue inner with
  | enum asks named => exact ⟨named ▸ stands, asks⟩

theorem enum_of_asksEnum {place : Place} {name : Name}
    (found : literal.at? place = some (.string name.text))
    (asks : view.AsksEnum (view.typeAt? type? place)) : value.at? place = some (.enum name) := by
  obtain ⟨piece, stands, inner⟩ := exists_right (rel_at? converted place) found
  rw [toValue, ofString_of_asksEnum asks] at inner
  cases inner
  exact stands

end Converted

/-- A literal is converted without loss, whatever the schema and the type that is declared. -/
theorem toValue_loses_nothing (view : SchemaView) (type? : Option TypeRef) (literal : Literal)
    (value : Value) (converted : literal.toValue view type? = .ok value) :
    literal.KeptBy view type? value where
  readsBack := ⟨literal.canonical, literal?_of_toValue converted, canonical_canonical literal⟩
  sorted members inside := by
    obtain ⟨part, type?, -, inner⟩ := exists_origin converted inside
    exact members_sorted inner
  numbers place number found := number_at converted found
  ints text inside := by
    obtain ⟨part, type?, becomes, -⟩ := exists_origin converted inside
    cases becomes with
    | int integer => exact Number.intValue_text integer
  floats text inside := by
    obtain ⟨part, type?, becomes, -⟩ := exists_origin converted inside
    cases becomes with
    | float fractional => exact Number.floatValue_text fractional
  strings place text found := string_at converted found
  enums place name found := enum_at converted found
  asked place name found asks _ := enum_of_asksEnum converted found asks
  placed piece := ⟨exists_place converted, fun ⟨_, found⟩ => Value.part_of_at? found⟩

end Literal

namespace Sample

def tiling : SchemaView where
  queryRoot? := none
  field? := fun _ _ => none
  implementations := fun _ => ∅
  compositeType? := fun _ => none
  isEnum := fun type => type = .of "Shape"
  inputFieldType? := fun input field =>
    if input = .of "Tile" ∧ field = .of "shape" then some (.named (.of "Shape") true) else none

def tilesType : TypeRef := .list (.named (.of "Tile") true) false

def tiles : Literal := .array [.object [
  ("shape", .string "ROUND"),
  ("label", .string "ROUND"),
  ("weight", .number ⟨true, ['1'], some ['5'], some (false, ['3']), rfl, rfl, rfl⟩),
  ("amount", .number (.ofNat 12))]]

def tilesValue : Value := .list [.object [
  (.of "amount", .int "12"),
  (.of "label", .string "ROUND"),
  (.of "shape", .enum (.of "ROUND")),
  (.of "weight", .float "-1.5e+3")]]

end Sample

theorem toValue_loses_nothing_tiles :
    Sample.tiles.toValue Sample.tiling (some Sample.tilesType) = .ok Sample.tilesValue ∧
      Sample.tiles.KeptBy Sample.tiling (some Sample.tilesType) Sample.tilesValue := by
  have converted : Sample.tiles.toValue Sample.tiling (some Sample.tilesType) =
      .ok Sample.tilesValue := by decide +kernel
  exact ⟨converted, Literal.toValue_loses_nothing _ _ _ _ converted⟩

end PathQuery
