import PathQuery.Proofs.Literal.Readback

namespace PathQuery

namespace Literal

/-- The enum values are valid exactly if no string where an enum is declared is `true`, `false` or
`null`; strings that are no names stay strings. -/
theorem enums_valid_iff (view : SchemaView) (type? : Option TypeRef) (literal : Literal)
    (value : Value) (converted : literal.toValue view type? = .ok value) :
    ((∀ name, value.Part (.enum name) → name.isEnumValue = true) ↔
      ∀ place (name : Name), view.AsksEnum (view.typeAt? type? place) →
        literal.at? place = some (.string name.text) → name.isEnumValue = true) ∧
    ∀ place text, literal.at? place = some (.string text) → Name.ofString? text = none →
      value.at? place = some (.string text) := by
  refine ⟨⟨fun valid place name asks found => ?_, fun valid name inside => ?_⟩, ?_⟩
  · exact valid name (Value.part_of_at? (enum_of_asksEnum converted found asks))
  · obtain ⟨place, found⟩ := exists_place converted inside
    obtain ⟨stands, asks⟩ := enum_at converted found
    exact valid place name asks stands
  · intro place text found none
    refine (string_at converted found).resolve_right fun either => ?_
    obtain ⟨name, rfl, -⟩ := either
    rw [Name.ofString?_text] at none
    cases none

end Literal

namespace Sample

def ballot : SchemaView where
  queryRoot? := none
  field? := fun _ _ => none
  implementations := fun _ => ∅
  compositeType? := fun _ => none
  isEnum := fun type => type = .of "Vote"
  inputFieldType? := fun _ _ => none

def vote : TypeRef := .named (.of "Vote") true

end Sample

theorem enums_valid_iff_votes :
    let votes : Literal := .array [.string "YES", .string "not sure"]
    let value : Value := .list [.enum (.of "YES"), .string "not sure"]
    let view := Sample.ballot
    let type? := some (TypeRef.list Sample.vote true)
    votes.toValue view type? = .ok value ∧
      ((∀ name, value.Part (.enum name) → name.isEnumValue = true) ↔
        ∀ place (name : Name), view.AsksEnum (view.typeAt? type? place) →
          votes.at? place = some (.string name.text) → name.isEnumValue = true) ∧
      ∀ place text, votes.at? place = some (.string text) → Name.ofString? text = none →
        value.at? place = some (.string text) := by
  intro votes value view type?
  have converted : votes.toValue view type? = .ok value := by decide +kernel
  exact ⟨converted, Literal.enums_valid_iff view type? votes value converted⟩

/-- A string becomes the enum value `null`, which a query reads as null. -/
theorem toValue_null_vote :
    (Literal.string "null").toValue Sample.ballot (some Sample.vote) = .ok (.enum (.of "null")) ∧
      (Value.enum (.of "null")).Part (.enum (.of "null")) ∧
      (Name.of "null").isEnumValue = false :=
  ⟨by decide +kernel, .whole _, by decide +kernel⟩

end PathQuery
