import PathQuery.Proofs.Literal.Canonical

namespace PathQuery

namespace Value

mutual

/-- Every enum value, at any depth, becomes the string of the same text. -/
def erase : Value → Value
  | enum name => string name.text
  | list items => list (eraseItems items)
  | object members => object (eraseMembers members)
  | null => null
  | boolean value => boolean value
  | int text => int text
  | float text => float text
  | string text => string text
  | var name => var name

def eraseItems : List Value → List Value
  | [] => []
  | item :: rest => erase item :: eraseItems rest

def eraseMembers : List (Name × Value) → List (Name × Value)
  | [] => []
  | (name, value) :: rest => (name, erase value) :: eraseMembers rest

end

mutual

theorem erase_erase (value : Value) : value.erase.erase = value.erase := by
  cases value with
  | list items => rw [erase, erase, eraseItems_eraseItems]
  | object members => rw [erase, erase, eraseMembers_eraseMembers]
  | null | boolean | int | float | string | enum | var => rfl

theorem eraseItems_eraseItems (items : List Value) :
    eraseItems (eraseItems items) = eraseItems items := by
  cases items with
  | nil => rfl
  | cons item rest =>
    rw [eraseItems, eraseItems, erase_erase item, eraseItems_eraseItems rest]

theorem eraseMembers_eraseMembers (members : List (Name × Value)) :
    eraseMembers (eraseMembers members) = eraseMembers members := by
  cases members with
  | nil => rfl
  | cons member rest =>
    rw [eraseMembers, eraseMembers, erase_erase member.2, eraseMembers_eraseMembers rest]

end

def eraseMember (member : Name × Value) : Name × Value := (member.1, member.2.erase)

theorem eraseMembers_eq_map (members : List (Name × Value)) :
    eraseMembers members = members.map eraseMember := by
  induction members with
  | nil => rfl
  | cons member rest ih => rw [eraseMembers, ih, List.map_cons, eraseMember]

end Value

namespace Literal

variable {view : SchemaView}

theorem ofString_untyped (type? other? : Option TypeRef) (text : String) :
    ofString view.untyped other? text = (ofString view type? text).erase := by
  have plain : ofString view.untyped other? text = .string text := by
    simp [ofString, SchemaView.untyped]
  rw [plain, ofString]
  split
  · cases read : Name.ofString? text with
    | none => rfl
    | some name => simp [Value.erase, Name.text_of_ofString? read]
  · rfl

theorem erase_ofNumber (number : Number) : (ofNumber number).erase = ofNumber number := by
  unfold ofNumber
  split <;> rfl

theorem map_toMember (key : String) (convert : Name → Except String Value) :
    Value.eraseMember <$> toMember key convert =
      toMember key fun name => Value.erase <$> convert name := by
  unfold toMember
  cases Name.ofString? key with
  | none => rfl
  | some name =>
    dsimp only
    cases convert name <;> rfl

theorem mapM_snd_erase (members : List (String × Except String (Name × Value))) :
    (members.map fun member => (member.1, Value.eraseMember <$> member.2)).mapM Prod.snd =
      Value.eraseMembers <$> members.mapM Prod.snd := by
  induction members with
  | nil => rfl
  | cons member rest ih =>
    rw [List.map_cons, List.mapM_cons, List.mapM_cons, ih]
    cases member.2 with
    | error key => rfl
    | ok value => cases rest.mapM Prod.snd <;> rfl

mutual

theorem toValue_untyped (type? other? : Option TypeRef) (literal : Literal) :
    literal.toValue view.untyped other? = Value.erase <$> literal.toValue view type? := by
  cases literal with
  | null => rfl
  | bool value => rfl
  | number value =>
    rw [toValue, toValue]
    exact congrArg Except.ok (erase_ofNumber value).symm
  | string text =>
    rw [toValue, toValue]
    exact congrArg Except.ok (ofString_untyped type? other? text)
  | array items =>
    rw [toValue, toValue, toItems_untyped (type?.bind TypeRef.item?)]
    cases toItems view (type?.bind TypeRef.item?) items <;> rfl
  | object members =>
    rw [toValue, toValue, toMembers_untyped type?, byKey_map (fun _ => (Value.eraseMember <$> ·)),
      mapM_snd_erase]
    cases (byKey (toMembers view type? members)).mapM Prod.snd <;> rfl

theorem toItems_untyped (type? other? : Option TypeRef) (items : List Literal) :
    toItems view.untyped other? items = Value.eraseItems <$> toItems view type? items := by
  cases items with
  | nil => rfl
  | cons item rest =>
    rw [toItems, toItems, toValue_untyped type? other? item, toItems_untyped type? other? rest]
    cases item.toValue view type? with
    | error key => rfl
    | ok value => cases toItems view type? rest <;> rfl

theorem toMembers_untyped (type? other? : Option TypeRef) (members : List (String × Literal)) :
    toMembers view.untyped other? members =
      (toMembers view type? members).map fun member =>
        (member.1, Value.eraseMember <$> member.2) := by
  cases members with
  | nil => rfl
  | cons member rest =>
    rw [toMembers, toMembers, List.map_cons, map_toMember, toMembers_untyped type? other? rest]
    have same : ∀ name, member.2.toValue view.untyped (memberType? view.untyped other? name) =
        Value.erase <$> member.2.toValue view (memberType? view type? name) :=
      fun name => toValue_untyped _ _ member.2
    simp only [same]

end

end Literal

end PathQuery
