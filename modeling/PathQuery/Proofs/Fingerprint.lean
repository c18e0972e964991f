import PathQuery.Proofs.Literal.Same
import PathQuery.Proofs.Spec.Building

namespace PathQuery

open Std

namespace Fingerprint

/-- Whatever comes after it, a fingerprint shows what it is of and where it ends. -/
def SelfDelimiting {α : Type} (part : α → Fingerprint) : Prop :=
  ∀ a b rest rest', part a ++ rest = part b ++ rest' → a = b ∧ rest = rest'

section Text

theorem append_cons_inj {stop : Nat} {as bs rest rest' : Fingerprint} (free : stop ∉ as)
    (free' : stop ∉ bs) (same : as ++ stop :: rest = bs ++ stop :: rest') :
    as = bs ∧ rest = rest' := by
  induction as generalizing bs with
  | nil =>
    cases bs with
    | nil => exact ⟨rfl, (List.cons.inj same).2⟩
    | cons b bs => exact absurd ((List.cons.inj same).1 ▸ List.mem_cons_self) free'
  | cons a as ih =>
    cases bs with
    | nil => exact absurd ((List.cons.inj same).1 ▸ List.mem_cons_self) free
    | cons b bs =>
      obtain ⟨first, others⟩ := List.cons.inj same
      obtain ⟨more, ends⟩ := ih (fun inside => free (List.mem_cons_of_mem a inside))
        (fun inside => free' (List.mem_cons_of_mem b inside)) others
      exact ⟨by rw [first, more], ends⟩

theorem byte_ne_end (c : Char) : ∀ byte ∈ String.utf8EncodeChar c, byte.toNat ≠ 255 := by
  simp only [String.utf8EncodeChar]
  split_ifs
  all_goals
    simp only [List.mem_cons, List.not_mem_nil, or_false, forall_eq_or_imp, forall_eq,
      UInt8.toNat_ofNat']
    omega

theorem end_not_mem_bytes (chars : List Char) :
    255 ∉ (chars.flatMap String.utf8EncodeChar).map UInt8.toNat := by
  intro inside
  obtain ⟨byte, member, ends⟩ := List.mem_map.mp inside
  obtain ⟨c, _, encoded⟩ := List.mem_flatMap.mp member
  exact byte_ne_end c byte encoded ends

theorem bytes_injective {a b : String}
    (same : (a.toList.flatMap String.utf8EncodeChar).map UInt8.toNat =
      (b.toList.flatMap String.utf8EncodeChar).map UInt8.toNat) : a = b := by
  have encoded := List.map_injective_iff.mpr (fun _ _ => UInt8.toNat_inj.mp) same
  have bytes : a.toList.utf8Encode = b.toList.utf8Encode := congrArg List.toByteArray encoded
  rwa [String.utf8Encode_toList, String.utf8Encode_toList, String.toByteArray_inj] at bytes

theorem selfDelimiting_text : SelfDelimiting text := by
  intro a b rest rest' same
  rw [text, text, List.append_assoc, List.append_assoc] at same
  obtain ⟨bytes, ends⟩ := append_cons_inj (end_not_mem_bytes _) (end_not_mem_bytes _) same
  exact ⟨bytes_injective bytes, ends⟩

end Text

namespace SelfDelimiting

variable {α β : Type} {part : α → Fingerprint} {more : β → Fingerprint}
  (delimits : SelfDelimiting part)

include delimits

theorem comp {f : β → α} (injective : ∀ a b, f a = f b → a = b) :
    SelfDelimiting fun b => part (f b) := by
  intro a b rest rest' same
  exact (delimits _ _ _ _ same).imp_left (injective a b)

theorem append (after : SelfDelimiting more) :
    SelfDelimiting fun pair : α × β => part pair.1 ++ more pair.2 := by
  intro (a, b) (a', b') rest rest' same
  rw [List.append_assoc, List.append_assoc] at same
  obtain ⟨rfl, tails⟩ := delimits _ _ _ _ same
  obtain ⟨rfl, ends⟩ := after _ _ _ _ tails
  exact ⟨rfl, ends⟩

theorem flatMap {as bs : List α} {rest rest' : Fingerprint} (length : as.length = bs.length)
    (same : as.flatMap part ++ rest = bs.flatMap part ++ rest') : as = bs ∧ rest = rest' := by
  induction as generalizing bs with
  | nil =>
    obtain rfl := List.eq_nil_of_length_eq_zero length.symm
    exact ⟨rfl, same⟩
  | cons a as ih =>
    obtain ⟨b, bs, rfl⟩ := List.exists_cons_of_length_eq_add_one length.symm
    rw [List.flatMap_cons, List.flatMap_cons, List.append_assoc, List.append_assoc] at same
    obtain ⟨rfl, tails⟩ := delimits _ _ _ _ same
    obtain ⟨rfl, ends⟩ := ih (Nat.succ.inj length) tails
    exact ⟨rfl, ends⟩

theorem list : SelfDelimiting (ofList part) := by
  intro as bs rest rest' same
  obtain ⟨length, tails⟩ := List.cons.inj same
  exact delimits.flatMap length tails

theorem option : SelfDelimiting (ofOption part) := by
  intro a b rest rest' same
  cases a with
  | none =>
    cases b with
    | none => exact ⟨rfl, (List.cons.inj same).2⟩
    | some b => simp [ofOption] at same
  | some a =>
    cases b with
    | none => simp [ofOption] at same
    | some b =>
      obtain ⟨rfl, ends⟩ := delimits _ _ _ _ (List.cons.inj same).2
      exact ⟨rfl, ends⟩

end SelfDelimiting

end Fingerprint

open Fingerprint

theorem Name.selfDelimiting : SelfDelimiting Name.fingerprint :=
  selfDelimiting_text.comp fun _ _ => Name.text_injective

namespace Segment

theorem fingerprint_plain (field : Name) (alias? : Option Name) :
    fingerprint ⟨.plain, field, alias?⟩ =
      ofOption Name.fingerprint alias? ++ field.fingerprint := by
  cases alias? <;> rfl

theorem selfDelimiting : SelfDelimiting fingerprint := by
  have plain := Name.selfDelimiting.option.append Name.selfDelimiting
  have inline := Name.selfDelimiting.append plain
  have spread := Name.selfDelimiting.append inline
  intro a b rest rest' same
  obtain ⟨context, field, alias?⟩ := a
  obtain ⟨context', field', alias?'⟩ := b
  cases context with
  | plain =>
    cases context' with
    | plain =>
      rw [fingerprint_plain, fingerprint_plain] at same
      obtain ⟨parts, ends⟩ := plain (alias?, field) (alias?', field') rest rest' same
      cases parts
      exact ⟨rfl, ends⟩
    | inline _ => cases alias? <;> simp [fingerprint] at same
    | spread _ _ => cases alias? <;> simp [fingerprint] at same
  | inline type =>
    cases context' with
    | plain => cases alias?' <;> simp [fingerprint] at same
    | inline type' =>
      obtain ⟨parts, ends⟩ := inline (type, alias?, field) (type', alias?', field') rest rest'
        (by simpa [fingerprint] using same)
      cases parts
      exact ⟨rfl, ends⟩
    | spread _ _ => simp [fingerprint] at same
  | spread fragment type =>
    cases context' with
    | plain => cases alias?' <;> simp [fingerprint] at same
    | inline _ => simp [fingerprint] at same
    | spread fragment' type' =>
      obtain ⟨parts, ends⟩ := spread (fragment, type, alias?, field)
        (fragment', type', alias?', field') rest rest' (by simpa [fingerprint] using same)
      cases parts
      exact ⟨rfl, ends⟩

end Segment

theorem Attachment.selfDelimiting : SelfDelimiting Attachment.fingerprint := by
  have parts := (Name.selfDelimiting.append Name.selfDelimiting.list).comp key_injective
  exact parts

theorem Path.selfDelimiting : SelfDelimiting Path.fingerprint := by
  have attachment := Attachment.selfDelimiting.option
  have parts := (Segment.selfDelimiting.list.append (attachment.append attachment)).comp
    Path.key_injective
  intro a b rest rest' same
  exact parts a b rest rest' (by simpa [fingerprint, key] using same)

namespace Literal

open orderedFingerprint

mutual

theorem orderedFingerprint_inj (a b : Literal) {rest rest' : Fingerprint}
    (same : a.orderedFingerprint ++ rest = b.orderedFingerprint ++ rest') :
    a = b ∧ rest = rest' := by
  cases a with
  | null =>
    cases b with
    | null => exact ⟨rfl, (List.cons.inj same).2⟩
    | _ => simp [orderedFingerprint] at same
  | bool value =>
    cases b with
    | bool value' =>
      cases value <;> cases value' <;> simp [orderedFingerprint] at same
      all_goals exact ⟨rfl, same⟩
    | _ => simp [orderedFingerprint] at same
  | number value =>
    cases b with
    | number value' =>
      obtain ⟨text, ends⟩ := selfDelimiting_text _ _ _ _ (List.cons.inj same).2
      exact ⟨congrArg number (Number.text_injective text), ends⟩
    | _ => simp [orderedFingerprint] at same
  | string text =>
    cases b with
    | string text' =>
      obtain ⟨rfl, ends⟩ := selfDelimiting_text _ _ _ _ (List.cons.inj same).2
      exact ⟨rfl, ends⟩
    | _ => simp [orderedFingerprint] at same
  | array items =>
    cases b with
    | array items' =>
      obtain ⟨length, tails⟩ := List.cons.inj (List.cons.inj same).2
      obtain ⟨rfl, ends⟩ := itemsFingerprint_inj items items' length tails
      exact ⟨rfl, ends⟩
    | _ => simp [orderedFingerprint] at same
  | object members =>
    cases b with
    | object members' =>
      obtain ⟨length, tails⟩ := List.cons.inj (List.cons.inj same).2
      obtain ⟨rfl, ends⟩ := membersFingerprint_inj members members' length tails
      exact ⟨rfl, ends⟩
    | _ => simp [orderedFingerprint] at same

/-- Nothing marks the end of the items, but lists of one length end together. -/
theorem itemsFingerprint_inj (as bs : List Literal) {rest rest' : Fingerprint}
    (length : as.length = bs.length)
    (same : itemsFingerprint as ++ rest = itemsFingerprint bs ++ rest') :
    as = bs ∧ rest = rest' := by
  match as, bs with
  | [], [] => exact ⟨rfl, same⟩
  | a :: as, b :: bs =>
    rw [itemsFingerprint, itemsFingerprint, List.append_assoc, List.append_assoc] at same
    obtain ⟨rfl, tails⟩ := orderedFingerprint_inj a b same
    obtain ⟨rfl, ends⟩ := itemsFingerprint_inj as bs (Nat.succ.inj length) tails
    exact ⟨rfl, ends⟩

theorem membersFingerprint_inj (as bs : List (String × Literal)) {rest rest' : Fingerprint}
    (length : as.length = bs.length)
    (same : membersFingerprint as ++ rest = membersFingerprint bs ++ rest') :
    as = bs ∧ rest = rest' := by
  match as, bs with
  | [], [] => exact ⟨rfl, same⟩
  | (key, a) :: as, (key', b) :: bs =>
    simp only [membersFingerprint, List.append_assoc] at same
    obtain ⟨rfl, values⟩ := selfDelimiting_text _ _ _ _ same
    obtain ⟨rfl, tails⟩ := orderedFingerprint_inj a b values
    obtain ⟨rfl, ends⟩ := membersFingerprint_inj as bs (Nat.succ.inj length) tails
    exact ⟨rfl, ends⟩

end

theorem selfDelimiting : SelfDelimiting orderedFingerprint :=
  fun a b _ _ => orderedFingerprint_inj a b

end Literal

namespace Spec

variable {a b : Spec}

theorem argumentsOf_selfDelimiting : SelfDelimiting fun pair : Name × PathSet =>
    pair.1.fingerprint ++ ofList Path.fingerprint pair.2.toList :=
  Name.selfDelimiting.append
    (Path.selfDelimiting.list.comp fun _ _ same => ExtTreeSet.toList_inj.mp same)

theorem fingerprint_eq (spec : Spec) : spec.fingerprint =
    ofList Path.fingerprint spec.fields.toList ++
      (ofList (fun pair : Name × PathSet =>
          pair.1.fingerprint ++ ofList Path.fingerprint pair.2.toList) spec.argumentsOf.toList ++
        ofList (fun pair : Path × Literal => pair.1.fingerprint ++ pair.2.orderedFingerprint)
          spec.canonical.defaults.toList) := by
  simp only [fingerprint, canonical, ExtTreeMap.toList_map, ofList, List.length_map,
    List.flatMap_map, Literal.fingerprint, List.append_assoc]

theorem fingerprint_append_inj {rest rest' : Fingerprint}
    (same : a.fingerprint ++ rest = b.fingerprint ++ rest') :
    a.fields = b.fields ∧ a.argumentsOf = b.argumentsOf ∧
      a.canonical.defaults = b.canonical.defaults ∧ rest = rest' := by
  have values := (Path.selfDelimiting.append Literal.selfDelimiting).list
  rw [fingerprint_eq, fingerprint_eq, List.append_assoc, List.append_assoc, List.append_assoc,
    List.append_assoc] at same
  obtain ⟨fields, same⟩ := Path.selfDelimiting.list _ _ _ _ same
  obtain ⟨arguments, same⟩ := argumentsOf_selfDelimiting.list _ _ _ _ same
  obtain ⟨defaults, ends⟩ := values _ _ _ _ same
  exact ⟨ExtTreeSet.toList_inj.mp fields, ExtTreeMap.toList_inj.mp arguments,
    ExtTreeMap.toList_inj.mp defaults, ends⟩

/-- The map that a fingerprint leaves out follows from its inverse. -/
theorem WellFormed.variableOf_eq (wellFormed : a.WellFormed) (other : b.WellFormed)
    (same : a.argumentsOf = b.argumentsOf) : a.variableOf = b.variableOf := by
  have arguments (name : Name) : a.argumentsFor name = b.argumentsFor name := by
    rw [argumentsFor, argumentsFor, same]
  refine ExtTreeMap.ext_getElem? fun {argument} => Option.ext fun name => ?_
  have inverse := wellFormed.inverse name argument
  rw [arguments, other.inverse] at inverse
  exact inverse.symm

theorem same_iff : a.Same b ↔ a.fields = b.fields ∧ a.argumentsOf = b.argumentsOf ∧
    a.variableOf = b.variableOf ∧ a.canonical.defaults = b.canonical.defaults := by
  obtain ⟨fields, argumentsOf, variableOf, defaults⟩ := a
  obtain ⟨fields', argumentsOf', variableOf', defaults'⟩ := b
  simp [Same, canonical]

theorem canonical_defaults_eq_iff : a.canonical.defaults = b.canonical.defaults ↔
    ∀ argument, Option.Rel Literal.Same (a.defaultFor? argument) (b.defaultFor? argument) := by
  have reads (argument : Path) : Option.Rel Literal.Same (a.defaultFor? argument)
      (b.defaultFor? argument) ↔
        a.canonical.defaults[argument]? = b.canonical.defaults[argument]? := by
    rw [canonical, canonical, ExtTreeMap.getElem?_map, ExtTreeMap.getElem?_map]
    exact rel_iff_map_eq
  simp only [reads]
  exact ⟨fun same argument => by rw [same], fun same => ExtTreeMap.ext_getElem? fun {argument} =>
    same argument⟩

/-- Specs that calls have built have one fingerprint exactly if they are the same: they have the
same selections, the same variables for the same arguments, and for each argument values that are
the same part by part. -/
theorem fingerprint_eq_iff_same (calls calls' : List (List Edit)) :
    ((build calls).fingerprint = (build calls').fingerprint ↔ (build calls).Same (build calls')) ∧
    ((build calls).Same (build calls') ↔
      (build calls).fields = (build calls').fields ∧
      (build calls).argumentsOf = (build calls').argumentsOf ∧
      (build calls).variableOf = (build calls').variableOf ∧
      ∀ argument, Option.Rel Literal.Same ((build calls).defaultFor? argument)
        ((build calls').defaultFor? argument)) ∧
    ∀ literal other : Literal, literal.Same other ↔ literal.SameParts other := by
  refine ⟨?_, by rw [same_iff, canonical_defaults_eq_iff], Literal.same_iff_sameParts⟩
  rw [same_iff]
  constructor
  · intro same
    obtain ⟨fields, arguments, defaults, _⟩ := fingerprint_append_inj (congrArg (· ++ []) same)
    have feeds := (build_wellFormed calls).variableOf_eq (build_wellFormed calls') arguments
    exact ⟨fields, arguments, feeds, defaults⟩
  · intro same
    obtain ⟨fields, arguments, _, defaults⟩ := same
    rw [fingerprint_eq, fingerprint_eq, fields, arguments, defaults]

end Spec

end PathQuery
