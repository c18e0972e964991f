import PathQuery.Proofs.Path.RoundTrip

namespace PathQuery

namespace Path

def Separated (separator : Char) (chars : List Char) (parts : List (List Char)) : Prop :=
  (∀ part ∈ parts, separator ∉ part) ∧ separator :: chars = parts.flatMap (separator :: ·)

inductive Places : List Char → List (List Char) → Prop where
  | one {chars : List Char} (free : ':' ∉ chars) : Places chars [chars]
  | two {before after : List Char} (free : ':' ∉ before) :
      Places (before ++ ':' :: after) [before, after]

/-- The places for names in a segment, those of its field before those of its type condition. -/
inductive SegmentPlaces : List Char → List (List Char) → Prop where
  | plain {chars : List Char} {places : List (List Char)} (unbracketed : chars.head? ≠ some '[')
      (inField : Places chars places) : SegmentPlaces chars places
  | bracketed {condition field : List Char} {places inner : List (List Char)}
      (free : ']' ∉ condition) (inField : Places field places)
      (inCondition : Places condition inner) :
      SegmentPlaces ('[' :: (condition ++ ']' :: field)) (places ++ inner)

inductive NameFault : List (List Char) → PathError → Prop where
  | first {before after : List (List Char)} {place : List Char}
      (names : ∀ chars ∈ before, Name.wellFormed chars = true)
      (noName : Name.wellFormed place = false) :
      NameFault (before ++ place :: after) (.invalidName (String.ofList place))

inductive SegmentFault (text : String) : List Char → PathError → Prop where
  | empty : SegmentFault text [] (.emptySegment text)
  | unterminated {rest : List Char} (free : ']' ∉ rest) :
      SegmentFault text ('[' :: rest) (.unterminatedTypeCondition (String.ofList ('[' :: rest)))
  | name {chars : List Char} {places : List (List Char)} {error : PathError} (some : chars ≠ [])
      (inSegment : SegmentPlaces chars places) (faulty : NameFault places error) :
      SegmentFault text chars error

inductive Stripped (text : String) : List Char → Prop where
  | full {chars : List Char} (opens : text = scheme ++ ":" ++ String.ofList chars) :
      Stripped text chars
  | plain (opens : ¬ (scheme ++ ":").toList <+: text.toList) : Stripped text text.toList

/-- The segments of a text and what hangs off them; nothing is selected by a lone slash. -/
inductive Layout (text : String) : List (List Char) → List Char → Prop where
  | root {hanging : List Char} (stripped : Stripped text ('/' :: hanging))
      (opens : hanging.head?.all opensTarget = true) : Layout text [] hanging
  | below {selection hanging : List Char} {segments : List (List Char)}
      (stripped : Stripped text ('/' :: (selection ++ hanging))) (some : selection ≠ [])
      (closed : ∀ c ∈ selection, opensTarget c = false)
      (opens : hanging.head?.all opensTarget = true) (cut : Separated '/' selection segments) :
      Layout text segments hanging

def IsSegment (chars : List Char) : Prop := ∃ segment : Segment, chars = segment.chars

/-- What is wrong with a text: it lacks the slash, or the first segment that is not well formed, or
the first key that is no name. -/
inductive Fault (text : String) : PathError → Prop where
  | slash {chars : List Char} (stripped : Stripped text chars) (none : chars.head? ≠ some '/') :
      Fault text (.missingLeadingSlash text)
  | segment {before after : List (List Char)} {chars hanging : List Char} {error : PathError}
      (layout : Layout text (before ++ chars :: after) hanging)
      (sound : ∀ earlier ∈ before, IsSegment earlier) (faulty : SegmentFault text chars error) :
      Fault text error
  | key {segments keys : List (List Char)} {opener : Char} {chars : List Char} {error : PathError}
      (layout : Layout text segments (opener :: chars))
      (sound : ∀ segment ∈ segments, IsSegment segment) (cut : Separated '.' chars keys)
      (faulty : NameFault keys error) : Fault text error

section Parts

variable {text : String} {chars : List Char} {parts places : List (List Char)} {error : PathError}

theorem separated_iff {separator : Char} :
    Separated separator chars parts ↔ pieces separator chars = parts := by
  cases parts with
  | nil => simp [Separated, pieces_ne_nil]
  | cons piece more =>
    rw [pieces_eq_cons_iff, Separated, List.flatMap_cons, List.cons_append, List.cons_inj_right]

theorem fault?_readName : fault? (readName chars) =
    if Name.wellFormed chars = true then none else some (.invalidName (String.ofList chars)) := by
  by_cases valid : Name.wellFormed chars = true
  · have read : readName chars = .ok ⟨String.ofList chars, by rwa [String.toList_ofList]⟩ :=
      readName_eq_ok_iff.mpr (by simp [Name.chars])
    rw [read, if_pos valid]
    rfl
  · simp [readName, Name.ofChars?, Name.ofString?, valid, fault?]

theorem fault?_readName_eq_none_iff :
    fault? (readName chars) = none ↔ Name.wellFormed chars = true := by
  simp [fault?_readName]

theorem nameFault_iff :
    (places.findSome? fun place => fault? (readName place)) = some error ↔
      NameFault places error := by
  rw [List.findSome?_eq_some_iff]
  constructor
  · intro found
    obtain ⟨before, place, after, rfl, here, names⟩ := found
    rw [fault?_readName, Option.ite_none_left_eq_some, Bool.not_eq_true] at here
    obtain ⟨noName, same⟩ := here
    cases same
    exact .first (fun chars member => fault?_readName_eq_none_iff.mp (names chars member)) noName
  · intro faulty
    cases faulty with
    | @first before after place names noName =>
      refine ⟨before, place, after, rfl, ?_, fun chars member => ?_⟩
      · simp [fault?_readName, noName]
      · exact fault?_readName_eq_none_iff.mpr (names chars member)

theorem exists_places (chars : List Char) : ∃ places, Places chars places := by
  cases cut : cutAt? ':' chars with
  | none => exact ⟨_, .one (cutAt?_eq_none_iff.mp cut)⟩
  | some parts =>
    obtain ⟨free, rfl⟩ := of_cutAt? cut
    exact ⟨_, .two free⟩

theorem findSome?_cons_eq_or {α β : Type} (f : α → Option β) (a : α) (as : List α) :
    (a :: as).findSome? f = (f a).or (as.findSome? f) := by
  rw [List.findSome?_cons]
  cases f a <;> rfl

theorem fault?_readPlaces {α : Type} (inText : Places chars places) (one : Name → α)
    (two : Name → Name → α) :
    fault? (match cutAt? ':' chars with
      | some (before, after) => do
        let first ← readName before
        let second ← readName after
        return two first second
      | none => do
        let name ← readName chars
        return one name) = places.findSome? fun place => fault? (readName place) := by
  cases inText with
  | one free =>
    rw [cutAt?_eq_none_iff.mpr free, List.findSome?_singleton]
    exact fault?_bind_pure _ _
  | two free =>
    rw [cutAt?_append free, findSome?_cons_eq_or, List.findSome?_singleton]
    exact fault?_bind fun _ => fault?_bind_pure _ _

theorem fault?_readField (inField : Places chars places) :
    fault? (readField chars) = places.findSome? fun place => fault? (readName place) :=
  fault?_readPlaces inField (fun field => (none, field)) fun aliasName field =>
    (some aliasName, field)

theorem fault?_readContext (inCondition : Places chars places) :
    fault? (readContext chars) = places.findSome? fun place => fault? (readName place) :=
  fault?_readPlaces inCondition Context.inline Context.spread

theorem fault?_readSegment (inSegment : SegmentPlaces chars places) :
    fault? (readSegment chars) = places.findSome? fun place => fault? (readName place) := by
  unfold readSegment
  cases inSegment with
  | plain unbracketed inField =>
    split
    · exact absurd rfl unbracketed
    · rw [← fault?_readField inField]
      exact fault?_bind_pure _ _
  | bracketed free inField inCondition =>
    rw [List.findSome?_append, ← fault?_readField inField, ← fault?_readContext inCondition]
    simp only [cutAt?_append free]
    exact fault?_bind fun _ => fault?_bind_pure _ _

theorem fault?_readAttachment :
    fault? (readAttachment chars) =
      (pieces '.' chars).findSome? fun place => fault? (readName place) := by
  unfold readAttachment
  split
  · next none => exact absurd none (pieces_ne_nil _ _)
  · next first keys cut =>
    rw [cut, findSome?_cons_eq_or, ← fault?_mapM]
    exact fault?_bind fun _ => fault?_bind_pure _ _

theorem unterminated_or_places (chars : List Char) :
    (∃ rest, chars = '[' :: rest ∧ ']' ∉ rest) ∨ ∃ places, SegmentPlaces chars places := by
  by_cases bracketed : chars.head? = some '['
  · obtain ⟨rest, rfl⟩ := List.head?_eq_some_iff.mp bracketed
    cases cut : cutAt? ']' rest with
    | none => exact .inl ⟨rest, rfl, cutAt?_eq_none_iff.mp cut⟩
    | some parts =>
      obtain ⟨free, rfl⟩ := of_cutAt? cut
      obtain ⟨places, inField⟩ := exists_places parts.2
      obtain ⟨inner, inCondition⟩ := exists_places parts.1
      exact .inr ⟨_, .bracketed free inField inCondition⟩
  · obtain ⟨places, inField⟩ := exists_places chars
    exact .inr ⟨_, .plain bracketed inField⟩

theorem fault?_unterminated {rest : List Char} (free : ']' ∉ rest) :
    fault? (readSegment ('[' :: rest)) =
      some (.unterminatedTypeCondition (String.ofList ('[' :: rest))) := by
  rw [readSegment, cutAt?_eq_none_iff.mpr free]
  rfl

def readPiece (text : String) (chars : List Char) : Except PathError Segment :=
  if chars.isEmpty then .error (.emptySegment text) else readSegment chars

theorem segmentFault_iff :
    fault? (readPiece text chars) = some error ↔ SegmentFault text chars error := by
  unfold readPiece
  constructor
  · intro fails
    split at fails
    · next none =>
      cases fails
      rw [List.isEmpty_iff.mp none]
      exact .empty
    · next some =>
      rcases unterminated_or_places chars with ⟨rest, rfl, free⟩ | ⟨places, inSegment⟩
      · rw [fault?_unterminated free] at fails
        cases fails
        exact .unterminated free
      · rw [fault?_readSegment inSegment] at fails
        exact .name (by simpa using some) inSegment (nameFault_iff.mp fails)
  · intro faulty
    cases faulty with
    | empty => rfl
    | unterminated free => exact fault?_unterminated free
    | name some inSegment faulty =>
      rw [if_neg (by simpa using some), fault?_readSegment inSegment]
      exact nameFault_iff.mpr faulty

theorem isSegment_iff : fault? (readPiece text chars) = none ↔ IsSegment chars := by
  rw [fault?_eq_none_iff, IsSegment]
  refine exists_congr fun segment => ?_
  unfold readPiece
  split
  · next none => simp [List.isEmpty_iff.mp none, Ne.symm segment.chars_ne_nil]
  · exact readSegment_eq_ok_iff

theorem keyFault_iff (opens : chars.head?.all opensTarget = true) :
    fault? (readTarget chars) = some error ↔
      ∃ opener rest keys, chars = opener :: rest ∧ Separated '.' rest keys ∧
        NameFault keys error := by
  cases chars with
  | nil => simp [readTarget, fault?]
  | cons opener rest =>
    have read : fault? (readTarget (opener :: rest)) = fault? (readAttachment rest) := by
      simp only [List.head?_cons, Option.all_some, opensTarget, Bool.or_eq_true, beq_iff_eq] at opens
      rcases opens with rfl | rfl <;> exact fault?_bind_pure _ _
    rw [read, fault?_readAttachment, nameFault_iff]
    constructor
    · intro faulty
      exact ⟨opener, rest, _, rfl, separated_iff.mpr rfl, faulty⟩
    · intro faulty
      obtain ⟨_, _, keys, same, cut, faulty⟩ := faulty
      cases same
      rwa [separated_iff.mp cut]

end Parts

section Texts

variable {text : String} {chars hanging : List Char} {segments : List (List Char)}
  {error : PathError}

theorem withoutScheme_of_stripped (stripped : Stripped text chars) :
    withoutScheme text.toList = chars := by
  cases stripped with
  | full opens =>
    have whole : text.toList = scheme.toList ++ ':' :: chars := by simp [opens]
    rw [whole, withoutScheme_append]
  | plain opens =>
    unfold withoutScheme
    exact if_neg fun begins => opens (by simpa using List.isPrefixOf_iff_prefix.mp begins)

theorem exists_stripped (text : String) : ∃ chars, Stripped text chars := by
  by_cases opens : (scheme ++ ":").toList <+: text.toList
  · obtain ⟨chars, same⟩ := opens
    refine ⟨chars, .full ?_⟩
    rw [← String.toList_inj, ← same]
    simp
  · exact ⟨_, .plain opens⟩

theorem takeWhile_hanging (opens : hanging.head?.all opensTarget = true) :
    hanging.takeWhile (!opensTarget ·) = [] ∧ hanging.dropWhile (!opensTarget ·) = hanging := by
  cases hanging with
  | nil => exact ⟨rfl, rfl⟩
  | cons c rest => simp_all

theorem parse_of_stripped (stripped : Stripped text ('/' :: chars)) :
    parse text = (do
      let selection ← readSelection text (chars.takeWhile (!opensTarget ·))
      let target ← readTarget (chars.dropWhile (!opensTarget ·))
      return ⟨selection, target⟩) := by
  unfold parse
  rw [withoutScheme_of_stripped stripped]
  rfl

theorem fault?_parse (layout : Layout text segments hanging) :
    fault? (parse text) =
      (segments.findSome? fun chars => fault? (readPiece text chars)).or
        (fault? (readTarget hanging)) := by
  have parts (selection : List Char) (stripped : Stripped text ('/' :: (selection ++ hanging)))
      (closed : ∀ c ∈ selection, opensTarget c = false)
      (opens : hanging.head?.all opensTarget = true) :
      fault? (parse text) =
        (fault? (readSelection text selection)).or (fault? (readTarget hanging)) := by
    have inside : ∀ c ∈ selection, (!opensTarget c) = true := by simpa using closed
    rw [parse_of_stripped stripped, List.takeWhile_append_of_pos inside,
      List.dropWhile_append_of_pos inside, (takeWhile_hanging opens).1,
      (takeWhile_hanging opens).2, List.append_nil]
    exact fault?_bind fun _ => fault?_bind_pure _ _
  cases layout with
  | root stripped opens => exact parts [] stripped (by simp) opens
  | @below selection hanging segments stripped some closed opens cut =>
    rw [parts selection stripped closed opens, readSelection, if_neg (by simpa using some),
      fault?_mapM, separated_iff.mp cut]
    rfl

theorem Layout.opens (layout : Layout text segments hanging) :
    hanging.head?.all opensTarget = true := by
  cases layout with
  | root stripped opens => exact opens
  | below stripped some closed opens cut => exact opens

theorem slash_or_layout (text : String) :
    (∃ chars, Stripped text chars ∧ chars.head? ≠ some '/') ∨
      ∃ segments hanging, Layout text segments hanging := by
  obtain ⟨chars, stripped⟩ := exists_stripped text
  by_cases slash : chars.head? = some '/'
  · obtain ⟨rest, rfl⟩ := List.head?_eq_some_iff.mp slash
    have opens : (rest.dropWhile (!opensTarget ·)).head?.all opensTarget = true :=
      (Option.all_eq_true _ _).mpr (opensTarget_of_head?_dropWhile rest)
    have whole := List.takeWhile_append_dropWhile (p := (!opensTarget ·)) (l := rest)
    rw [← whole] at stripped
    right
    cases front : rest.takeWhile (!opensTarget ·) with
    | nil =>
      rw [front] at stripped
      exact ⟨_, _, .root stripped opens⟩
    | cons c more =>
      have closed : ∀ c ∈ rest.takeWhile (!opensTarget ·), opensTarget c = false := by
        intro c member
        simpa using List.all_eq_true.mp List.all_takeWhile c member
      exact ⟨_, _, .below stripped (by simp [front]) closed opens (separated_iff.mpr rfl)⟩
  · exact .inl ⟨chars, stripped, slash⟩

theorem parse_of_no_slash (stripped : Stripped text chars) (none : chars.head? ≠ some '/') :
    parse text = .error (.missingLeadingSlash text) := by
  unfold parse
  rw [withoutScheme_of_stripped stripped]
  split
  · exact absurd rfl none
  · rfl

end Texts

/-- A text that is no path fails with what is wrong with its leftmost faulty part: with the missing
slash, or else with the first segment that is not well formed, or else with the first key that is no
name. -/
theorem parse_fails_on_leftmost_fault (text : String) :
    (∀ error, parse text = .error error ↔ Fault text error) ∧
      ((∃ error, Fault text error) ↔
        ¬ ∃ path : Path, text = path.text ∨ text = path.fullText) := by
  have fails (error : PathError) : parse text = .error error ↔ Fault text error := by
    rw [← fault?_eq_some_iff]
    constructor
    · intro fails
      rcases slash_or_layout text with ⟨chars, stripped, none⟩ | ⟨segments, hanging, layout⟩
      · rw [parse_of_no_slash stripped none] at fails
        cases fails
        exact .slash stripped none
      · rw [fault?_parse layout, Option.or_eq_some_iff] at fails
        rcases fails with inSegment | ⟨sound, inKey⟩
        · obtain ⟨before, chars, after, rfl, faulty, sound⟩ :=
            List.findSome?_eq_some_iff.mp inSegment
          exact .segment layout (fun earlier member => isSegment_iff.mp (sound earlier member))
            (segmentFault_iff.mp faulty)
        · obtain ⟨opener, rest, keys, rfl, cut, faulty⟩ := (keyFault_iff layout.opens).mp inKey
          have none := List.findSome?_eq_none_iff.mp sound
          exact .key layout (fun segment member => isSegment_iff.mp (none segment member)) cut
            faulty
    · intro faulty
      cases faulty with
      | slash stripped none =>
        rw [parse_of_no_slash stripped none]
        rfl
      | @segment before after chars hanging _ layout sound faulty =>
        rw [fault?_parse layout, Option.or_eq_some_iff]
        exact .inl (List.findSome?_eq_some_iff.mpr ⟨before, chars, after, rfl,
          segmentFault_iff.mpr faulty,
          fun earlier member => isSegment_iff.mpr (sound earlier member)⟩)
      | @key segments keys opener chars _ layout sound cut faulty =>
        rw [fault?_parse layout, Option.or_eq_some_iff]
        exact .inr ⟨List.findSome?_eq_none_iff.mpr fun segment member =>
            isSegment_iff.mpr (sound segment member),
          (keyFault_iff layout.opens).mpr ⟨opener, chars, keys, rfl, cut, faulty⟩⟩
  refine ⟨fails, ?_⟩
  simp only [← fails, exists_error_iff, parse_eq_ok_iff]

/-- The field of a segment is looked at before its type condition, and any segment before a key. -/
example : Path.parse "gqlop:/user/[1:Page]a-b?2" = .error (.invalidName "a-b") := by
  decide +kernel

end Path

end PathQuery
