import PathQuery.Path.Parser
import PathQuery.Proofs.Outcome

namespace PathQuery

namespace Name

theorem isPart_of_mem_chars {name : Name} {c : Char} (member : c ∈ name.chars) :
    isPart c = true := by
  have valid : wellFormed name.chars = true := name.valid
  cases letters : name.chars with
  | nil =>
    rw [letters] at member
    cases member
  | cons first rest =>
    rw [letters] at member valid
    simp only [wellFormed, Bool.and_eq_true, List.all_eq_true] at valid
    rcases List.mem_cons.mp member with rfl | later
    · have start := valid.1
      simp only [isStart, Bool.or_eq_true] at start
      simp only [isPart, Char.isAlphanum, Bool.or_eq_true]
      exact start.imp_left .inl
    · exact valid.2 c later

theorem not_mem_chars (name : Name) {c : Char} (separator : isPart c = false) :
    c ∉ name.chars := by
  intro member
  rw [isPart_of_mem_chars member] at separator
  cases separator

theorem chars_ne_nil (name : Name) : name.chars ≠ [] := by
  intro none
  have valid : wellFormed name.chars = true := name.valid
  rw [none] at valid
  cases valid

theorem head?_chars_append (name : Name) (rest : List Char) {c : Char}
    (separator : isPart c = false) : (name.chars ++ rest).head? ≠ some c := by
  obtain ⟨first, more, letters⟩ := List.exists_cons_of_ne_nil name.chars_ne_nil
  have free := name.not_mem_chars separator
  rw [letters] at free ⊢
  intro head
  cases head
  exact free List.mem_cons_self

end Name

theorem Context.plain_or_bracketed (context : Context) :
    context = .plain ∨ ∃ condition, ']' ∉ condition ∧ context.chars = '[' :: condition ++ [']'] := by
  cases context with
  | plain => exact .inl rfl
  | inline type => exact .inr ⟨type.chars, type.not_mem_chars rfl, rfl⟩
  | spread fragment type =>
    refine .inr ⟨fragment.chars ++ ':' :: type.chars, ?_, rfl⟩
    simp [fragment.not_mem_chars, type.not_mem_chars, show Name.isPart ']' = false from rfl]

theorem Segment.head?_fieldChars (segment : Segment) :
    (segment.aliasChars ++ segment.field.chars).head? ≠ some '[' := by
  obtain ⟨context, field, alias?⟩ := segment
  cases alias? with
  | none => simpa [Segment.aliasChars] using field.head?_chars_append [] rfl
  | some aliasName =>
    simpa [Segment.aliasChars] using aliasName.head?_chars_append (':' :: field.chars) rfl

theorem Segment.chars_ne_nil (segment : Segment) : segment.chars ≠ [] := by
  intro none
  exact segment.field.chars_ne_nil (List.append_eq_nil_iff.mp none).2

theorem Segment.mem_chars {segment : Segment} {c : Char} (member : c ∈ segment.chars) :
    Name.isPart c = true ∨ c ∈ ['[', ']', ':'] := by
  obtain ⟨context, field, alias?⟩ := segment
  simp only [Segment.chars, List.mem_append] at member
  rcases member with (inContext | inAlias) | inField
  · cases context with
    | plain => cases inContext
    | inline type =>
      simp only [Context.chars, List.cons_append, List.mem_cons, List.mem_append] at inContext
      rcases inContext with rfl | inType | last
      · simp
      · exact .inl (Name.isPart_of_mem_chars inType)
      · simp_all
    | spread fragment type =>
      simp only [Context.chars, List.cons_append, List.mem_cons, List.mem_append] at inContext
      rcases inContext with rfl | (inFragment | rfl | inType) | last
      · simp
      · exact .inl (Name.isPart_of_mem_chars inFragment)
      · simp
      · exact .inl (Name.isPart_of_mem_chars inType)
      · simp_all
  · cases alias? with
    | none => cases inAlias
    | some aliasName =>
      rcases List.mem_append.mp inAlias with inName | colon
      · exact .inl (Name.isPart_of_mem_chars inName)
      · simp_all
  · exact .inl (Name.isPart_of_mem_chars inField)

theorem Segment.not_mem_chars (segment : Segment) {c : Char} (separator : Name.isPart c = false)
    (other : c ∉ ['[', ']', ':']) : c ∉ segment.chars := by
  intro member
  rcases mem_chars member with part | mark
  · rw [part] at separator
    cases separator
  · exact other mark

namespace Path

section Cuts

variable {separator : Char} {chars before after : List Char}

theorem cutAt?_eq_none_iff : cutAt? separator chars = none ↔ separator ∉ chars := by
  induction chars with
  | nil => simp [cutAt?]
  | cons c rest ih =>
    by_cases same : c = separator
    · simp [cutAt?, same]
    · simp [cutAt?, same, ih, Ne.symm same]

theorem cutAt?_append (free : separator ∉ before) :
    cutAt? separator (before ++ separator :: after) = some (before, after) := by
  induction before with
  | nil => simp [cutAt?]
  | cons c before ih =>
    obtain ⟨different, free⟩ := List.ne_and_not_mem_of_not_mem_cons free
    simp [cutAt?, Ne.symm different, ih free]

theorem of_cutAt? (cut : cutAt? separator chars = some (before, after)) :
    separator ∉ before ∧ chars = before ++ separator :: after := by
  induction chars generalizing before with
  | nil => cases cut
  | cons c rest ih =>
    unfold cutAt? at cut
    split at cut
    · next same =>
      cases cut
      exact ⟨List.not_mem_nil, by rw [same]; rfl⟩
    · next different =>
      obtain ⟨⟨before', after'⟩, cut, same⟩ := Option.map_eq_some_iff.mp cut
      cases same
      obtain ⟨free, rfl⟩ := ih cut
      exact ⟨List.not_mem_cons_of_ne_of_not_mem (Ne.symm different) free, rfl⟩

/-- Each piece with a separator before it: together they are the text with one before it. -/
theorem flatMap_pieces (separator : Char) (chars : List Char) :
    (pieces separator chars).flatMap (separator :: ·) = separator :: chars := by
  fun_induction pieces separator chars with
  | case1 => rfl
  | case2 rest ih => rw [List.flatMap_cons, ih]; rfl
  | case3 c rest different none ih => simp [none] at ih
  | case4 c rest different piece more cut ih => simp_all

theorem pieces_ne_nil (separator : Char) (chars : List Char) : pieces separator chars ≠ [] := by
  intro none
  have joined := flatMap_pieces separator chars
  rw [none] at joined
  cases joined

theorem not_mem_of_mem_pieces {piece : List Char} (member : piece ∈ pieces separator chars) :
    separator ∉ piece := by
  fun_induction pieces separator chars generalizing piece with
  | case1 => simp_all
  | case2 rest ih =>
    rcases List.mem_cons.mp member with rfl | member
    · exact List.not_mem_nil
    · exact ih member
  | case3 c rest different none ih =>
    rw [List.mem_singleton.mp member, List.mem_singleton]
    exact Ne.symm different
  | case4 c rest different first more cut ih =>
    rw [cut] at ih
    rcases List.mem_cons.mp member with rfl | member
    · exact List.not_mem_cons_of_ne_of_not_mem (Ne.symm different) (ih List.mem_cons_self)
    · exact ih (List.mem_cons_of_mem _ member)

theorem pieces_of_not_mem {piece : List Char} (free : separator ∉ piece) :
    pieces separator piece = [piece] := by
  induction piece with
  | nil => rfl
  | cons c piece ih =>
    obtain ⟨different, free⟩ := List.ne_and_not_mem_of_not_mem_cons free
    rw [pieces, if_neg (Ne.symm different), ih free]

theorem pieces_append {piece : List Char} (free : separator ∉ piece) (rest : List Char) :
    pieces separator (piece ++ separator :: rest) = piece :: pieces separator rest := by
  induction piece with
  | nil => simp [pieces]
  | cons c piece ih =>
    obtain ⟨different, free⟩ := List.ne_and_not_mem_of_not_mem_cons free
    rw [List.cons_append, pieces, if_neg (Ne.symm different), ih free]

/-- The pieces are the only parts without separators that make up the text. -/
theorem pieces_eq_cons_iff {piece : List Char} {more : List (List Char)} :
    pieces separator chars = piece :: more ↔
      (∀ part ∈ piece :: more, separator ∉ part) ∧
        chars = piece ++ more.flatMap (separator :: ·) := by
  constructor
  · intro cut
    have joined := flatMap_pieces separator chars
    rw [cut, List.flatMap_cons, List.cons_append] at joined
    refine ⟨fun part member => ?_, (List.cons.inj joined).2.symm⟩
    rw [← cut] at member
    exact not_mem_of_mem_pieces member
  · intro joined
    obtain ⟨free, rfl⟩ := joined
    induction more generalizing piece with
    | nil => simp [pieces_of_not_mem (free piece List.mem_cons_self)]
    | cons next more ih =>
      obtain ⟨free, frees⟩ := List.forall_mem_cons.mp free
      rw [List.flatMap_cons, List.cons_append, pieces_append free, ih frees]

end Cuts

section Readers

variable {chars : List Char}

theorem readName_eq_ok_iff {name : Name} : readName chars = .ok name ↔ chars = name.chars := by
  unfold readName
  constructor
  · intro read
    split at read
    · next found =>
      cases read
      exact (Name.chars_of_ofChars? found).symm
    · cases read
  · intro same
    rw [same, Name.ofChars?_chars]

theorem cutAt?_chars (name : Name) : cutAt? ':' name.chars = none :=
  cutAt?_eq_none_iff.mpr (name.not_mem_chars rfl)

theorem cutAt?_chars_append (name : Name) (rest : List Char) :
    cutAt? ':' (name.chars ++ ':' :: rest) = some (name.chars, rest) :=
  cutAt?_append (name.not_mem_chars rfl)

theorem readField_eq_ok_iff {segment : Segment} :
    readField chars = .ok (segment.alias?, segment.field) ↔
      chars = segment.aliasChars ++ segment.field.chars := by
  obtain ⟨context, field, alias?⟩ := segment
  constructor
  · intro read
    unfold readField at read
    split at read
    · next cut =>
      simp only [bind_eq_ok_iff, readName_eq_ok_iff] at read
      obtain ⟨aliasName, rfl, other, rfl, same⟩ := read
      cases same
      simp [(of_cutAt? cut).2, Segment.aliasChars]
    · simp only [bind_eq_ok_iff, readName_eq_ok_iff] at read
      obtain ⟨other, rfl, same⟩ := read
      cases same
      rfl
  · intro same
    subst same
    cases alias? with
    | none =>
      simp only [readField, Segment.aliasChars, Option.elim_none, List.nil_append, cutAt?_chars,
        bind_eq_ok_iff, readName_eq_ok_iff]
      exact ⟨field, rfl, rfl⟩
    | some aliasName =>
      simp only [readField, Segment.aliasChars, Option.elim_some, List.append_assoc,
        List.singleton_append, cutAt?_chars_append, bind_eq_ok_iff, readName_eq_ok_iff]
      exact ⟨aliasName, rfl, field, rfl, rfl⟩

theorem readContext_eq_ok_iff {context : Context} :
    readContext chars = .ok context ↔ context.chars = '[' :: chars ++ [']'] := by
  constructor
  · intro read
    unfold readContext at read
    split at read
    · next cut =>
      simp only [bind_eq_ok_iff, readName_eq_ok_iff] at read
      obtain ⟨fragment, rfl, type, rfl, same⟩ := read
      cases same
      simp [(of_cutAt? cut).2, Context.chars]
    · simp only [bind_eq_ok_iff, readName_eq_ok_iff] at read
      obtain ⟨type, rfl, same⟩ := read
      cases same
      rfl
  · intro same
    cases context with
    | plain => cases same
    | inline type =>
      have inside : type.chars = chars := (List.cons.inj (List.append_cancel_right same)).2
      subst inside
      simp only [readContext, cutAt?_chars, bind_eq_ok_iff, readName_eq_ok_iff]
      exact ⟨type, rfl, rfl⟩
    | spread fragment type =>
      have inside : fragment.chars ++ ':' :: type.chars = chars :=
        (List.cons.inj (List.append_cancel_right same)).2
      subst inside
      simp only [readContext, cutAt?_chars_append, bind_eq_ok_iff, readName_eq_ok_iff]
      exact ⟨fragment, rfl, type, rfl, rfl⟩

theorem readSegment_eq_ok_iff {segment : Segment} :
    readSegment chars = .ok segment ↔ chars = segment.chars := by
  constructor
  · intro read
    unfold readSegment at read
    split at read
    · split at read
      · cases read
      · next condition fieldChars cut =>
        simp only [bind_eq_ok_iff] at read
        obtain ⟨⟨alias?, field⟩, readsField, context, readsContext, same⟩ := read
        cases same
        have inContext := readContext_eq_ok_iff.mp readsContext
        have inField : fieldChars = Segment.aliasChars ⟨context, field, alias?⟩ ++ field.chars :=
          readField_eq_ok_iff.mp readsField
        simp [Segment.chars, inContext, (of_cutAt? cut).2, inField]
    · simp only [bind_eq_ok_iff] at read
      obtain ⟨⟨alias?, field⟩, readsField, same⟩ := read
      cases same
      exact readField_eq_ok_iff.mp readsField
  · intro same
    subst same
    have readsField : readField (segment.aliasChars ++ segment.field.chars) =
        .ok (segment.alias?, segment.field) := readField_eq_ok_iff.mpr rfl
    rcases segment.context.plain_or_bracketed with plain | ⟨condition, free, bracketed⟩
    · have unbracketed := segment.head?_fieldChars
      have text : segment.chars = segment.aliasChars ++ segment.field.chars := by
        rw [Segment.chars, plain]
        rfl
      rw [text]
      unfold readSegment
      split
      · next opens =>
        rw [opens] at unbracketed
        exact absurd rfl unbracketed
      · simp only [bind_eq_ok_iff]
        exact ⟨_, readsField, by rw [← plain]; rfl⟩
    · have text : segment.chars =
          '[' :: (condition ++ ']' :: (segment.aliasChars ++ segment.field.chars)) := by
        simp [Segment.chars, bracketed]
      simp only [text, readSegment, cutAt?_append free, bind_eq_ok_iff]
      exact ⟨_, readsField, _, readContext_eq_ok_iff.mpr bracketed, rfl⟩

theorem readAttachment_eq_ok_iff {attachment : Attachment} :
    readAttachment chars = .ok attachment ↔ chars = attachment.chars := by
  constructor
  · intro read
    unfold readAttachment at read
    split at read
    · cases read
    · next cut =>
      simp only [bind_eq_ok_iff, readName_eq_ok_iff,
        mapM_eq_ok_iff fun _ _ => readName_eq_ok_iff] at read
      obtain ⟨name, rfl, subPath, rfl, same⟩ := read
      cases same
      simp [(pieces_eq_cons_iff.mp cut).2, Attachment.chars, List.flatMap_map]
  · intro same
    subst same
    obtain ⟨name, subPath⟩ := attachment
    have cut : pieces '.' (Attachment.chars ⟨name, subPath⟩) =
        name.chars :: subPath.map Name.chars := by
      refine pieces_eq_cons_iff.mpr ⟨fun part member => ?_, ?_⟩
      · obtain ⟨key, -, rfl⟩ := List.mem_map.mp (List.map_cons (f := Name.chars) ▸ member)
        exact key.not_mem_chars rfl
      · simp [Attachment.chars, List.flatMap_map]
    simp only [readAttachment, cut, bind_eq_ok_iff, readName_eq_ok_iff,
      mapM_eq_ok_iff fun _ _ => readName_eq_ok_iff]
    exact ⟨name, rfl, subPath, rfl, rfl⟩

theorem readSelection_eq_ok_iff {whole : String} {chain : Chain} :
    readSelection whole chars = .ok chain ↔ '/' :: chars = selectionChars chain := by
  have readPiece (piece : List Char) (segment : Segment) :
      (if piece.isEmpty then .error (.emptySegment whole) else readSegment piece) = .ok segment ↔
        piece = segment.chars := by
    split
    · next none =>
      simp [List.isEmpty_iff.mp none, Ne.symm segment.chars_ne_nil]
    · exact readSegment_eq_ok_iff
  unfold readSelection
  split
  · next none =>
    rw [List.isEmpty_iff.mp none]
    cases chain with
    | nil => simp [selectionChars]
    | cons segment rest => simp [selectionChars, segment.chars_ne_nil]
  · next some =>
    rw [mapM_eq_ok_iff readPiece]
    cases chain with
    | nil => simpa [selectionChars, pieces_ne_nil] using some
    | cons segment rest =>
      have free : ∀ part ∈ segment.chars :: rest.map Segment.chars, '/' ∉ part := by
        intro part member
        obtain ⟨one, -, rfl⟩ := List.mem_map.mp (List.map_cons (f := Segment.chars) ▸ member)
        exact one.not_mem_chars rfl (by simp)
      rw [List.map_cons, pieces_eq_cons_iff, and_iff_right free]
      simp [selectionChars, List.flatMap_map]

theorem readTarget_eq_ok_iff {target : Target}
    (opens : ∀ c, chars.head? = some c → opensTarget c = true) :
    readTarget chars = .ok target ↔ chars = target.chars := by
  unfold readTarget
  split
  · simp only [bind_eq_ok_iff, readAttachment_eq_ok_iff]
    cases target <;> simp [Target.chars, pure, Except.pure]
  · simp only [bind_eq_ok_iff, readAttachment_eq_ok_iff]
    cases target <;> simp [Target.chars, pure, Except.pure]
  · next noArgument noDirective =>
    cases chars with
    | nil => cases target <;> simp [Target.chars]
    | cons c rest =>
      have opener := opens c rfl
      simp only [opensTarget, Bool.or_eq_true, beq_iff_eq] at opener
      rcases opener with rfl | rfl
      · exact absurd rfl (noArgument rest)
      · exact absurd rfl (noDirective rest)

end Readers

theorem selectionChars_eq_cons (chain : Chain) : ∃ rest, selectionChars chain = '/' :: rest := by
  cases chain with
  | nil => exact ⟨[], rfl⟩
  | cons segment rest => exact ⟨_, rfl⟩

theorem not_opensTarget_of_mem_selectionChars {chain : Chain} {c : Char}
    (member : c ∈ selectionChars chain) : (!opensTarget c) = true := by
  have closed (segment : Segment) (inside : c ∈ '/' :: segment.chars) :
      (!opensTarget c) = true := by
    simp only [opensTarget, Bool.not_eq_true', Bool.or_eq_false_iff, beq_eq_false_iff_ne]
    constructor
    · intro same
      subst same
      exact segment.not_mem_chars rfl (by simp) (List.mem_of_ne_of_mem (by simp) inside)
    · intro same
      subst same
      exact segment.not_mem_chars rfl (by simp) (List.mem_of_ne_of_mem (by simp) inside)
  cases chain with
  | nil =>
    rw [List.mem_singleton.mp member]
    rfl
  | cons first rest =>
    obtain ⟨segment, -, inside⟩ := List.mem_flatMap.mp member
    exact closed segment inside

theorem opensTarget_of_head?_dropWhile (chars : List Char) (c : Char)
    (head : (chars.dropWhile (!opensTarget ·)).head? = some c) : opensTarget c = true := by
  have stops := List.head?_dropWhile_not (!opensTarget ·) chars
  rw [head] at stops
  simpa using stops

theorem takeWhile_target (target : Target) : target.chars.takeWhile (!opensTarget ·) = [] := by
  cases target <;> simp [Target.chars, opensTarget]

theorem dropWhile_target (target : Target) :
    target.chars.dropWhile (!opensTarget ·) = target.chars := by
  cases target <;> simp [Target.chars, opensTarget]

theorem parse_eq_ok_iff_withoutScheme {text : String} {path : Path} :
    parse text = .ok path ↔ withoutScheme text.toList = path.chars := by
  obtain ⟨selection, target⟩ := path
  obtain ⟨rest, begins⟩ := selectionChars_eq_cons selection
  unfold parse
  split
  · next chars slash =>
    simp only [bind_eq_ok_iff, readSelection_eq_ok_iff,
      readTarget_eq_ok_iff (opensTarget_of_head?_dropWhile chars)]
    rw [slash, Path.chars]
    constructor
    · intro read
      obtain ⟨_, inSelection, _, inTarget, same⟩ := read
      cases same
      rw [← inSelection, ← inTarget, List.cons_append, List.takeWhile_append_dropWhile]
    · intro joined
      have closed : ∀ c ∈ rest, (!opensTarget c) = true := fun c member =>
        not_opensTarget_of_mem_selectionChars (begins ▸ List.mem_cons_of_mem _ member)
      rw [begins, List.cons_append] at joined
      rw [(List.cons.inj joined).2, List.takeWhile_append_of_pos closed, takeWhile_target,
        List.append_nil, List.dropWhile_append_of_pos closed, dropWhile_target]
      exact ⟨selection, begins.symm, target, rfl, rfl⟩
  · next noSlash =>
    rw [Path.chars, begins]
    constructor
    · intro read
      cases read
    · intro same
      exact absurd same (noSlash _)

theorem withoutScheme_append (chars : List Char) :
    withoutScheme (scheme.toList ++ ':' :: chars) = chars := by
  simp [withoutScheme, scheme]

theorem withoutScheme_eq_chars_iff {chars : List Char} {path : Path} :
    withoutScheme chars = path.chars ↔
      chars = path.chars ∨ chars = scheme.toList ++ ':' :: path.chars := by
  obtain ⟨rest, begins⟩ := selectionChars_eq_cons path.selection
  constructor
  · intro stripped
    unfold withoutScheme at stripped
    dsimp only at stripped
    split at stripped
    · next opens =>
      obtain ⟨rest, rfl⟩ := List.isPrefixOf_iff_prefix.mp opens
      rw [List.drop_left] at stripped
      rw [stripped]
      exact .inr (List.append_assoc _ _ _)
    · exact .inl stripped
  · intro either
    rcases either with rfl | rfl
    · simp [withoutScheme, scheme, Path.chars, begins]
    · exact withoutScheme_append _

theorem parse_eq_ok_iff {text : String} {path : Path} :
    parse text = .ok path ↔ text = path.text ∨ text = path.fullText := by
  have plain : text = path.text ↔ text.toList = path.chars := by
    rw [← String.toList_inj, Path.text, String.toList_ofList]
  have full : text = path.fullText ↔ text.toList = scheme.toList ++ ':' :: path.chars := by
    simp [← String.toList_inj, fullText, Path.text]
  rw [parse_eq_ok_iff_withoutScheme, withoutScheme_eq_chars_iff, plain, full]

end Path

/-- A text is read as a path exactly if the path prints it, with or without the scheme. Reading
therefore undoes printing, and two paths with a text in common are one. -/
theorem parse_accepts_what_is_printed (path : Path) :
    (∀ text, Path.parse text = .ok path ↔ text = path.text ∨ text = path.fullText) ∧
      path.fullText = "gqlop:" ++ path.text ∧
      Path.parse path.text = .ok path ∧ Path.parse path.fullText = .ok path ∧
      ∀ other : Path, (∃ text, (text = path.text ∨ text = path.fullText) ∧
        (text = other.text ∨ text = other.fullText)) ↔ path = other := by
  refine ⟨fun text => Path.parse_eq_ok_iff, rfl, Path.parse_eq_ok_iff.mpr (.inl rfl),
    Path.parse_eq_ok_iff.mpr (.inr rfl), fun other => ?_⟩
  constructor
  · intro shared
    obtain ⟨text, one, another⟩ := shared
    have read := Path.parse_eq_ok_iff.mpr one
    rw [Path.parse_eq_ok_iff.mpr another] at read
    exact (Except.ok.inj read).symm
  · intro same
    exact ⟨path.text, .inl rfl, .inl (congrArg Path.text same)⟩

example : (Path.parse "gqlop:/[Page:User]first:friends?by.age").toOption.map Path.text =
    some "/[Page:User]first:friends?by.age" := by
  decide +kernel

end PathQuery
