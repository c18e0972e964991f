import PathQuery.Proofs.Outcome
import PathQuery.Spec.Edit
import Mathlib.Data.List.Induction
import Mathlib.Tactic.Push

namespace PathQuery

open Std

theorem Path.isSelection_iff {path : Path} :
    path.isSelection = true ↔ path.target = .selection := by
  cases target : path.target <;> simp [isSelection, target]

theorem Path.isArgument_iff {path : Path} :
    path.isArgument = true ↔ ∃ name, path.target = .argument (.whole name) := by
  obtain ⟨selection, target⟩ := path
  cases target with
  | selection => simp [isArgument, Target.argument?]
  | directive attachment => simp [isArgument, Target.argument?]
  | argument attachment =>
    obtain ⟨name, keys⟩ := attachment
    simp [isArgument, Target.argument?, Attachment.whole]

namespace Spec

variable {spec edited : Spec} {edit : Edit} {error : SpecError}

def argumentsFor (spec : Spec) (name : Name) : PathSet := spec.argumentsOf.getD name ∅

theorem getElem?_argumentsOf (spec : Spec) (name : Name) : spec.argumentsOf[name]? =
    if name ∈ spec.argumentsOf then some (spec.argumentsFor name) else none := by
  rw [argumentsFor, ExtTreeMap.getD_eq_getD_getElem?]
  split
  · next known =>
    obtain ⟨arguments, found⟩ :=
      Option.isSome_iff_exists.mp (ExtTreeMap.mem_iff_isSome_getElem?.mp known)
    simp [found]
  · next unknown => exact ExtTreeMap.getElem?_eq_none unknown

def feed (spec : Spec) (name : Name) (argument : Path) : Spec :=
  { spec with
    argumentsOf := spec.argumentsOf.insert name ((spec.argumentsFor name).insert argument)
    variableOf := spec.variableOf.insert argument name }

section Feed

variable {name other : Name} {argument path : Path}

theorem variableFor?_feed : (spec.feed name argument).variableFor? path =
    if argument = path then some name else spec.variableFor? path := by
  simp [variableFor?, feed, ExtTreeMap.getElem?_insert]

theorem mem_argumentsOf_feed :
    other ∈ (spec.feed name argument).argumentsOf ↔ name = other ∨ other ∈ spec.argumentsOf := by
  simp [feed]

theorem mem_argumentsFor_feed : path ∈ (spec.feed name argument).argumentsFor other ↔
    (name = other ∧ argument = path) ∨ path ∈ spec.argumentsFor other := by
  by_cases same : name = other
  · subst same
    simp [argumentsFor, feed]
  · simp [argumentsFor, feed, ExtTreeMap.getD_insert, same]

end Feed

def Edit.InMode : Edit → Prop
  | .select path => path.isSelection = true
  | .bind _ argument | .setDefault argument _ => argument.isArgument = true

/-- The edit binds an argument that another variable feeds already. -/
def Rebinds (spec : Spec) : Edit → Prop
  | .bind name argument =>
    ∃ existing, spec.variableFor? argument = some existing ∧ existing ≠ name
  | .select _ | .setDefault _ _ => False

inductive Makes (spec : Spec) : Edit → Spec → Prop
  | select {path : Path} (selects : path.isSelection = true) :
    spec.Makes (.select path) { spec with fields := spec.fields.insert path }
  | bind {name : Name} {argument : Path} (whole : argument.isArgument = true)
    (free : spec.variableFor? argument = none) :
    spec.Makes (.bind name argument) (spec.feed name argument)
  | bindAgain {name : Name} {argument : Path} (whole : argument.isArgument = true)
    (bound : spec.variableFor? argument = some name) : spec.Makes (.bind name argument) spec
  | setDefault {argument : Path} {literal : Literal} (whole : argument.isArgument = true) :
    spec.Makes (.setDefault argument literal)
      { spec with defaults := spec.defaults.insert argument literal }

inductive Refuses (spec : Spec) : Edit → SpecError → Prop
  | select {path : Path} (other : path.isSelection = false) :
    spec.Refuses (.select path) (.notSelection path)
  | bind {name : Name} {argument : Path} (other : argument.isArgument = false) :
    spec.Refuses (.bind name argument) (.notArgument argument)
  | rebind {existing name : Name} {argument : Path} (whole : argument.isArgument = true)
    (bound : spec.variableFor? argument = some existing) (different : existing ≠ name) :
    spec.Refuses (.bind name argument) (.alreadyBound argument existing name)
  | setDefault {argument : Path} {literal : Literal} (other : argument.isArgument = false) :
    spec.Refuses (.setDefault argument literal) (.notArgument argument)

theorem apply_cases (spec : Spec) (edit : Edit) :
    (∃ edited, spec.apply edit = .ok edited ∧ spec.Makes edit edited) ∨
      ∃ error, spec.apply edit = .error error ∧ spec.Refuses edit error := by
  cases edit with
  | select path =>
    cases selects : path.isSelection with
    | true => exact .inl ⟨_, by simp [apply, Spec.select, selects], .select selects⟩
    | false => exact .inr ⟨_, by simp [apply, Spec.select, selects], .select selects⟩
  | bind name argument =>
    cases whole : argument.isArgument with
    | false => exact .inr ⟨_, by simp [apply, Spec.bind, whole], .bind whole⟩
    | true =>
      cases bound : spec.variableFor? argument with
      | none =>
        refine .inl ⟨_, ?_, .bind whole bound⟩
        simp only [variableFor?] at bound
        simp [apply, Spec.bind, whole, bound, feed, argumentsFor]
      | some existing =>
        by_cases same : existing = name
        · subst same
          refine .inl ⟨_, ?_, .bindAgain whole bound⟩
          simp only [variableFor?] at bound
          simp [apply, Spec.bind, whole, bound]
        · refine .inr ⟨_, ?_, .rebind whole bound same⟩
          simp only [variableFor?] at bound
          simp [apply, Spec.bind, whole, bound, same]
  | setDefault argument literal =>
    cases whole : argument.isArgument with
    | true => exact .inl ⟨_, by simp [apply, Spec.setDefault, whole], .setDefault whole⟩
    | false => exact .inr ⟨_, by simp [apply, Spec.setDefault, whole], .setDefault whole⟩

theorem makes_of_apply (applied : spec.apply edit = .ok edited) : spec.Makes edit edited := by
  rcases spec.apply_cases edit with made | refused
  · obtain ⟨other, ok, makes⟩ := made
    rw [applied] at ok
    cases ok
    exact makes
  · obtain ⟨error, failed, _⟩ := refused
    rw [applied] at failed
    cases failed

theorem Makes.admissible (makes : spec.Makes edit edited) : edit.InMode ∧ ¬ spec.Rebinds edit := by
  cases makes with
  | select selects => exact ⟨selects, id⟩
  | bind whole free => exact ⟨whole, by simp [Rebinds, free]⟩
  | bindAgain whole bound => exact ⟨whole, by simp [Rebinds, bound]⟩
  | setDefault whole => exact ⟨whole, id⟩

theorem Refuses.inadmissible (refuses : spec.Refuses edit error) :
    ¬ edit.InMode ∨ spec.Rebinds edit := by
  cases refuses with
  | select other => exact .inl (by simp [Edit.InMode, other])
  | bind other => exact .inl (by simp [Edit.InMode, other])
  | rebind whole bound different => exact .inr ⟨_, bound, different⟩
  | setDefault other => exact .inl (by simp [Edit.InMode, other])

theorem exists_apply_eq_ok_iff :
    (∃ edited, spec.apply edit = .ok edited) ↔ edit.InMode ∧ ¬ spec.Rebinds edit := by
  rcases spec.apply_cases edit with made | refused
  · obtain ⟨edited, ok, makes⟩ := made
    exact ⟨fun _ => makes.admissible, fun _ => ⟨edited, ok⟩⟩
  · obtain ⟨error, failed, refuses⟩ := refused
    have inadmissible := refuses.inadmissible
    simp only [failed, reduceCtorEq, exists_false, false_iff, not_and_or, not_not]
    exact inadmissible

theorem exists_apply_eq_error_iff :
    (∃ error, spec.apply edit = .error error) ↔ ¬ edit.InMode ∨ spec.Rebinds edit := by
  rw [exists_error_iff, exists_apply_eq_ok_iff, not_and_or, not_not]

section Updates

variable {edits rest : List Edit}

theorem update_cons (spec : Spec) (edit : Edit) (rest : List Edit) :
    spec.update (edit :: rest) = spec.apply edit >>= fun edited => edited.update rest :=
  List.foldlM_cons

theorem holds_of_update {P : Spec → Prop} (start : P spec)
    (kept : ∀ {before edit after}, P before → before.Makes edit after → P after)
    (updated : spec.update edits = .ok edited) : P edited := by
  induction edits generalizing spec with
  | nil =>
    cases updated
    exact start
  | cons edit rest ih =>
    rw [update_cons, bind_eq_ok_iff] at updated
    obtain ⟨next, applied, updated⟩ := updated
    exact ih (kept start (makes_of_apply applied)) updated

theorem update_eq_error_iff :
    spec.update edits = .error error ↔ ∃ done edit rest middle, edits = done ++ edit :: rest ∧
      spec.update done = .ok middle ∧ middle.apply edit = .error error := by
  induction edits generalizing spec with
  | nil => simp [update, pure, Except.pure]
  | cons edit rest ih =>
    rw [update_cons]
    constructor
    · intro failed
      cases applied : spec.apply edit with
      | error other =>
        rw [applied] at failed
        cases failed
        exact ⟨[], edit, rest, spec, rfl, rfl, applied⟩
      | ok next =>
        rw [applied] at failed
        obtain ⟨done, edit', rest', middle, rfl, made, fails⟩ := ih.mp failed
        refine ⟨edit :: done, edit', rest', middle, rfl, ?_, fails⟩
        rw [update_cons, applied]
        exact made
    · intro found
      obtain ⟨done, edit', rest', middle, same, made, fails⟩ := found
      cases done with
      | nil =>
        obtain ⟨rfl, rfl⟩ := List.cons.inj same
        cases made
        rw [fails]
        rfl
      | cons first done =>
        obtain ⟨rfl, rfl⟩ := List.cons.inj same
        rw [update_cons, bind_eq_ok_iff] at made
        obtain ⟨next, applied, made⟩ := made
        rw [applied]
        exact ih.mpr ⟨done, edit', rest', middle, rfl, made, fails⟩

end Updates

section Records

variable {middle after : Spec} {edits rest : List Edit}

def Edit.valueFor? (argument : Path) : Edit → Option Literal
  | .setDefault other literal => if other = argument then some literal else none
  | .select _ | .bind _ _ => none

def NewlyFeeds (spec : Spec) (edits : List Edit) (name : Name) (argument : Path) : Prop :=
  spec.variableFor? argument = none ∧ .bind name argument ∈ edits

/-- What edits make of a spec; of the values given to an argument the last one counts. -/
structure Records (spec : Spec) (edits : List Edit) (after : Spec) : Prop where
  selected : ∀ path, path ∈ after.fields ↔ path ∈ spec.fields ∨ .select path ∈ edits
  bound : ∀ name argument, after.variableFor? argument = some name ↔
    spec.variableFor? argument = some name ∨ .bind name argument ∈ edits
  fed : ∀ name argument, argument ∈ after.argumentsFor name ↔
    argument ∈ spec.argumentsFor name ∨ spec.NewlyFeeds edits name argument
  known : ∀ name, name ∈ after.argumentsOf ↔
    name ∈ spec.argumentsOf ∨ ∃ argument, spec.NewlyFeeds edits name argument
  given : ∀ argument, after.defaultFor? argument =
    (edits.filterMap (Edit.valueFor? argument)).getLast?.or (spec.defaultFor? argument)

theorem records_nil (spec : Spec) : spec.Records [] spec := by
  constructor <;> simp [NewlyFeeds]

theorem Makes.records (makes : spec.Makes edit after) : spec.Records [edit] after := by
  cases makes with
  | @select path selects =>
    constructor
    · intro other
      rw [List.mem_singleton, Edit.select.injEq, or_comm, eq_comm (a := other)]
      simp
    all_goals simp [NewlyFeeds, variableFor?, argumentsFor, defaultFor?, Edit.valueFor?]
  | @bind name argument whole free =>
    have newly (other : Name) (path : Path) : spec.NewlyFeeds [.bind name argument] other path ↔
        name = other ∧ argument = path := by
      simp only [NewlyFeeds, List.mem_singleton, Edit.bind.injEq]
      grind
    constructor
    · simp [feed]
    · intro other path
      rw [variableFor?_feed, List.mem_singleton, Edit.bind.injEq]
      by_cases same : argument = path
      · subst same
        simp [free, eq_comm]
      · simp [same, Ne.symm same]
    · intro other path
      rw [mem_argumentsFor_feed, newly, or_comm]
    · intro other
      rw [mem_argumentsOf_feed, or_comm]
      simp [newly]
    · simp [defaultFor?, feed, Edit.valueFor?]
  | @bindAgain name argument whole bound =>
    have newly (other : Name) (path : Path) :
        ¬ spec.NewlyFeeds [.bind name argument] other path := by
      simp only [NewlyFeeds, List.mem_singleton, Edit.bind.injEq]
      grind
    constructor
    · simp
    · intro other path
      rw [List.mem_singleton, Edit.bind.injEq]
      grind
    · simp [newly]
    · simp [newly]
    · simp [Edit.valueFor?]
  | @setDefault argument literal whole =>
    constructor
    case given =>
      intro path
      by_cases same : argument = path <;>
        simp [defaultFor?, Edit.valueFor?, ExtTreeMap.getElem?_insert, same]
    all_goals simp [NewlyFeeds, variableFor?, argumentsFor]

section Append

variable (first : spec.Records edits middle) (second : middle.Records rest after)

include first second

theorem Records.newlyFeeds_append (name : Name) (argument : Path) :
    spec.NewlyFeeds (edits ++ rest) name argument ↔
      spec.NewlyFeeds edits name argument ∨ middle.NewlyFeeds rest name argument := by
  have kept : spec.variableFor? argument = none ∨ middle.variableFor? argument ≠ none := by
    by_contra lost
    push Not at lost
    obtain ⟨other, bound⟩ := Option.ne_none_iff_exists'.mp lost.1
    rw [(first.bound other argument).mpr (.inl bound)] at lost
    cases lost.2
  unfold NewlyFeeds
  rw [List.mem_append]
  constructor
  · intro newly
    obtain ⟨free, before | later⟩ := newly
    · exact .inl ⟨free, before⟩
    · cases bound : middle.variableFor? argument with
      | none => exact .inr ⟨rfl, later⟩
      | some other =>
        have one := (second.bound other argument).mpr (.inl bound)
        have same : other = name :=
          Option.some.inj (one.symm.trans ((second.bound name argument).mpr (.inr later)))
        subst same
        exact .inl ⟨free, ((first.bound other argument).mp bound).resolve_left (by simp [free])⟩
  · intro newly
    rcases newly with before | later
    · exact ⟨before.1, .inl before.2⟩
    · exact ⟨kept.resolve_right (not_not.mpr later.1), .inr later.2⟩

theorem Records.append : spec.Records (edits ++ rest) after where
  selected path := by rw [second.selected, first.selected, List.mem_append, or_assoc]
  bound name argument := by rw [second.bound, first.bound, List.mem_append, or_assoc]
  fed name argument := by
    rw [second.fed, first.fed, first.newlyFeeds_append second, or_assoc]
  known name := by
    simp only [second.known, first.known, first.newlyFeeds_append second, exists_or, or_assoc]
  given argument := by
    rw [second.given, first.given, List.filterMap_append, List.getLast?_append, Option.or_assoc]

end Append

theorem records_of_update (updated : spec.update edits = .ok after) : spec.Records edits after := by
  induction edits generalizing spec with
  | nil =>
    cases updated
    exact records_nil _
  | cons edit rest ih =>
    rw [update_cons, bind_eq_ok_iff] at updated
    obtain ⟨middle, applied, updated⟩ := updated
    exact (makes_of_apply applied).records.append (ih updated)

end Records

/-- The spec after a call that makes all of its edits; if one of them fails, the spec as it was. -/
def attempt (spec : Spec) (edits : List Edit) : Spec :=
  match spec.update edits with
  | .ok edited => edited
  | .error _ => spec

def build (calls : List (List Edit)) : Spec := calls.foldl attempt empty

theorem build_concat (calls : List (List Edit)) (edits : List Edit) :
    build (calls ++ [edits]) = (build calls).attempt edits := by
  simp [build]

theorem holds_of_build {P : Spec → Prop} (start : P empty)
    (kept : ∀ {before edit after}, P before → before.Makes edit after → P after)
    (calls : List (List Edit)) : P (build calls) := by
  induction calls using List.reverseRecOn with
  | nil => exact start
  | append_singleton calls edits ih =>
    rw [build_concat, attempt]
    split
    · next edited updated => exact holds_of_update ih kept updated
    · exact ih

/-- Every path is of the kind its place asks for, and the two maps say the same. -/
structure WellFormed (spec : Spec) : Prop where
  selections : ∀ path ∈ spec.fields, path.target = .selection
  bound : ∀ argument ∈ spec.variableOf, ∃ name, argument.target = .argument (.whole name)
  given : ∀ argument ∈ spec.defaults, ∃ name, argument.target = .argument (.whole name)
  inverse : ∀ name argument,
    argument ∈ spec.argumentsFor name ↔ spec.variableFor? argument = some name
  inhabited : ∀ name ∈ spec.argumentsOf, ∃ argument, argument ∈ spec.argumentsFor name

theorem wellFormed_empty : empty.WellFormed where
  selections := by simp [empty]
  bound := by simp [empty]
  given := by simp [empty]
  inverse := by simp [empty, argumentsFor, variableFor?]
  inhabited := by simp [empty]

theorem WellFormed.feed (wellFormed : spec.WellFormed) {name : Name} {argument : Path}
    (whole : argument.isArgument = true) (free : spec.variableFor? argument = none) :
    (spec.feed name argument).WellFormed where
  selections := wellFormed.selections
  bound path member := by
    rcases ExtTreeMap.mem_insert.mp member with same | member
    · rw [← LawfulEqOrd.eq_of_compare same]
      exact Path.isArgument_iff.mp whole
    · exact wellFormed.bound path member
  given := wellFormed.given
  inverse other path := by
    have before := wellFormed.inverse other path
    rw [mem_argumentsFor_feed, variableFor?_feed]
    by_cases same : argument = path
    · subst same
      simp [before, free]
    · simp [before, same]
  inhabited other member := by
    rcases mem_argumentsOf_feed.mp member with same | member
    · exact ⟨argument, mem_argumentsFor_feed.mpr (.inl ⟨same, rfl⟩)⟩
    · obtain ⟨path, inside⟩ := wellFormed.inhabited other member
      exact ⟨path, mem_argumentsFor_feed.mpr (.inr inside)⟩

theorem WellFormed.makes (wellFormed : spec.WellFormed) (makes : spec.Makes edit edited) :
    edited.WellFormed := by
  cases makes with
  | select selects =>
    refine { wellFormed with selections := fun path member => ?_ }
    rcases ExtTreeSet.mem_insert.mp member with same | member
    · rw [← LawfulEqOrd.eq_of_compare same]
      exact Path.isSelection_iff.mp selects
    · exact wellFormed.selections path member
  | bind whole free => exact wellFormed.feed whole free
  | bindAgain whole bound => exact wellFormed
  | setDefault whole =>
    refine { wellFormed with given := fun path member => ?_ }
    rcases ExtTreeMap.mem_insert.mp member with same | member
    · rw [← LawfulEqOrd.eq_of_compare same]
      exact Path.isArgument_iff.mp whole
    · exact wellFormed.given path member

theorem build_wellFormed (calls : List (List Edit)) : (build calls).WellFormed :=
  holds_of_build wellFormed_empty WellFormed.makes calls

theorem WellFormed.variable_unique (wellFormed : spec.WellFormed) {name other : Name}
    {argument : Path} (one : argument ∈ spec.argumentsFor name)
    (another : argument ∈ spec.argumentsFor other) : name = other := by
  rw [wellFormed.inverse] at one another
  exact Option.some.inj (one.symm.trans another)

/-- Whatever calls have built a spec, it is well-formed and no argument has two variables. A further
edit fails exactly when its path is of the wrong kind or its argument has another variable; several
edits at once fail when one of them does after those before it. Those that are made select what they
select, bind what they bind and give what they give, and nothing else. -/
theorem built_specs_are_wellFormed (calls : List (List Edit)) :
    (build calls).WellFormed ∧
    (∀ argument name other, argument ∈ (build calls).argumentsFor name →
      argument ∈ (build calls).argumentsFor other → name = other) ∧
    (∀ edit, (∃ error, (build calls).apply edit = .error error) ↔
      ¬ edit.InMode ∨ (build calls).Rebinds edit) ∧
    (∀ edit edited, (build calls).apply edit = .ok edited → (build calls).Records [edit] edited) ∧
    (∀ edits edited, (build calls).update edits = .ok edited →
      (build calls).Records edits edited) ∧
    ∀ edits, (∃ error, (build calls).update edits = .error error) ↔
      ∃ done edit rest middle, edits = done ++ edit :: rest ∧
        (build calls).update done = .ok middle ∧ (¬ edit.InMode ∨ middle.Rebinds edit) := by
  have wellFormed := build_wellFormed calls
  refine ⟨wellFormed, fun argument name other => wellFormed.variable_unique,
    fun edit => exists_apply_eq_error_iff,
    fun edit edited applied => (makes_of_apply applied).records,
    fun edits edited => records_of_update, fun edits => ?_⟩
  constructor
  · intro failed
    obtain ⟨error, failed⟩ := failed
    obtain ⟨done, edit, rest, middle, same, made, fails⟩ := update_eq_error_iff.mp failed
    exact ⟨done, edit, rest, middle, same, made, exists_apply_eq_error_iff.mp ⟨error, fails⟩⟩
  · intro found
    obtain ⟨done, edit, rest, middle, same, made, inadmissible⟩ := found
    obtain ⟨error, fails⟩ := exists_apply_eq_error_iff.mpr inadmissible
    exact ⟨error, update_eq_error_iff.mpr ⟨done, edit, rest, middle, same, made, fails⟩⟩

end Spec

namespace Sample

def gauge : Path := (Path.ofFields [.of "tank"]).argumentPath (.of "level")

/-- A binding, another of the same argument that is refused, and a value for it. -/
def fittings : List (List Spec.Edit) :=
  [[.bind (.of "pump") gauge], [.bind (.of "valve") gauge], [.setDefault gauge .null]]

end Sample

theorem built_specs_are_wellFormed_fittings :
    let spec := Spec.build Sample.fittings
    spec.variableFor? Sample.gauge = some (.of "pump") ∧
      spec.defaultFor? Sample.gauge = some .null ∧
      (∃ error, spec.apply (.bind (.of "valve") Sample.gauge) = .error error) ∧
      Sample.gauge ∈ spec.argumentsFor (.of "pump") ∧
      Sample.gauge ∉ spec.argumentsFor (.of "valve") := by
  intro spec
  have bound : spec.variableFor? Sample.gauge = some (.of "pump") := by decide +kernel
  obtain ⟨wellFormed, unique, refuses, -⟩ := Spec.built_specs_are_wellFormed Sample.fittings
  have fed : Sample.gauge ∈ spec.argumentsFor (.of "pump") := (wellFormed.inverse _ _).mpr bound
  refine ⟨bound, by decide +kernel, ?_, fed, fun again => ?_⟩
  · exact (refuses _).mpr (.inr ⟨_, bound, by decide +kernel⟩)
  · have same := unique _ _ _ fed again
    exact absurd same (by decide +kernel)

end PathQuery
