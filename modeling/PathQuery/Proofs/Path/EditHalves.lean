import PathQuery.Path.Edit
import PathQuery.Path.Parser

namespace PathQuery

namespace Path

def Edit.onSelection : Edit → Bool
  | .append _ | .prepend _ | .replaceLast _ | .dropLast | .dropFirst => true
  | _ => false

def Edit.onTarget : Edit → Bool
  | .argument _ | .extendArgument _ | .shortenArgument | .clearArgument
  | .directive _ | .extendDirective _ | .shortenDirective | .clearDirective => true
  | _ => false

def edits (path : Path) : List Edit :=
  path.selection.map .append ++ match path.target with
    | .selection => []
    | .argument attachment => [.argument attachment]
    | .directive attachment => [.directive attachment]

/-- The edit finds nothing to change. -/
def Idle (path : Path) : Edit → Prop
  | .append _ | .prepend _ => False
  | .replaceLast segment => path.lastSegment? = some segment
  | .dropLast | .dropFirst => path.selection = []
  | .argument attachment => path.target = .argument attachment
  | .extendArgument _ | .clearArgument => path.target.argument? = none
  | .shortenArgument =>
    ∀ attachment, path.target.argument? = some attachment → attachment.subPath = []
  | .directive attachment => path.target = .directive attachment
  | .extendDirective _ | .clearDirective => path.target.directive? = none
  | .shortenDirective =>
    ∀ attachment, path.target.directive? = some attachment → attachment.subPath = []
  | .selectionPath => path.isSelection = true
  | .parent => path.isRoot = true

/-- A path with room for an argument beside a directive. -/
structure Loose where
  selection : Chain
  argument? : Option Attachment
  directive? : Option Attachment

namespace Loose

def root : Loose := ⟨[], none, none⟩

def isSelection (path : Loose) : Bool := path.argument?.isNone && path.directive?.isNone

def isWithinArgument (path : Loose) : Bool := path.argument?.isSome

def isWithinDirective (path : Loose) : Bool := path.directive?.isSome

def parent? (path : Loose) : Option Loose :=
  match path.argument? with
  | some attachment => some { path with argument? := attachment.parent? }
  | none =>
    match path.directive? with
    | some attachment => some { path with directive? := attachment.parent? }
    | none =>
      if path.selection.isEmpty then none
      else some { path with selection := path.selection.dropLast }

/-- Setting an argument clears a directive and the other way round; no other edit does both. -/
def apply (path : Loose) : Edit → Loose
  | .append segment => { path with selection := path.selection ++ [segment] }
  | .prepend segment => { path with selection := segment :: path.selection }
  | .replaceLast segment => { path with selection := path.selection.dropLast ++ [segment] }
  | .dropLast => { path with selection := path.selection.dropLast }
  | .dropFirst => { path with selection := path.selection.tail }
  | .argument attachment => { path with argument? := some attachment, directive? := none }
  | .extendArgument key => { path with argument? := path.argument?.map (·.extend key) }
  | .shortenArgument => { path with argument? := path.argument?.map Attachment.shorten }
  | .clearArgument => { path with argument? := none }
  | .directive attachment => { path with argument? := none, directive? := some attachment }
  | .extendDirective key => { path with directive? := path.directive?.map (·.extend key) }
  | .shortenDirective => { path with directive? := path.directive?.map Attachment.shorten }
  | .clearDirective => { path with directive? := none }
  | .selectionPath => ⟨path.selection, none, none⟩
  | .parent => path.parent?.getD path

def applyAll (path : Loose) (edits : List Edit) : Loose := edits.foldl apply path

/-- The path comes from the root by edits, or from a text by those its reader makes. -/
inductive Reachable : Loose → Prop where
  | root : Reachable root
  | edit {path : Loose} (reached : Reachable path) (edit : Edit) : Reachable (path.apply edit)
  | read {text : String} {path : Path} (read : parse text = .ok path) :
      Reachable (root.applyAll path.edits)

end Loose

def loose (path : Path) : Loose := ⟨path.selection, path.target.argument?, path.target.directive?⟩

section Modes

variable {path : Path} {edit : Edit}

theorem count_modes (path : Path) :
    [path.isSelection, path.isWithinArgument, path.isWithinDirective].count true = 1 := by
  obtain ⟨selection, target⟩ := path
  cases target <;> rfl

theorem isSelection_loose (path : Path) : path.loose.isSelection = path.isSelection := by
  obtain ⟨selection, target⟩ := path
  cases target <;> rfl

theorem count_modes_loose (path : Path) :
    [path.loose.isSelection, path.loose.isWithinArgument, path.loose.isWithinDirective].count true =
      1 := by
  rw [isSelection_loose]
  exact path.count_modes

theorem argument?_or_directive? (path : Path) :
    path.target.argument? = none ∨ path.target.directive? = none := by
  obtain ⟨selection, target⟩ := path
  cases target with
  | selection => exact .inl rfl
  | argument attachment => exact .inr rfl
  | directive attachment => exact .inl rfl

theorem loose_parent? (path : Path) : path.loose.parent? = path.parent?.map loose := by
  obtain ⟨selection, target⟩ := path
  cases target with
  | selection => cases selection <;> rfl
  | argument attachment =>
    obtain ⟨name, keys⟩ := attachment
    cases keys <;> rfl
  | directive attachment =>
    obtain ⟨name, keys⟩ := attachment
    cases keys <;> rfl

theorem loose_apply (path : Path) (edit : Edit) :
    path.loose.apply edit = (path.apply edit).loose := by
  cases edit with
  | parent =>
    rw [Loose.apply, apply, loose_parent?]
    cases path.parent? <;> rfl
  | _ =>
    obtain ⟨selection, target⟩ := path
    cases target <;> rfl

theorem loose_applyAll (path : Path) (edits : List Edit) :
    path.loose.applyAll edits = (path.applyAll edits).loose := by
  induction edits generalizing path with
  | nil => rfl
  | cons edit rest ih =>
    have step := ih (path.apply edit)
    rw [← loose_apply] at step
    exact step

theorem applyAll_cons (path : Path) (edit : Edit) (rest : List Edit) :
    path.applyAll (edit :: rest) = (path.apply edit).applyAll rest :=
  rfl

theorem applyAll_append (path : Path) (edits rest : List Edit) :
    path.applyAll (edits ++ rest) = (path.applyAll edits).applyAll rest :=
  List.foldl_append

theorem applyAll_map_append (selection chain : Chain) (target : Target) :
    applyAll ⟨selection, target⟩ (chain.map .append) = ⟨selection ++ chain, target⟩ := by
  induction chain generalizing selection with
  | nil => rw [List.append_nil]; rfl
  | cons segment rest ih => rw [List.append_cons]; exact ih (selection ++ [segment])

theorem applyAll_edits (path : Path) : root.applyAll path.edits = path := by
  obtain ⟨selection, target⟩ := path
  have built := applyAll_map_append [] selection .selection
  rw [edits, applyAll_append, root, built]
  cases target <;> rfl

/-- What the edits reach is a path, and so has one mode. -/
theorem Loose.Reachable.exists_path {path : Loose} (reachable : Reachable path) :
    ∃ tight : Path, path = tight.loose := by
  induction reachable with
  | root => exact ⟨Path.root, rfl⟩
  | edit reached edit ih =>
    obtain ⟨tight, rfl⟩ := ih
    exact ⟨tight.apply edit, loose_apply tight edit⟩
  | @read text path read =>
    have built := loose_applyAll Path.root path.edits
    rw [applyAll_edits] at built
    exact ⟨path, built⟩

end Modes

section Halves

variable {edit : Edit} {edits : List Edit}

theorem apply_of_onSelection (half : edit.onSelection = true) (selection : Chain) :
    ∃ selection', ∀ target, apply ⟨selection, target⟩ edit = ⟨selection', target⟩ := by
  refine ⟨(apply ⟨selection, .selection⟩ edit).selection, fun target => ?_⟩
  cases edit <;> simp_all [Edit.onSelection, apply, mapSelection]

theorem apply_of_onTarget (half : edit.onTarget = true) (target : Target) :
    ∃ target', ∀ selection, apply ⟨selection, target⟩ edit = ⟨selection, target'⟩ := by
  refine ⟨(apply ⟨[], target⟩ edit).target, fun selection => ?_⟩
  cases edit <;> simp_all [Edit.onTarget, apply, mapTarget]

theorem Edit.onTarget_of_onSelection (half : edit.onSelection = true) : ¬ edit.onTarget = true := by
  cases edit <;> simp_all [Edit.onSelection, Edit.onTarget]

theorem Edit.onSelection_of_onTarget (half : edit.onTarget = true) :
    ¬ edit.onSelection = true := by
  cases edit <;> simp_all [Edit.onSelection, Edit.onTarget]

theorem applyAll_halves (halves : ∀ edit ∈ edits, edit.onSelection = true ∨ edit.onTarget = true)
    (selection selection' : Chain) (target target' : Target) :
    applyAll ⟨selection, target⟩ edits =
      ⟨(applyAll ⟨selection, target'⟩ (edits.filter Edit.onSelection)).selection,
        (applyAll ⟨selection', target⟩ (edits.filter Edit.onTarget)).target⟩ := by
  induction edits generalizing selection target with
  | nil => rfl
  | cons edit rest ih =>
    obtain ⟨half, halves⟩ := List.forall_mem_cons.mp halves
    rcases half with onSelection | onTarget
    · have other := Edit.onTarget_of_onSelection onSelection
      obtain ⟨next, step⟩ := apply_of_onSelection onSelection selection
      rw [List.filter_cons_of_pos onSelection, List.filter_cons_of_neg other, applyAll_cons,
        applyAll_cons, step, step, ih halves]
    · have other := Edit.onSelection_of_onTarget onTarget
      obtain ⟨next, step⟩ := apply_of_onTarget onTarget target
      rw [List.filter_cons_of_pos onTarget, List.filter_cons_of_neg other, applyAll_cons,
        applyAll_cons, step, step, ih halves]

end Halves

section Idle

variable {path : Path}

theorem mapSelection_eq_self_iff {f : Chain → Chain} :
    path.mapSelection f = path ↔ f path.selection = path.selection := by
  obtain ⟨selection, target⟩ := path
  simp [mapSelection]

theorem mapTarget_eq_self_iff {f : Target → Target} :
    path.mapTarget f = path ↔ f path.target = path.target := by
  obtain ⟨selection, target⟩ := path
  simp [mapTarget]

theorem mapArgument_eq_self_iff {f : Attachment → Attachment} {target : Target} :
    target.mapArgument f = target ↔
      ∀ attachment, target.argument? = some attachment → f attachment = attachment := by
  cases target <;> simp [Target.mapArgument, Target.argument?]

theorem mapDirective_eq_self_iff {f : Attachment → Attachment} {target : Target} :
    target.mapDirective f = target ↔
      ∀ attachment, target.directive? = some attachment → f attachment = attachment := by
  cases target <;> simp [Target.mapDirective, Target.directive?]

theorem extend_ne (attachment : Attachment) (key : Name) : attachment.extend key ≠ attachment := by
  obtain ⟨name, keys⟩ := attachment
  simp [Attachment.extend]

theorem shorten_eq_self_iff {attachment : Attachment} :
    attachment.shorten = attachment ↔ attachment.subPath = [] := by
  obtain ⟨name, keys⟩ := attachment
  cases keys with
  | nil => simp [Attachment.shorten]
  | cons key rest =>
    have shorter : (key :: rest).dropLast ≠ key :: rest := by
      intro same
      have := congrArg List.length same
      simp at this
    simp [Attachment.shorten, shorter]

theorem dropLast_eq_self_iff {chain : Chain} : chain.dropLast = chain ↔ chain = [] := by
  constructor
  · intro same
    have := congrArg List.length same
    rw [List.length_dropLast] at this
    exact List.length_eq_zero_iff.mp (by omega)
  · intro none
    rw [none]
    rfl

theorem tail_eq_self_iff {chain : Chain} : chain.tail = chain ↔ chain = [] := by
  cases chain <;> simp

theorem apply_eq_self_iff {edit : Edit} : path.apply edit = path ↔ path.Idle edit := by
  cases edit with
  | append segment => simp [apply, mapSelection_eq_self_iff, Idle]
  | prepend segment => simp [apply, mapSelection_eq_self_iff, Idle]
  | replaceLast segment =>
    rw [apply, mapSelection_eq_self_iff, Idle, lastSegment?, List.getLast?_eq_some_iff]
    constructor
    · intro same
      exact ⟨_, same.symm⟩
    · intro found
      obtain ⟨front, same⟩ := found
      rw [same, List.dropLast_concat]
  | dropLast => rw [apply, mapSelection_eq_self_iff, Idle, dropLast_eq_self_iff]
  | dropFirst => rw [apply, mapSelection_eq_self_iff, Idle, tail_eq_self_iff]
  | argument attachment => rw [apply, mapTarget_eq_self_iff, Idle, eq_comm]
  | extendArgument key =>
    simp [apply, mapTarget_eq_self_iff, mapArgument_eq_self_iff, Idle, extend_ne,
      Option.eq_none_iff_forall_ne_some]
  | shortenArgument =>
    simp only [apply, mapTarget_eq_self_iff, mapArgument_eq_self_iff, Idle, shorten_eq_self_iff]
  | clearArgument =>
    rw [apply, mapTarget_eq_self_iff, Idle]
    cases path.target <;> simp [Target.clearArgument, Target.argument?]
  | directive attachment => rw [apply, mapTarget_eq_self_iff, Idle, eq_comm]
  | extendDirective key =>
    simp [apply, mapTarget_eq_self_iff, mapDirective_eq_self_iff, Idle, extend_ne,
      Option.eq_none_iff_forall_ne_some]
  | shortenDirective =>
    simp only [apply, mapTarget_eq_self_iff, mapDirective_eq_self_iff, Idle, shorten_eq_self_iff]
  | clearDirective =>
    rw [apply, mapTarget_eq_self_iff, Idle]
    cases path.target <;> simp [Target.clearDirective, Target.directive?]
  | selectionPath =>
    obtain ⟨selection, target⟩ := path
    cases target <;> simp [apply, Idle, Path.selectionPath, ofSelection, isSelection]
  | parent =>
    rw [apply, Idle]
    cases up : path.parent? with
    | none =>
      obtain ⟨selection, target⟩ := path
      cases target <;> simp_all [parent?, isRoot, isSelection]
    | some parent =>
      have deeper := depth_of_parent? up
      have different : parent ≠ path := by
        intro same
        rw [same] at deeper
        omega
      obtain ⟨selection, target⟩ := path
      cases target <;> simp_all [parent?, isRoot, isSelection]

end Idle

/-- Edits and readers only ever make paths of one mode, even on a record that has room for an
argument beside a directive, where they do what they do on a path. Edits of the selection and edits
of the argument or directive can be made apart: each half becomes what its own edits make of it,
whatever the other half is. An edit that finds nothing to change, and no other, changes nothing. -/
theorem edits_keep_to_their_half :
    (∀ loose : Loose, loose.Reachable →
      (loose.argument? = none ∨ loose.directive? = none) ∧
      [loose.isSelection, loose.isWithinArgument, loose.isWithinDirective].count true = 1) ∧
    (∀ path : Path,
      (path.target.argument? = none ∨ path.target.directive? = none) ∧
      [path.isSelection, path.isWithinArgument, path.isWithinDirective].count true = 1 ∧
      ∀ edits : List Edit, path.loose.applyAll edits = (path.applyAll edits).loose) ∧
    (∀ edits : List Edit,
      (∀ edit ∈ edits, edit.onSelection = true ∨ edit.onTarget = true) →
      ∀ selection selection' target target',
        applyAll ⟨selection, target⟩ edits =
          ⟨(applyAll ⟨selection, target'⟩ (edits.filter Edit.onSelection)).selection,
            (applyAll ⟨selection', target⟩ (edits.filter Edit.onTarget)).target⟩) ∧
    ∀ (path : Path) (edit : Edit), path.apply edit = path ↔ path.Idle edit := by
  refine ⟨?_, ?_, ?_, ?_⟩
  · intro loose reachable
    obtain ⟨path, rfl⟩ := reachable.exists_path
    exact ⟨path.argument?_or_directive?, path.count_modes_loose⟩
  · intro path
    exact ⟨path.argument?_or_directive?, path.count_modes, path.loose_applyAll⟩
  · intro edits halves selection selection' target target'
    exact applyAll_halves halves selection selection' target target'
  · intro path edit
    exact apply_eq_self_iff

example :
    let user : Path := ⟨[.plain (.of "user")], .argument (.whole (.of "id"))⟩
    (user.applyAll [.append (.plain (.of "name")), .extendArgument (.of "key"),
      .prepend (.plain (.of "viewer")), .directive (.whole (.of "skip")), .shortenArgument,
      .dropLast, .extendDirective (.of "if")]).text = "/viewer/user@skip.if" := by
  decide +kernel

end Path

end PathQuery
