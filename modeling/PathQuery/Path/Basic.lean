import PathQuery.Name

namespace PathQuery

/-- How a field hangs below its parent: directly, in `... on type`, or in a named fragment. -/
inductive Context where
  | plain
  | inline (type : Name)
  | spread (fragment type : Name)
deriving DecidableEq

structure Segment where
  context : Context
  field : Name
  alias? : Option Name
deriving DecidableEq

abbrev Chain := List Segment

structure Attachment where
  name : Name
  subPath : List Name
deriving DecidableEq

inductive Target where
  | selection
  | argument (attachment : Attachment)
  | directive (attachment : Attachment)
deriving DecidableEq

structure Path where
  selection : Chain
  target : Target
deriving DecidableEq

namespace Context

def type? : Context → Option Name
  | plain => none
  | inline type | spread _ type => some type

def fragment? : Context → Option Name
  | plain | inline _ => none
  | spread fragment _ => some fragment

end Context

namespace Segment

def plain (field : Name) : Segment := ⟨.plain, field, none⟩

end Segment

namespace Attachment

def whole (name : Name) : Attachment := ⟨name, []⟩

def extend (attachment : Attachment) (key : Name) : Attachment :=
  { attachment with subPath := attachment.subPath ++ [key] }

def shorten (attachment : Attachment) : Attachment :=
  { attachment with subPath := attachment.subPath.dropLast }

def parent? (attachment : Attachment) : Option Attachment :=
  if attachment.subPath.isEmpty then none else some attachment.shorten

end Attachment

namespace Target

def argument? : Target → Option Attachment
  | argument attachment => some attachment
  | selection | directive _ => none

def directive? : Target → Option Attachment
  | directive attachment => some attachment
  | selection | argument _ => none

def depth : Target → Nat
  | selection => 0
  | argument attachment | directive attachment => attachment.subPath.length + 1

end Target

namespace Path

def root : Path := ⟨[], .selection⟩

def ofSelection (selection : Chain) : Path := ⟨selection, .selection⟩

def ofFields (names : List Name) : Path := ofSelection (names.map .plain)

def level (path : Path) : Nat := path.selection.length

def lastSegment? (path : Path) : Option Segment := path.selection.getLast?

def isSelection (path : Path) : Bool := path.target matches .selection

def isRoot (path : Path) : Bool := path.selection.isEmpty && path.isSelection

def isArgument (path : Path) : Bool :=
  path.target.argument?.any fun attachment => attachment.subPath.isEmpty

def isWithinArgument (path : Path) : Bool := path.target.argument?.isSome

def isWithinDirective (path : Path) : Bool := path.target.directive?.isSome

def selectionPath (path : Path) : Path := ofSelection path.selection

def argumentPath (path : Path) (name : Name) : Path :=
  ⟨path.selection, .argument (.whole name)⟩

/-- The path one step closer to the root: first up the keys, then off the argument or directive,
then up the selection. -/
def parent? (path : Path) : Option Path :=
  match path.target with
  | .selection =>
    if path.selection.isEmpty then none else some (ofSelection path.selection.dropLast)
  | .argument attachment =>
    some ⟨path.selection, attachment.parent?.elim .selection .argument⟩
  | .directive attachment =>
    some ⟨path.selection, attachment.parent?.elim .selection .directive⟩

def depth (path : Path) : Nat := path.level + path.target.depth

theorem depth_of_parent? {path parent : Path} (up : path.parent? = some parent) :
    path.depth = parent.depth + 1 := by
  obtain ⟨selection, target⟩ := path
  cases target with
  | selection =>
    cases selection <;> simp [parent?] at up
    subst up
    simp [depth, level, ofSelection, Target.depth]
  | argument attachment =>
    obtain ⟨name, keys⟩ := attachment
    simp only [parent?, Option.some.injEq] at up
    subst up
    cases keys <;>
      simp [depth, level, Target.depth, Attachment.parent?, Attachment.shorten, Nat.add_assoc]
  | directive attachment =>
    obtain ⟨name, keys⟩ := attachment
    simp only [parent?, Option.some.injEq] at up
    subst up
    cases keys <;>
      simp [depth, level, Target.depth, Attachment.parent?, Attachment.shorten, Nat.add_assoc]

def ancestors (path : Path) : List Path :=
  match _up : path.parent? with
  | none => []
  | some parent => parent :: parent.ancestors
termination_by path.depth
decreasing_by
  have := depth_of_parent? _up
  omega

end Path

end PathQuery
