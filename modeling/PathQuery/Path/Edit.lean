import PathQuery.Path.Basic

namespace PathQuery

namespace Target

def mapArgument (edit : Attachment → Attachment) : Target → Target
  | argument attachment => argument (edit attachment)
  | target => target

def mapDirective (edit : Attachment → Attachment) : Target → Target
  | directive attachment => directive (edit attachment)
  | target => target

def clearArgument : Target → Target
  | argument _ => selection
  | target => target

def clearDirective : Target → Target
  | directive _ => selection
  | target => target

end Target

namespace Path

inductive Edit where
  | append (segment : Segment)
  | prepend (segment : Segment)
  | replaceLast (segment : Segment)
  | dropLast
  | dropFirst
  | argument (attachment : Attachment)
  | extendArgument (key : Name)
  | shortenArgument
  | clearArgument
  | directive (attachment : Attachment)
  | extendDirective (key : Name)
  | shortenDirective
  | clearDirective
  | selectionPath
  | parent
deriving DecidableEq

def mapSelection (edit : Chain → Chain) (path : Path) : Path :=
  { path with selection := edit path.selection }

def mapTarget (edit : Target → Target) (path : Path) : Path :=
  { path with target := edit path.target }

def apply (path : Path) : Edit → Path
  | .append segment => path.mapSelection (· ++ [segment])
  | .prepend segment => path.mapSelection (segment :: ·)
  | .replaceLast segment => path.mapSelection (·.dropLast ++ [segment])
  | .dropLast => path.mapSelection List.dropLast
  | .dropFirst => path.mapSelection List.tail
  | .argument attachment => path.mapTarget fun _ => .argument attachment
  | .extendArgument key => path.mapTarget (.mapArgument (·.extend key))
  | .shortenArgument => path.mapTarget (.mapArgument Attachment.shorten)
  | .clearArgument => path.mapTarget .clearArgument
  | .directive attachment => path.mapTarget fun _ => .directive attachment
  | .extendDirective key => path.mapTarget (.mapDirective (·.extend key))
  | .shortenDirective => path.mapTarget (.mapDirective Attachment.shorten)
  | .clearDirective => path.mapTarget .clearDirective
  | .selectionPath => path.selectionPath
  | .parent => path.parent?.getD path

def applyAll (path : Path) (edits : List Edit) : Path := edits.foldl apply path

end Path

end PathQuery
