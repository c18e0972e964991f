import PathQuery.Spec.Basic

namespace PathQuery

inductive SpecError where
  | notSelection (path : Path)
  | notArgument (path : Path)
  | alreadyBound (argument : Path) (existing name : Name)
deriving DecidableEq

def SpecError.message : SpecError → String
  | notSelection path => s!"`{path}` is not a field path and cannot be selected"
  | notArgument path => s!"`{path}` does not refer to an argument"
  | alreadyBound argument existing name =>
    s!"`{argument}` is already bound to `${existing}` and cannot also be bound to `${name}`"

namespace Spec

inductive Edit where
  | select (path : Path)
  | bind (name : Name) (argument : Path)
  | setDefault (argument : Path) (literal : Literal)
deriving DecidableEq

def select (spec : Spec) (path : Path) : Except SpecError Spec :=
  if path.isSelection then .ok { spec with fields := spec.fields.insert path }
  else .error (.notSelection path)

/-- Feeds the argument from the variable; once more to the same variable changes nothing. -/
def bind (spec : Spec) (name : Name) (argument : Path) : Except SpecError Spec :=
  if argument.isArgument then
    match spec.variableOf[argument]? with
    | some existing =>
      if existing = name then .ok spec else .error (.alreadyBound argument existing name)
    | none =>
      .ok { spec with
        argumentsOf :=
          spec.argumentsOf.insert name ((spec.argumentsOf.getD name ∅).insert argument)
        variableOf := spec.variableOf.insert argument name }
  else .error (.notArgument argument)

def setDefault (spec : Spec) (argument : Path) (literal : Literal) : Except SpecError Spec :=
  if argument.isArgument then
    .ok { spec with defaults := spec.defaults.insert argument literal }
  else .error (.notArgument argument)

def apply (spec : Spec) : Edit → Except SpecError Spec
  | .select path => spec.select path
  | .bind name argument => spec.bind name argument
  | .setDefault argument literal => spec.setDefault argument literal

def update (spec : Spec) (edits : List Edit) : Except SpecError Spec := edits.foldlM apply spec

end Spec

end PathQuery
