import PathQuery.Fingerprint
import PathQuery.Path.Order
import PathQuery.Path.Text

namespace PathQuery

structure Spec where
  fields : PathSet
  argumentsOf : Std.ExtTreeMap Name PathSet compare
  variableOf : Std.ExtTreeMap Path Name compare
  defaults : Std.ExtTreeMap Path Literal compare
deriving DecidableEq

namespace Spec

def empty : Spec := ⟨∅, ∅, ∅, ∅⟩

def isEmpty (spec : Spec) : Bool := spec.fields.isEmpty

def variableFor? (spec : Spec) (argument : Path) : Option Name := spec.variableOf[argument]?

def defaultFor? (spec : Spec) (argument : Path) : Option Literal := spec.defaults[argument]?

def canonical (spec : Spec) : Spec :=
  { spec with defaults := spec.defaults.map fun _ literal => literal.canonical }

def Same (a b : Spec) : Prop := a.canonical = b.canonical

instance (a b : Spec) : Decidable (Same a b) := inferInstanceAs (Decidable (_ = _))

/-- The map from arguments to variables is left out: it follows from its inverse. -/
def fingerprint (spec : Spec) : Fingerprint :=
  Fingerprint.ofList Path.fingerprint spec.fields.toList ++
    Fingerprint.ofList (fun (name, arguments) =>
      name.fingerprint ++ Fingerprint.ofList Path.fingerprint arguments.toList)
      spec.argumentsOf.toList ++
    Fingerprint.ofList (fun (argument, literal) => argument.fingerprint ++ literal.fingerprint)
      spec.defaults.toList

end Spec

end PathQuery
