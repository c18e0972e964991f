import PathQuery.Document.Value
import PathQuery.Schema.TypeRef

namespace PathQuery

inductive Selection where
  | field (alias? : Option Name) (name : Name) (arguments : List (Name × Value))
      (selections : List Selection)
  | inline (type : Name) (selections : List Selection)
  | spread (fragment : Name)

namespace Selection

mutual

def beq : Selection → Selection → Bool
  | field alias? name arguments selections, field alias?' name' arguments' selections' =>
    alias? == alias?' && name == name' && arguments == arguments' && beqAll selections selections'
  | inline type selections, inline type' selections' =>
    type == type' && beqAll selections selections'
  | spread fragment, spread fragment' => fragment == fragment'
  | _, _ => false

def beqAll : List Selection → List Selection → Bool
  | [], [] => true
  | a :: as, b :: bs => beq a b && beqAll as bs
  | _, _ => false

end

mutual

theorem beq_iff (a b : Selection) : beq a b = true ↔ a = b := by
  cases a <;> cases b <;> simp [beq, beqAll_iff, and_assoc]

theorem beqAll_iff (as bs : List Selection) : beqAll as bs = true ↔ as = bs := by
  cases as <;> cases bs <;> simp [beqAll, beq_iff, beqAll_iff]

end

instance : DecidableEq Selection := fun a b => decidable_of_iff _ (beq_iff a b)

def typename : Selection := field none .typename [] []

end Selection

structure VariableDefinition where
  name : Name
  type : TypeRef
  default? : Option Value
deriving DecidableEq

structure FragmentDefinition where
  name : Name
  type : Name
  selections : List Selection
deriving DecidableEq

structure Document where
  variableDefinitions : List VariableDefinition
  selections : List Selection
  fragmentDefinitions : List FragmentDefinition
deriving DecidableEq

end PathQuery
