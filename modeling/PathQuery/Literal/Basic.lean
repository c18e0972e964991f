import PathQuery.Literal.Number
import Std.Data.ExtTreeMap

namespace PathQuery

inductive Literal where
  | null
  | bool (value : Bool)
  | number (number : Number)
  | string (text : String)
  | array (items : List Literal)
  | object (members : List (String × Literal))

/-- The members of an object by key; of a repeated key the last one stays. -/
def byKey {α : Type} (members : List (String × α)) : List (String × α) :=
  (Std.ExtTreeMap.ofList members compare).toList

namespace Literal

mutual

def canonical : Literal → Literal
  | null => null
  | bool value => bool value
  | number value => number value
  | string text => string text
  | array items => array (canonicalItems items)
  | object members => object (byKey (canonicalMembers members))

def canonicalItems : List Literal → List Literal
  | [] => []
  | item :: rest => item.canonical :: canonicalItems rest

def canonicalMembers : List (String × Literal) → List (String × Literal)
  | [] => []
  | (key, value) :: rest => (key, value.canonical) :: canonicalMembers rest

end

mutual

def beq : Literal → Literal → Bool
  | null, null => true
  | bool a, bool b => a == b
  | number a, number b => a == b
  | string a, string b => a == b
  | array as, array bs => beqItems as bs
  | object as, object bs => beqMembers as bs
  | _, _ => false

def beqItems : List Literal → List Literal → Bool
  | [], [] => true
  | a :: as, b :: bs => beq a b && beqItems as bs
  | _, _ => false

def beqMembers : List (String × Literal) → List (String × Literal) → Bool
  | [], [] => true
  | (key, a) :: as, (key', b) :: bs => key == key' && beq a b && beqMembers as bs
  | _, _ => false

end

mutual

theorem beq_iff (a b : Literal) : beq a b = true ↔ a = b := by
  cases a <;> cases b <;> simp [beq, beqItems_iff, beqMembers_iff]

theorem beqItems_iff (as bs : List Literal) : beqItems as bs = true ↔ as = bs := by
  cases as <;> cases bs <;> simp [beqItems, beq_iff, beqItems_iff]

theorem beqMembers_iff (as bs : List (String × Literal)) : beqMembers as bs = true ↔ as = bs := by
  match as, bs with
  | [], [] => simp [beqMembers]
  | [], _ :: _ => simp [beqMembers]
  | _ :: _, [] => simp [beqMembers]
  | (key, a) :: as, (key', b) :: bs =>
    simp [beqMembers, beq_iff a b, beqMembers_iff as bs, and_assoc]

end

instance : DecidableEq Literal := fun a b => decidable_of_iff _ (beq_iff a b)

def Same (a b : Literal) : Prop := a.canonical = b.canonical

instance (a b : Literal) : Decidable (Same a b) := inferInstanceAs (Decidable (_ = _))

end Literal

end PathQuery
