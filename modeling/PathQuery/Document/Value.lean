import PathQuery.Name

namespace PathQuery

inductive Value where
  | null
  | boolean (value : Bool)
  | int (text : String)
  | float (text : String)
  | string (text : String)
  | enum (name : Name)
  | var (name : Name)
  | list (items : List Value)
  | object (members : List (Name × Value))

namespace Value

mutual

def beq : Value → Value → Bool
  | null, null => true
  | boolean a, boolean b => a == b
  | int a, int b => a == b
  | float a, float b => a == b
  | string a, string b => a == b
  | enum a, enum b => a == b
  | var a, var b => a == b
  | list as, list bs => beqItems as bs
  | object as, object bs => beqMembers as bs
  | _, _ => false

def beqItems : List Value → List Value → Bool
  | [], [] => true
  | a :: as, b :: bs => beq a b && beqItems as bs
  | _, _ => false

def beqMembers : List (Name × Value) → List (Name × Value) → Bool
  | [], [] => true
  | (key, a) :: as, (key', b) :: bs => key == key' && beq a b && beqMembers as bs
  | _, _ => false

end

mutual

theorem beq_iff (a b : Value) : beq a b = true ↔ a = b := by
  cases a <;> cases b <;> simp [beq, beqItems_iff, beqMembers_iff]

theorem beqItems_iff (as bs : List Value) : beqItems as bs = true ↔ as = bs := by
  cases as <;> cases bs <;> simp [beqItems, beq_iff, beqItems_iff]

theorem beqMembers_iff (as bs : List (Name × Value)) : beqMembers as bs = true ↔ as = bs := by
  match as, bs with
  | [], [] => simp [beqMembers]
  | [], _ :: _ => simp [beqMembers]
  | _ :: _, [] => simp [beqMembers]
  | (key, a) :: as, (key', b) :: bs =>
    simp [beqMembers, beq_iff a b, beqMembers_iff as bs, and_assoc]

end

instance : DecidableEq Value := fun a b => decidable_of_iff _ (beq_iff a b)

end Value

end PathQuery
