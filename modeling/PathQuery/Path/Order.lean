import PathQuery.Path.Basic
import Std.Data.ExtTreeSet

namespace PathQuery

open Std

attribute [local instance] lexOrd

theorem lawfulEqOrd_of_key {α κ : Type} [Ord κ] [LawfulEqOrd κ] (key : α → κ)
    (injective : ∀ a b, key a = key b → a = b) : LawfulEqCmp (compareOn key) where
  eq_of_compare same := injective _ _ (LawfulEqOrd.eq_of_compare same)

namespace Context

def key (context : Context) : Option (Option Name × Name) :=
  context.type?.map fun type => (context.fragment?, type)

theorem key_injective (a b : Context) (same : a.key = b.key) : a = b := by
  cases a <;> cases b <;> simp_all [key, type?, fragment?]

instance : Ord Context := ⟨compareOn key⟩

instance : TransOrd Context := inferInstanceAs (TransCmp (compareOn key))

instance : LawfulEqOrd Context := lawfulEqOrd_of_key key key_injective

end Context

namespace Segment

def key (segment : Segment) : Context × Name × Option Name :=
  (segment.context, segment.field, segment.alias?)

theorem key_injective (a b : Segment) (same : a.key = b.key) : a = b := by
  cases a; cases b; simp_all [key]

instance : Ord Segment := ⟨compareOn key⟩

instance : TransOrd Segment := inferInstanceAs (TransCmp (compareOn key))

instance : LawfulEqOrd Segment := lawfulEqOrd_of_key key key_injective

end Segment

namespace Attachment

def key (attachment : Attachment) : Name × List Name := (attachment.name, attachment.subPath)

theorem key_injective (a b : Attachment) (same : a.key = b.key) : a = b := by
  cases a; cases b; simp_all [key]

instance : Ord Attachment := ⟨compareOn key⟩

instance : TransOrd Attachment := inferInstanceAs (TransCmp (compareOn key))

instance : LawfulEqOrd Attachment := lawfulEqOrd_of_key key key_injective

end Attachment

namespace Path

def key (path : Path) : Chain × Option Attachment × Option Attachment :=
  (path.selection, path.target.argument?, path.target.directive?)

theorem key_injective (a b : Path) (same : a.key = b.key) : a = b := by
  obtain ⟨s, t⟩ := a
  obtain ⟨s', t'⟩ := b
  cases t <;> cases t' <;> simp_all [key, Target.argument?, Target.directive?]

instance : Ord Path := ⟨compareOn key⟩

instance : TransOrd Path := inferInstanceAs (TransCmp (compareOn key))

instance : LawfulEqOrd Path := lawfulEqOrd_of_key key key_injective

end Path

abbrev PathSet := Std.ExtTreeSet Path compare

def PathSet.ofList (paths : List Path) : PathSet := Std.ExtTreeSet.ofList paths compare

theorem PathSet.mem_ofList {paths : List Path} {path : Path} :
    path ∈ ofList paths ↔ path ∈ paths := by
  rw [ofList, ExtTreeSet.mem_ofList, List.contains_iff_mem]

end PathQuery
