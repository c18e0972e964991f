import PathQuery.Path.Order
import Std.Data.ExtTreeMap

namespace PathQuery

abbrev ChainSet := Std.ExtTreeSet Chain compare

abbrev ChainMap (α : Type) := Std.ExtTreeMap Chain α compare

structure Levels where
  buckets : Std.ExtTreeMap Nat ChainSet compare
deriving DecidableEq

namespace Levels

def empty : Levels := ⟨∅⟩

def chainsAt (levels : Levels) (depth : Nat) : ChainSet := levels.buckets.getD depth ∅

def contains (levels : Levels) (chain : Chain) : Bool :=
  (levels.chainsAt chain.length).contains chain

def add (levels : Levels) (chain : Chain) : Levels :=
  ⟨levels.buckets.insert chain.length ((levels.chainsAt chain.length).insert chain)⟩

/-- Adds the chain's first `n` segments, then fewer and fewer, up to a selection already there: that
one brought everything above it along. -/
def insertUpTo (levels : Levels) (chain : Chain) : Nat → Levels
  | 0 => levels
  | n + 1 =>
    if levels.contains (chain.take (n + 1)) then levels
    else (levels.add (chain.take (n + 1))).insertUpTo chain n

def insert (levels : Levels) (chain : Chain) : Levels := levels.insertUpTo chain chain.length

def insertPath (levels : Levels) (path : Path) : Levels :=
  if path.isSelection then levels.insert path.selection else levels

def ofPaths (paths : List Path) : Levels := paths.foldl insertPath empty

def ascending (levels : Levels) : List (Nat × ChainSet) := levels.buckets.toList

def descending (levels : Levels) : List (Nat × ChainSet) := levels.ascending.reverse

end Levels

end PathQuery
