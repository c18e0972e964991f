namespace PathQuery

/-- Puts an element before the first one whose key is not smaller. -/
def insertBy {α κ : Type} [Ord κ] (key : α → κ) (a : α) : List α → List α
  | [] => [a]
  | b :: rest =>
    if (compare (key a) (key b)).isLE then a :: b :: rest else b :: insertBy key a rest

def sortBy {α κ : Type} [Ord κ] (key : α → κ) (as : List α) : List α :=
  as.foldr (insertBy key) []

end PathQuery
