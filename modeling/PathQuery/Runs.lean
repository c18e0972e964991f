namespace PathQuery

def runsBy {α κ : Type} [DecidableEq κ] (key : α → κ) : List α → List (κ × List α)
  | [] => []
  | a :: rest =>
    match runsBy key rest with
    | [] => [(key a, [a])]
    | (k, run) :: runs =>
      if key a = k then (k, a :: run) :: runs else (key a, [a]) :: (k, run) :: runs

theorem flatMap_runsBy {α κ : Type} [DecidableEq κ] (key : α → κ) (as : List α) :
    (runsBy key as).flatMap Prod.snd = as := by
  fun_induction runsBy key as with
  | case1 => rfl
  | case2 a rest runs ih => simp_all
  | case3 a rest run runs eq ih => simp_all
  | case4 a rest k run runs eq different ih => simp_all

end PathQuery
