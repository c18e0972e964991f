import PathQuery.Proofs.Outcome

namespace PathQuery

variable {ε σ τ α β γ δ : Type} {excused : ε → Prop}

def Agree (excused : ε → Prop) (related : α → β → Prop) : Except ε α → Except ε β → Prop
  | .ok value, .ok other => related value other
  | .ok _, .error error | .error error, .ok _ => excused error
  | .error error, .error other => error = other ∨ excused error ∨ excused other

section Outcomes

variable {related : α → β → Prop} {outcome : Except ε α} {other : Except ε β}

theorem Agree.of_map_eq {f : α → γ} {g : β → γ} (same : f <$> outcome = g <$> other) :
    Agree excused (fun a b => f a = g b) outcome other := by
  cases outcome with
  | error error =>
    cases other with
    | error error' => exact .inl (Except.error.inj same)
    | ok b => cases same
  | ok a =>
    cases other with
    | error error => cases same
    | ok b => exact Except.ok.inj same

theorem Agree.weaken {relatedMore : α → β → Prop} (agree : Agree excused relatedMore outcome other)
    (weaker : ∀ a b, relatedMore a b → related a b) : Agree excused related outcome other := by
  cases outcome with
  | error error => cases other <;> exact agree
  | ok a =>
    cases other with
    | error error => exact agree
    | ok b => exact weaker a b agree

theorem Agree.refl (outcome : Except ε α) : Agree excused Eq outcome outcome := by
  cases outcome with
  | error error => exact .inl rfl
  | ok value => exact rfl

theorem Agree.map_self (outcome : Except ε α) (f : α → β) :
    Agree excused (fun a b => f a = b) outcome (f <$> outcome) := by
  cases outcome with
  | error error => exact .inl rfl
  | ok value => exact rfl

theorem Agree.bind {next : α → Except ε γ} {next' : β → Except ε δ} {related' : γ → δ → Prop}
    (first : Agree excused related outcome other)
    (rest : ∀ a b, related a b → Agree excused related' (next a) (next' b)) :
    Agree excused related' (outcome >>= next) (other >>= next') := by
  cases outcome with
  | error error =>
    cases other with
    | error error' => exact first
    | ok b =>
      -- One has ended in an excused error, whatever becomes of the other.
      have ended : excused error := first
      show Agree excused related' (.error error) (next' b)
      cases next' b with
      | error error' => exact .inr (.inl ended)
      | ok value => exact ended
  | ok a =>
    cases other with
    | error error =>
      have ended : excused error := first
      show Agree excused related' (next a) (.error error)
      cases next a with
      | error error' => exact .inr (.inr ended)
      | ok value => exact ended
    | ok b => exact rest a b first

theorem Agree.map {f : α → γ} {g : β → δ} {related' : γ → δ → Prop}
    (agree : Agree excused (fun a b => related' (f a) (g b)) outcome other) :
    Agree excused related' (f <$> outcome) (g <$> other) := by
  cases outcome <;> cases other <;> exact agree

theorem Agree.foldlM {step step' : σ → α → Except ε σ} {as : List α} {seen : σ → τ}
    (each : ∀ a ∈ as, ∀ s t, seen s = seen t →
      Agree excused (fun s t => seen s = seen t) (step s a) (step' t a))
    {s t : σ} (same : seen s = seen t) :
    Agree excused (fun s t => seen s = seen t) (as.foldlM step s) (as.foldlM step' t) := by
  induction as generalizing s t with
  | nil => exact same
  | cons a as ih =>
    rw [List.foldlM_cons, List.foldlM_cons]
    apply (each a (by simp) s t same).bind
    intro s t same
    exact ih (fun a member => each a (List.mem_cons_of_mem _ member)) same

end Outcomes

/-- From states that look the same the two agree, and the states look the same after them. -/
def Alongside (excused : ε → Prop) (seen : σ → τ) (related : α → β → Prop)
    (action : StateT σ (Except ε) α) (other : StateT σ (Except ε) β) : Prop :=
  ∀ s t, seen s = seen t →
    Agree excused (fun r r' => related r.1 r'.1 ∧ seen r.2 = seen r'.2) (action.run s) (other.run t)

namespace Alongside

variable {seen : σ → τ} {related : α → β → Prop}

theorem pure {a : α} {b : β} (holds : related a b) :
    Alongside excused seen related (pure a) (pure b) :=
  fun _ _ same => ⟨holds, same⟩

theorem throw (error : ε) :
    Alongside excused seen related (throw error : StateT σ (Except ε) α) (throw error) :=
  fun _ _ _ => .inl rfl

theorem weaken {relatedMore : α → β → Prop} {action : StateT σ (Except ε) α}
    {other : StateT σ (Except ε) β} (along : Alongside excused seen relatedMore action other)
    (weaker : ∀ a b, relatedMore a b → related a b) :
    Alongside excused seen related action other :=
  fun s t same => (along s t same).weaken fun r r' => And.imp_left (weaker r.1 r'.1)

theorem lift {outcome : Except ε α} {other : Except ε β}
    (agree : Agree excused related outcome other) :
    Alongside excused seen related (liftM outcome) (liftM other) := by
  intro s t same
  refine Agree.bind agree fun a b holds => ?_
  exact ⟨holds, same⟩

theorem bind {action : StateT σ (Except ε) α} {other : StateT σ (Except ε) β}
    {next : α → StateT σ (Except ε) γ} {next' : β → StateT σ (Except ε) δ} {related' : γ → δ → Prop}
    (first : Alongside excused seen related action other)
    (rest : ∀ a b, related a b → Alongside excused seen related' (next a) (next' b)) :
    Alongside excused seen related' (action >>= next) (other >>= next') := by
  intro s t same
  rw [StateT.run_bind, StateT.run_bind]
  apply (first s t same).bind
  intro r r' holds
  exact rest r.1 r'.1 holds.1 r.2 r'.2 holds.2

/-- An action that does the same whatever the eye cannot see. -/
theorem of_run_map_eq {action other : StateT σ (Except ε) α} (out : α → γ)
    (same : ∀ s t, seen s = seen t →
      Prod.map out seen <$> action.run s = Prod.map out seen <$> other.run t) :
    Alongside excused seen (fun a b => out a = out b) action other := by
  intro s t look
  exact (Agree.of_map_eq (same s t look)).weaken fun r r' => Prod.mk.inj

theorem mapM {action other : α → StateT σ (Except ε) β} {as : List α} {out : β → γ}
    (each : ∀ a ∈ as, Alongside excused seen (fun b c => out b = out c) (action a) (other a)) :
    Alongside excused seen (fun bs cs => bs.map out = cs.map out) (as.mapM action)
      (as.mapM other) := by
  induction as with
  | nil => exact pure rfl
  | cons a as ih =>
    rw [List.mapM_cons, List.mapM_cons]
    apply (each a (by simp)).bind
    intro b c same
    apply (ih fun a member => each a (List.mem_cons_of_mem _ member)).bind
    intro bs cs all
    exact pure (by rw [List.map_cons, List.map_cons, same, all])

theorem forM {action other : α → StateT σ (Except ε) Unit} {as : List α}
    (each : ∀ a ∈ as, Alongside excused seen (fun _ _ => True) (action a) (other a)) :
    Alongside excused seen (fun _ _ => True) (as.forM action) (as.forM other) := by
  induction as with
  | nil => exact pure trivial
  | cons a as ih =>
    show Alongside _ _ _ (action a >>= fun _ => as.forM action)
      (other a >>= fun _ => as.forM other)
    apply (each a (by simp)).bind
    intro _ _ _
    exact ih fun a member => each a (List.mem_cons_of_mem _ member)

end Alongside

end PathQuery
