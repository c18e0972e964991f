import Mathlib.Data.List.Forall2

namespace PathQuery

section Agreement

variable {m : Type → Type} [Monad m] {α β : Type} {as : List α}

theorem foldlM_congr {step other : β → α → m β}
    (same : ∀ a ∈ as, ∀ state, step state a = other state a) (start : β) :
    as.foldlM step start = as.foldlM other start := by
  induction as generalizing start with
  | nil => rfl
  | cons a as ih =>
    rw [List.foldlM_cons, List.foldlM_cons, same a (by simp)]
    exact bind_congr fun state => ih (fun a member => same a (List.mem_cons_of_mem _ member)) state

theorem forM_congr {action other : α → m Unit} (same : ∀ a ∈ as, action a = other a) :
    as.forM action = as.forM other := by
  induction as with
  | nil => rfl
  | cons a as ih =>
    show (action a >>= fun _ => as.forM action) = (other a >>= fun _ => as.forM other)
    rw [same a (by simp), ih fun a member => same a (List.mem_cons_of_mem _ member)]

theorem mapM_congr [LawfulMonad m] {f g : α → m β} (same : ∀ a ∈ as, f a = g a) :
    as.mapM f = as.mapM g := by
  induction as with
  | nil => rfl
  | cons a as ih =>
    rw [List.mapM_cons, List.mapM_cons, same a (by simp),
      ih fun a member => same a (List.mem_cons_of_mem _ member)]

theorem bind_congr_ok {ε α β : Type} {outcome : Except ε α} {next other : α → Except ε β}
    (same : ∀ value, outcome = .ok value → next value = other value) :
    outcome >>= next = outcome >>= other := by
  cases outcome with
  | error error => rfl
  | ok value => exact same value rfl

end Agreement

variable {ε σ α β γ : Type} {fault : ε → Prop}

theorem bind_eq_ok_iff {outcome : Except ε α} {next : α → Except ε β} {result : β} :
    outcome >>= next = .ok result ↔ ∃ value, outcome = .ok value ∧ next value = .ok result := by
  cases outcome with
  | error error => simp [Bind.bind, Except.bind]
  | ok value => simp [Bind.bind, Except.bind]

theorem map_eq_ok_iff {outcome : Except ε α} {f : α → β} {result : β} :
    f <$> outcome = .ok result ↔ ∃ value, outcome = .ok value ∧ f value = result := by
  cases outcome with
  | error error => simp [Functor.map, Except.map]
  | ok value => simp [Functor.map, Except.map]

theorem mapError_eq_error_iff {outcome : Except ε α} {f : ε → γ} {error : γ} :
    outcome.mapError f = .error error ↔ ∃ cause, outcome = .error cause ∧ f cause = error := by
  cases outcome with
  | error cause => simp [Except.mapError]
  | ok value => simp [Except.mapError]

theorem exists_error_iff {outcome : Except ε α} :
    (∃ error, outcome = .error error) ↔ ¬ ∃ value, outcome = .ok value := by
  cases outcome with
  | error error => simp
  | ok value => simp

theorem mapM_eq_ok_iff {read : α → Except ε β} {write : β → α}
    (each : ∀ a b, read a = .ok b ↔ a = write b) {as : List α} {bs : List β} :
    as.mapM read = .ok bs ↔ as = bs.map write := by
  induction as generalizing bs with
  | nil => cases bs <;> simp [pure, Except.pure]
  | cons a as ih =>
    rw [List.mapM_cons]
    simp only [bind_eq_ok_iff, each, ih, pure, Except.pure, Except.ok.injEq]
    cases bs <;> simp [eq_comm]

theorem mapM_eq_ok_iff_forall₂ {f : α → Except ε β} {as : List α} {bs : List β} :
    as.mapM f = .ok bs ↔ List.Forall₂ (fun a b => f a = .ok b) as bs := by
  induction as generalizing bs with
  | nil => simp [pure, Except.pure, eq_comm]
  | cons a as ih =>
    rw [List.mapM_cons]
    simp only [bind_eq_ok_iff, ih, pure, Except.pure, Except.ok.injEq, List.forall₂_cons_left_iff]
    constructor
    · intro found
      obtain ⟨b, first, rest, others, rfl⟩ := found
      exact ⟨b, rest, first, others, rfl⟩
    · intro found
      obtain ⟨b, rest, first, others, rfl⟩ := found
      exact ⟨b, first, rest, others, rfl⟩

def fault? : Except ε α → Option ε
  | .ok _ => none
  | .error error => some error

theorem fault?_eq_some_iff {outcome : Except ε α} {error : ε} :
    fault? outcome = some error ↔ outcome = .error error := by
  cases outcome with
  | ok value => simp [fault?]
  | error error => simp [fault?]

theorem fault?_eq_none_iff {outcome : Except ε α} :
    fault? outcome = none ↔ ∃ value, outcome = .ok value := by
  cases outcome with
  | ok value => simp [fault?]
  | error error => simp [fault?]

theorem fault?_bind {outcome : Except ε α} {next : α → Except ε β} {later : Option ε}
    (same : ∀ value, fault? (next value) = later) :
    fault? (outcome >>= next) = (fault? outcome).or later := by
  cases outcome with
  | ok value => exact same value
  | error error => rfl

theorem fault?_bind_pure (f : α → β) (outcome : Except ε α) :
    fault? (outcome >>= fun value => pure (f value)) = fault? outcome := by
  cases outcome <;> rfl

theorem fault?_map (f : α → β) (outcome : Except ε α) : fault? (f <$> outcome) = fault? outcome := by
  cases outcome <;> rfl

theorem fault?_mapM (f : α → Except ε β) (as : List α) :
    fault? (as.mapM f) = as.findSome? fun a => fault? (f a) := by
  induction as with
  | nil => rfl
  | cons a as ih =>
    rw [List.mapM_cons, List.findSome?_cons, ← ih]
    cases f a with
    | error error => rfl
    | ok value => cases as.mapM f <;> rfl

def Meets (fault : ε → Prop) (good : α → Prop) : Except ε α → Prop
  | .ok value => good value
  | .error error => fault error

theorem Meets.of_ok {good : α → Prop} {outcome : Except ε α} {value : α}
    (meets : Meets fault good outcome) (ok : outcome = .ok value) : good value := by
  subst ok
  exact meets

theorem Meets.ok {good : α → Prop} {outcome : Except ε α} {value : α} (ok : outcome = .ok value)
    (holds : good value) : Meets fault good outcome := by
  subst ok
  exact holds

theorem Meets.of_error {good : α → Prop} {outcome : Except ε α} {error : ε}
    (meets : Meets fault good outcome) (failed : outcome = .error error) : fault error := by
  subst failed
  exact meets

theorem Meets.weaken {good better : α → Prop} {worse : ε → Prop} {outcome : Except ε α}
    (meets : Meets fault better outcome) (faults : ∀ error, fault error → worse error)
    (goods : ∀ value, better value → good value) : Meets worse good outcome := by
  cases outcome with
  | ok value => exact goods value meets
  | error error => exact faults error meets

theorem Meets.imp {good better : α → Prop} {outcome : Except ε α}
    (meets : Meets fault better outcome) (goods : ∀ value, better value → good value) :
    Meets fault good outcome :=
  meets.weaken (fun _ same => same) goods

theorem Meets.bind {middle : α → Prop} {good : β → Prop} {outcome : Except ε α}
    {next : α → Except ε β} (first : Meets fault middle outcome)
    (rest : ∀ value, middle value → Meets fault good (next value)) :
    Meets fault good (outcome >>= next) := by
  cases outcome with
  | ok value => exact rest value first
  | error error => exact first

theorem Meets.map {good : β → Prop} {outcome : Except ε α} {f : α → β}
    (meets : Meets fault (fun value => good (f value)) outcome) :
    Meets fault good (f <$> outcome) := by
  cases outcome with
  | ok value => exact meets
  | error error => exact meets

theorem Meets.mapM {good : β → Prop} {f : α → Except ε β} {as : List α}
    (each : ∀ a ∈ as, Meets fault good (f a)) :
    Meets fault (fun bs => ∀ b ∈ bs, good b) (as.mapM f) := by
  induction as with
  | nil => exact fun b none => by cases none
  | cons a as ih =>
    rw [List.mapM_cons]
    apply (each a (by simp)).bind
    intro b holds
    apply (ih fun a member => each a (List.mem_cons_of_mem _ member)).bind
    intro bs all
    exact List.forall_mem_cons.mpr ⟨holds, all⟩

/-- A loop keeps what each of its steps hands on to the next. -/
theorem Meets.foldlM {step : β → α → Except ε β} {as : List α} {start : β}
    (progress : List α → β → Prop) (first : progress [] start)
    (each : ∀ done a rest state, as = done ++ a :: rest → progress done state →
      Meets fault (progress (done ++ [a])) (step state a)) :
    Meets fault (progress as) (as.foldlM step start) := by
  suffices ∀ done rest state, as = done ++ rest → progress done state →
      Meets fault (progress as) (rest.foldlM step state) from this [] as start rfl first
  intro done rest
  induction rest generalizing done with
  | nil =>
    intro state split sofar
    rw [List.append_nil] at split
    exact split ▸ sofar
  | cons a rest ih =>
    intro state split sofar
    rw [List.foldlM_cons]
    apply (each done a rest state split sofar).bind
    intro state sofar
    exact ih (done ++ [a]) state (by simp [split]) sofar

theorem Meets.run_bind {first : StateT σ (Except ε) α} {next : α → StateT σ (Except ε) β}
    {state : σ} {middle : α × σ → Prop} {good : β × σ → Prop}
    (meets : Meets fault middle (first.run state))
    (rest : ∀ value state, middle (value, state) → Meets fault good ((next value).run state)) :
    Meets fault good ((first >>= next).run state) := by
  rw [StateT.run_bind]
  exact meets.bind fun result sofar => rest result.1 result.2 sofar

theorem Meets.run_get_bind {next : σ → StateT σ (Except ε) β} {state : σ} {good : β × σ → Prop}
    (rest : Meets fault good ((next state).run state)) :
    Meets fault good ((get >>= next).run state) :=
  rest

theorem Meets.run_lift_bind {outcome : Except ε α} {next : α → StateT σ (Except ε) β} {state : σ}
    {middle : α → Prop} {good : β × σ → Prop} (meets : Meets fault middle outcome)
    (rest : ∀ value, middle value → Meets fault good ((next value).run state)) :
    Meets fault good ((liftM outcome >>= next).run state) := by
  cases outcome with
  | ok value => exact rest value meets
  | error error => exact meets

theorem Meets.run_mapM {action : α → StateT σ (Except ε) β} {as : List α} {start : σ}
    (result : α → β) (progress : List α → σ → Prop) (first : progress [] start)
    (each : ∀ done a rest state, as = done ++ a :: rest → progress done state →
      Meets fault (fun out => out.1 = result a ∧ progress (done ++ [a]) out.2)
        ((action a).run state)) :
    Meets fault (fun out => out.1 = as.map result ∧ progress as out.2)
      ((as.mapM action).run start) := by
  suffices ∀ done rest state, as = done ++ rest → progress done state →
      Meets fault (fun out => out.1 = rest.map result ∧ progress as out.2)
        ((rest.mapM action).run state) from this [] as start rfl first
  intro done rest
  induction rest generalizing done with
  | nil =>
    intro state split sofar
    rw [List.append_nil] at split
    exact ⟨rfl, split ▸ sofar⟩
  | cons a rest ih =>
    intro state split sofar
    rw [List.mapM_cons]
    apply (each done a rest state split sofar).run_bind
    intro value state sofar
    obtain ⟨rfl, sofar⟩ := sofar
    apply (ih (done ++ [a]) state (by simp [split]) sofar).run_bind
    intro values state sofar
    obtain ⟨rfl, sofar⟩ := sofar
    exact ⟨rfl, sofar⟩

theorem Meets.run_forM {action : α → StateT σ (Except ε) Unit} {as : List α} {start : σ}
    (progress : List α → σ → Prop) (first : progress [] start)
    (each : ∀ done a rest state, as = done ++ a :: rest → progress done state →
      Meets fault (fun out => progress (done ++ [a]) out.2) ((action a).run state)) :
    Meets fault (fun out => progress as out.2) ((as.forM action).run start) := by
  suffices ∀ done rest state, as = done ++ rest → progress done state →
      Meets fault (fun out => progress as out.2) ((rest.forM action).run state)
    from this [] as start rfl first
  intro done rest
  induction rest generalizing done with
  | nil =>
    intro state split sofar
    rw [List.append_nil] at split
    exact split ▸ sofar
  | cons a rest ih =>
    intro state split sofar
    show Meets _ _ ((action a >>= fun _ => rest.forM action).run state)
    apply (each done a rest state split sofar).run_bind
    intro _ state sofar
    exact ih (done ++ [a]) state (by simp [split]) sofar

/-- Wherever the action fails, the error is of the kind. -/
def FailsOnly (fault : ε → Prop) (action : StateT σ (Except ε) α) : Prop :=
  ∀ state, Meets fault (fun _ => True) (action.run state)

namespace FailsOnly

theorem pure (value : α) : FailsOnly fault (pure value : StateT σ (Except ε) α) :=
  fun _ => trivial

theorem throw {error : ε} (kind : fault error) :
    FailsOnly fault (throw error : StateT σ (Except ε) α) :=
  fun _ => kind

theorem get : FailsOnly fault (get : StateT σ (Except ε) σ) :=
  fun _ => trivial

theorem set (state : σ) : FailsOnly fault (set state : StateT σ (Except ε) PUnit) :=
  fun _ => trivial

theorem bind {action : StateT σ (Except ε) α} {next : α → StateT σ (Except ε) β}
    (first : FailsOnly fault action) (rest : ∀ value, FailsOnly fault (next value)) :
    FailsOnly fault (action >>= next) :=
  fun state => (first state).run_bind fun value state _ => rest value state

theorem lift {outcome : Except ε α} (meets : Meets fault (fun _ => True) outcome) :
    FailsOnly fault (liftM outcome : StateT σ (Except ε) α) := by
  intro state
  cases outcome with
  | ok value => trivial
  | error error => exact meets

theorem mapM {action : α → StateT σ (Except ε) β} {as : List α}
    (each : ∀ a ∈ as, FailsOnly fault (action a)) : FailsOnly fault (as.mapM action) := by
  induction as with
  | nil => exact pure []
  | cons a as ih =>
    rw [List.mapM_cons]
    apply (each a (by simp)).bind
    intro b
    apply (ih fun a member => each a (List.mem_cons_of_mem _ member)).bind
    exact fun bs => pure (b :: bs)

theorem forM {action : α → StateT σ (Except ε) Unit} {as : List α}
    (each : ∀ a ∈ as, FailsOnly fault (action a)) : FailsOnly fault (as.forM action) := by
  induction as with
  | nil => exact pure ()
  | cons a as ih =>
    show FailsOnly fault (action a >>= fun _ => as.forM action)
    apply (each a (by simp)).bind
    exact fun _ => ih fun a member => each a (List.mem_cons_of_mem _ member)

end FailsOnly

end PathQuery
