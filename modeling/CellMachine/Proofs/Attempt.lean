import CellMachine.Attempt

/-!
Three properties of computations that pass to sequences of them: to keep a property
of states, however the computation ends; to commute with a change of states that the
computation cannot see; and to be simulated by a computation on other states.
-/

namespace CellMachine.Attempt

variable {ε σ α β : Type}

/-- The state that is left, from the way the computation ends. As an equation it
rewrites without running the computation. -/
theorem state_eq (x : Attempt ε σ α) (s : σ) :
    x.state s =
      match x.run s with
      | .ok _ t => t
      | .error _ t => t := rfl

/-- A computation is known by how it ends and by what it leaves. -/
theorem run_eq (x : Attempt ε σ α) (s : σ) :
    x.run s =
      match x.result s with
      | .ok a => .ok a (x.state s)
      | .error e => .error e (x.state s) := by
  rw [result, state_eq]
  cases x.run s <;> rfl

theorem run_ofExcept_of_ok {r : Except ε α} {a : α} (h : r = .ok a) (s : σ) :
    (ofExcept r : Attempt ε σ α).run s = .ok a s := by
  rw [h]
  rfl

theorem run_ofExcept_of_error {r : Except ε α} {e : ε} (h : r = .error e) (s : σ) :
    (ofExcept r : Attempt ε σ α).run s = .error e s := by
  rw [h]
  rfl

theorem run_bind_of_ok {x : Attempt ε σ α} {s t : σ} {a : α} (h : x.run s = .ok a t)
    (f : α → Attempt ε σ β) : (x >>= f).run s = (f a).run t := by
  rw [EStateM.run_bind, h]

theorem run_bind_of_error {x : Attempt ε σ α} {s t : σ} {e : ε} (h : x.run s = .error e t)
    (f : α → Attempt ε σ β) : (x >>= f).run s = .error e t := by
  rw [EStateM.run_bind, h]

@[simp] theorem state_pure (a : α) (s : σ) : (pure a : Attempt ε σ α).state s = s := rfl

theorem state_map (f : α → β) (x : Attempt ε σ α) (s : σ) : (f <$> x).state s = x.state s := by
  rw [← bind_pure_comp, state_bind, state_eq]
  cases x.run s <;> rfl

theorem result_map (f : α → β) (x : Attempt ε σ α) (s : σ) :
    (f <$> x).result s = (x.result s).map f := by
  rw [← bind_pure_comp, result_bind, result]
  cases x.run s <;> rfl

theorem result_of_ok {x : Attempt ε σ α} {s t : σ} {a : α} (h : x.run s = .ok a t) :
    x.result s = .ok a := by
  rw [result, h]

theorem result_of_error {x : Attempt ε σ α} {s t : σ} {e : ε} (h : x.run s = .error e t) :
    x.result s = .error e := by
  rw [result, h]

theorem state_of_ok {x : Attempt ε σ α} {s t : σ} {a : α} (h : x.run s = .ok a t) :
    x.state s = t := by
  rw [state_eq, h]

theorem state_of_error {x : Attempt ε σ α} {s t : σ} {e : ε} (h : x.run s = .error e t) :
    x.state s = t := by
  rw [state_eq, h]

theorem state_bind_of_ok {x : Attempt ε σ α} {s t : σ} {a : α} (h : x.run s = .ok a t)
    (f : α → Attempt ε σ β) : (x >>= f).state s = (f a).state t := by
  rw [state_bind, h]

theorem state_bind_of_error {x : Attempt ε σ α} {s t : σ} {e : ε} (h : x.run s = .error e t)
    (f : α → Attempt ε σ β) : (x >>= f).state s = t := by
  rw [state_bind, h]

/-- A state with `P` is followed by one, after a failure as well. -/
def Preserves (P : σ → Prop) (x : Attempt ε σ α) : Prop :=
  ∀ s, P s → P (x.state s)

theorem preserves_pure (P : σ → Prop) (a : α) :
    Preserves P (pure a : Attempt ε σ α) := by
  intro s hs
  exact hs

theorem preserves_throw (P : σ → Prop) (e : ε) :
    Preserves P (throw e : Attempt ε σ α) := by
  intro s hs
  exact hs

theorem preserves_ofExcept (P : σ → Prop) (r : Except ε α) :
    Preserves P (ofExcept r : Attempt ε σ α) := by
  cases r with
  | ok a => exact preserves_pure P a
  | error e => exact preserves_throw P e

theorem preserves_modify (P : σ → Prop) (f : σ → σ) (h : ∀ s, P s → P (f s)) :
    Preserves P (modify f : Attempt ε σ PUnit) := by
  intro s hs
  exact h s hs

theorem Preserves.bind {P : σ → Prop} {x : Attempt ε σ α} {f : α → Attempt ε σ β}
    (hx : Preserves P x) (hf : ∀ a, Preserves P (f a)) : Preserves P (x >>= f) := by
  intro s hs
  have hfirst := hx s hs
  rw [state_bind]
  rw [state_eq] at hfirst
  cases hrun : x.run s with
  | ok a t =>
      rw [hrun] at hfirst
      exact hf a t hfirst
  | error e t =>
      rw [hrun] at hfirst
      exact hfirst

/-- A check that may fail before the rest is begun. -/
theorem Preserves.guard {P : σ → Prop} {p : Prop} [Decidable p] {e : ε}
    {rest : Attempt ε σ α} (h : Preserves P rest) :
    Preserves P (do
      if p then
        throw e
      rest) := by
  by_cases hp : p
  · simp only [if_pos hp]
    exact Preserves.bind (preserves_throw P e) fun _ => h
  · simp only [if_neg hp]
    exact h

/-- The same ending with a changed state. -/
def mapState (f : σ → σ) : EStateM.Result ε σ α → EStateM.Result ε σ α
  | .ok a s => .ok a (f s)
  | .error e s => .error e (f s)

/-- The computation takes no notice of the change `f`: it ends as it would have
without it, and leaves the state changed in the same way. -/
def Commutes (f : σ → σ) (x : Attempt ε σ α) : Prop :=
  ∀ s, x.run (f s) = mapState f (x.run s)

theorem commutes_pure (f : σ → σ) (a : α) :
    Commutes f (pure a : Attempt ε σ α) := by
  intro s
  rfl

theorem commutes_throw (f : σ → σ) (e : ε) :
    Commutes f (throw e : Attempt ε σ α) := by
  intro s
  rfl

theorem commutes_ofExcept (f : σ → σ) (r : Except ε α) :
    Commutes f (ofExcept r : Attempt ε σ α) := by
  cases r with
  | ok a => exact commutes_pure f a
  | error e => exact commutes_throw f e

theorem commutes_modify (f g : σ → σ) (h : ∀ s, g (f s) = f (g s)) :
    Commutes f (modify g : Attempt ε σ PUnit) := by
  intro s
  change EStateM.Result.ok PUnit.unit (g (f s)) = .ok PUnit.unit (f (g s))
  rw [h s]

theorem Commutes.bind {f : σ → σ} {x : Attempt ε σ α} {g : α → Attempt ε σ β}
    (hx : Commutes f x) (hg : ∀ a, Commutes f (g a)) : Commutes f (x >>= g) := by
  intro s
  rw [EStateM.run_bind, EStateM.run_bind, hx s]
  cases hrun : x.run s with
  | ok a t => exact hg a t
  | error e t => rfl

theorem Commutes.guard {f : σ → σ} {p : Prop} [Decidable p] {e : ε}
    {rest : Attempt ε σ α} (h : Commutes f rest) :
    Commutes f (do
      if p then
        throw e
      rest) := by
  by_cases hp : p
  · simp only [if_pos hp]
    exact Commutes.bind (commutes_throw f e) fun _ => h
  · simp only [if_neg hp]
    exact h

variable {τ κ : Type}

/-- The answers to requests made one after the other, those that fail included. -/
def answers (perform : κ → Attempt ε σ α) : List κ → σ → List (Except ε α)
  | [], _ => []
  | k :: rest, s => (perform k).result s :: answers perform rest ((perform k).state s)

/-- What these requests leave. -/
def stateAfter (perform : κ → Attempt ε σ α) : List κ → σ → σ
  | [], s => s
  | k :: rest, s => stateAfter perform rest ((perform k).state s)

theorem stateAfter_append (perform : κ → Attempt ε σ α) (ks ls : List κ) (s : σ) :
    stateAfter perform (ks ++ ls) s = stateAfter perform ls (stateAfter perform ks s) := by
  induction ks generalizing s with
  | nil => rfl
  | cons k ks ih => exact ih _

/-- From related states the two computations end alike and leave related states. -/
def Simulates (R : σ → τ → Prop) (x : Attempt ε σ α) (y : Attempt ε τ α) : Prop :=
  ∀ s t, R s t → x.result s = y.result t ∧ R (x.state s) (y.state t)

variable {R : σ → τ → Prop} {x : Attempt ε σ α} {y : Attempt ε τ α} {s s' : σ} {t t' : τ}

theorem alike_of_ok {a : α} (hx : x.run s = .ok a s') (hy : y.run t = .ok a t')
    (h : R s' t') : x.result s = y.result t ∧ R (x.state s) (y.state t) := by
  rw [result_of_ok hx, result_of_ok hy, state_of_ok hx, state_of_ok hy]
  exact ⟨rfl, h⟩

theorem alike_of_error {e : ε} (hx : x.run s = .error e s') (hy : y.run t = .error e t')
    (h : R s' t') : x.result s = y.result t ∧ R (x.state s) (y.state t) := by
  rw [result_of_error hx, result_of_error hy, state_of_error hx, state_of_error hy]
  exact ⟨rfl, h⟩

theorem Simulates.map (h : Simulates R x y) (f : α → β) :
    Simulates R (f <$> x) (f <$> y) := by
  intro s t hst
  obtain ⟨hresult, hstate⟩ := h s t hst
  rw [result_map, result_map, state_map, state_map, hresult]
  exact ⟨rfl, hstate⟩

/-- Requests that are simulated one by one are simulated in every sequence. -/
theorem Simulates.sequence {f : κ → Attempt ε σ α} {g : κ → Attempt ε τ α}
    (h : ∀ k, Simulates R (f k) (g k)) (ks : List κ) {s : σ} {t : τ} (hst : R s t) :
    answers f ks s = answers g ks t ∧ R (stateAfter f ks s) (stateAfter g ks t) := by
  induction ks generalizing s t with
  | nil => exact ⟨rfl, hst⟩
  | cons k rest ih =>
      obtain ⟨hanswer, hnext⟩ := h k s t hst
      obtain ⟨hanswers, hend⟩ := ih hnext
      exact ⟨by rw [answers, answers, hanswer, hanswers], hend⟩

end CellMachine.Attempt
