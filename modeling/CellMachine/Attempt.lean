/-!
Computations that change a state, may fail, and keep what they did before the
failure. Both endings therefore carry a state.
-/

namespace CellMachine

/-- A computation on `σ` that ends with an `α` or fails with an `ε`. -/
abbrev Attempt (ε σ α : Type) := EStateM ε σ α

namespace Attempt

variable {ε σ α : Type}

/-- How the computation ends when it starts in `s`. -/
def result (x : Attempt ε σ α) (s : σ) : Except ε α :=
  match x.run s with
  | .ok a _ => .ok a
  | .error e _ => .error e

/-- The state that the computation leaves when it starts in `s`. -/
def state (x : Attempt ε σ α) (s : σ) : σ :=
  match x.run s with
  | .ok _ t | .error _ t => t

/-- A computation that does not touch the state. -/
def ofExcept : Except ε α → Attempt ε σ α
  | .ok a => pure a
  | .error e => throw e

variable {β : Type}

theorem result_bind (x : Attempt ε σ α) (f : α → Attempt ε σ β) (s : σ) :
    (x >>= f).result s =
      match x.run s with
      | .ok a t => (f a).result t
      | .error e _ => .error e := by
  simp only [result, EStateM.run_bind]
  cases x.run s <;> rfl

/-- A failure cuts a sequence short and keeps the state it was reached with. -/
theorem state_bind (x : Attempt ε σ α) (f : α → Attempt ε σ β) (s : σ) :
    (x >>= f).state s =
      match x.run s with
      | .ok a t => (f a).state t
      | .error _ t => t := by
  simp only [state, EStateM.run_bind]
  cases x.run s <;> rfl

end Attempt

end CellMachine
