import CellMachine.Runner
import CellMachine.Proofs.Operations

/-!
Runs turn by turn. One lemma for each way in which a turn can end, and what a run
becomes after it.
-/

namespace CellMachine

variable {ι : Type}

/-- The machine with its text taken out. -/
def Machine.drained (m : Machine ι) : Machine ι := { m with output := .empty }

namespace Runner

variable {r : Runner} {m : Machine ι}

theorem isExhausted_eq {limit : Nat} (h : r.limits.maxSteps = some limit) :
    r.isExhausted = decide (limit ≤ r.totalSteps) := by
  unfold isExhausted
  rw [h]
  rfl

theorem mustPause_eq_false (h : r.limits.stopAtBreakpoints = false) :
    r.mustPause m = false := by
  unfold mustPause
  rw [h]
  rfl

theorem mustPause_of_pausedAt (h : r.pausedAt = some m.registers.pc) :
    r.mustPause m = false := by
  unfold mustPause
  rw [h]
  simp

variable [Host ι]

theorem turn_of_halted (hrunning : m.running = false) :
    r.turn m = .stopped .halted r m := by
  unfold turn
  rw [hrunning]
  rfl

theorem turn_of_exhausted (hrunning : m.running = true) (hlimit : r.isExhausted = true) :
    r.turn m = .stopped .stepLimit r m := by
  unfold turn
  rw [hrunning, hlimit]
  rfl

theorem turn_of_mustPause (hrunning : m.running = true) (hlimit : r.isExhausted = false)
    (hpause : r.mustPause m = true) :
    r.turn m = .stopped (.breakpoint m.registers.pc)
      { r with pausedAt := some m.registers.pc } m := by
  unfold turn
  rw [hrunning, hlimit, hpause]
  rfl

/-- A turn that stops for nothing takes a step, which may fault. -/
theorem turn_of_step (hrunning : m.running = true) (hlimit : r.isExhausted = false)
    (hpause : r.mustPause m = false) :
    r.turn m =
      match Machine.step.run m with
      | .ok _ next =>
          .stepped { r with pausedAt := none, totalSteps := r.totalSteps + 1 } next
      | .error f next =>
          .stopped (.fault m.registers.pc f) { r with pausedAt := none } next := by
  unfold turn
  rw [hrunning, hlimit, hpause]
  rfl

theorem runFrom_of_stopped {reason : StopReason} {stopped : Runner} {last : Machine ι}
    (h : r.turn m = .stopped reason stopped last) (steps fuel : Nat) :
    r.runFrom steps (fuel + 1) m =
      some { reason, steps, output := last.output.text, runner := stopped
             machine := last.drained } := by
  rw [runFrom, h]
  rfl

theorem runFrom_of_stepped {next : Runner} {after : Machine ι}
    (h : r.turn m = .stepped next after) (steps fuel : Nat) :
    r.runFrom steps (fuel + 1) m = next.runFrom (steps + 1) fuel after := by
  rw [runFrom, h]

end Runner

end CellMachine
