import CellMachine.Proofs.ControlFlow
import CellMachine.Proofs.Running

/-!
A run is stepping. In each turn the runner goes on or has one reason to stop, and which
of these it is can be read off the runner and the machine as they are then. Both are known
from the number of steps that were taken, so the number of steps accounts for the whole
outcome of a run.
-/

namespace CellMachine

variable {ι : Type}

/-- What is left of a machine at which a run stops. A fault is that of one step more,
which has begun. -/
def Machine.leftBy [Host ι] (m : Machine ι) : StopReason → Machine ι
  | .fault .. => Machine.step.state m
  | .halted | .breakpoint _ | .stepLimit => m

namespace Runner

/-- There is a limit, and the steps of all runs have reached it. -/
def UsedUp (r : Runner) : Prop :=
  ∃ limit, r.limits.maxSteps = some limit ∧ limit ≤ r.totalSteps

/-- The next instruction has a breakpoint, and it is not the one at which the last run
paused. -/
def PausesAt (r : Runner) (m : Machine ι) : Prop :=
  r.limits.stopAtBreakpoints = true ∧ m.isAtBreakpoint = true ∧
    r.pausedAt ≠ some m.registers.pc

/-- The runner when it has executed `n` instructions more. The first of them makes it
forget the last pause. -/
def afterSteps (r : Runner) (n : Nat) : Runner :=
  { r with
    pausedAt := if n = 0 then r.pausedAt else none
    totalSteps := r.totalSteps + n }

/-- Counters of 64 bits have the numbers of the runner while it takes `n` steps more: one is
raised from zero, the other from what has been counted before. -/
def CountsFit (r : Runner) (n : Nat) : Prop :=
  ∀ j ≤ n, (UInt64.ofNat j).toNat = j ∧
    (UInt64.ofNat r.totalSteps + UInt64.ofNat j).toNat = (r.afterSteps j).totalSteps

/-- The runner when it has stopped. -/
def stoppedFor (r : Runner) : StopReason → Runner
  | .breakpoint pc => { r with pausedAt := some pc }
  | .fault .. => { r with pausedAt := none }
  | .halted | .stepLimit => r

variable {r : Runner} {m : Machine ι}

theorem afterSteps_succ (r : Runner) (n : Nat) :
    r.afterSteps (n + 1) = (r.afterSteps 1).afterSteps n := by
  simp only [afterSteps, Nat.add_eq_zero_iff, Nat.one_ne_zero, and_false, if_false, ite_self,
    Nat.add_assoc, Nat.add_comm 1 n]

theorem countsFit_of_lt {n : Nat} (h : r.totalSteps + n < 0x10000000000000000) :
    r.CountsFit n := by
  have hcount {k : Nat} (hk : k < 0x10000000000000000) : (UInt64.ofNat k).toNat = k :=
    UInt64.toNat_ofNat_of_lt hk
  intro j hj
  refine ⟨hcount (by omega), ?_⟩
  rw [UInt64.toNat_add, hcount (by omega), hcount (by omega), afterSteps]
  exact Nat.mod_eq_of_lt (by omega)

theorem totalSteps_stoppedFor (r : Runner) (reason : StopReason) :
    (r.stoppedFor reason).totalSteps = r.totalSteps := by
  cases reason <;> rfl

theorem isExhausted_iff : r.isExhausted = true ↔ r.UsedUp := by
  simp only [isExhausted, UsedUp, Option.any_eq_true, decide_eq_true_eq]

theorem mustPause_iff : r.mustPause m = true ↔ r.PausesAt m := by
  simp only [mustPause, PausesAt, Bool.and_eq_true, bne_iff_ne, and_assoc]

theorem isExhausted_of_not_usedUp (h : ¬ r.UsedUp) : r.isExhausted = false := by
  rwa [← isExhausted_iff, Bool.not_eq_true] at h

theorem mustPause_of_not_pausesAt (h : ¬ r.PausesAt m) : r.mustPause m = false := by
  rwa [← mustPause_iff, Bool.not_eq_true] at h

/-- Only the pause that the runner remembers lets it pass a breakpoint, and it remembers
none after the first step. -/
theorem eq_zero_of_isAtBreakpoint {j : Nat}
    (hpass : ¬ (r.afterSteps j).PausesAt m) (hstop : r.limits.stopAtBreakpoints = true)
    (hmark : m.isAtBreakpoint = true) : j = 0 ∧ r.pausedAt = some m.registers.pc := by
  have hpaused : (r.afterSteps j).pausedAt = some m.registers.pc := by
    by_contra hother
    exact hpass ⟨hstop, hmark, hother⟩
  cases j with
  | zero => exact ⟨rfl, hpaused⟩
  | succ j => cases hpaused

variable [Host ι]

/-- The reasons to stop, each of which counts only where those before it do not. -/
def StopsFor (r : Runner) (m : Machine ι) : StopReason → Prop
  | .halted => m.running = false
  | .stepLimit => m.running = true ∧ r.UsedUp
  | .breakpoint pc => m.running = true ∧ ¬ r.UsedUp ∧ r.PausesAt m ∧ m.registers.pc = pc
  | .fault pc f =>
      m.running = true ∧ ¬ r.UsedUp ∧ ¬ r.PausesAt m ∧ m.registers.pc = pc ∧
        Machine.step.result m = .error f

/-- There is no reason to stop. -/
structure GoesOn (r : Runner) (m : Machine ι) : Prop where
  running : m.running = true
  withinLimit : ¬ r.UsedUp
  noPause : ¬ r.PausesAt m
  succeeds : Machine.step.result m = .ok ()

/-- The outcome of a run that stops at `m`. -/
def outcome (r : Runner) (steps : Nat) (m : Machine ι) (reason : StopReason) : Outcome ι where
  reason := reason
  steps := steps
  output := (m.leftBy reason).output.text
  runner := r.stoppedFor reason
  machine := (m.leftBy reason).drained

theorem turn_of_stopsFor {reason : StopReason} (h : r.StopsFor m reason) :
    r.turn m = .stopped reason (r.stoppedFor reason) (m.leftBy reason) := by
  cases reason with
  | halted => exact turn_of_halted h
  | stepLimit => exact turn_of_exhausted h.1 (isExhausted_iff.mpr h.2)
  | breakpoint pc =>
      obtain ⟨hrunning, hwithin, hpause, rfl⟩ := h
      exact turn_of_mustPause hrunning (isExhausted_of_not_usedUp hwithin)
        (mustPause_iff.mpr hpause)
  | fault pc f =>
      obtain ⟨hrunning, hwithin, hpass, rfl, hfault⟩ := h
      rw [turn_of_step hrunning (isExhausted_of_not_usedUp hwithin)
        (mustPause_of_not_pausesAt hpass), Attempt.run_eq, hfault]
      rfl

theorem turn_of_goesOn (h : r.GoesOn m) :
    r.turn m = .stepped (r.afterSteps 1) (Machine.step.state m) := by
  rw [turn_of_step h.running (isExhausted_of_not_usedUp h.withinLimit)
    (mustPause_of_not_pausesAt h.noPause), Attempt.run_eq, h.succeeds]
  rfl

theorem goesOn_or_stopsFor (r : Runner) (m : Machine ι) :
    r.GoesOn m ∨ ∃ reason, r.StopsFor m reason := by
  cases hrunning : m.running with
  | false => exact Or.inr ⟨.halted, hrunning⟩
  | true =>
      by_cases hlimit : r.UsedUp
      · exact Or.inr ⟨.stepLimit, hrunning, hlimit⟩
      by_cases hpause : r.PausesAt m
      · exact Or.inr ⟨.breakpoint _, hrunning, hlimit, hpause, rfl⟩
      cases hstep : Machine.step.result m with
      | ok u => exact Or.inl ⟨hrunning, hlimit, hpause, hstep⟩
      | error f => exact Or.inr ⟨.fault _ f, hrunning, hlimit, hpause, rfl, hstep⟩

/-- A runner has one reason to stop. -/
theorem StopsFor.unique {reason other : StopReason} (h : r.StopsFor m reason)
    (h' : r.StopsFor m other) : reason = other := by
  have hturn := (turn_of_stopsFor h).symm.trans (turn_of_stopsFor h')
  injection hturn

/-- The run in which the runner goes on for `n` turns and then stops. -/
theorem runFrom_of_goesOn {n : Nat}
    (hon : ∀ j < n, (r.afterSteps j).GoesOn (m.afterSteps j)) {reason : StopReason}
    (hstop : (r.afterSteps n).StopsFor (m.afterSteps n) reason) (steps : Nat) {fuel : Nat}
    (hfuel : n < fuel) :
    r.runFrom steps fuel m =
      some ((r.afterSteps n).outcome (steps + n) (m.afterSteps n) reason) := by
  obtain ⟨left, rfl⟩ := Nat.exists_eq_add_one.mpr (Nat.zero_lt_of_lt hfuel)
  induction n generalizing r m steps left with
  | zero => exact runFrom_of_stopped (turn_of_stopsFor hstop) steps left
  | succ n ih =>
      obtain ⟨left, rfl⟩ : ∃ less, left = less + 1 := ⟨left - 1, by omega⟩
      have hgo : r.GoesOn m := hon 0 (by omega)
      have hnext (j : Nat) (hj : j < n) :
          ((r.afterSteps 1).afterSteps j).GoesOn ((Machine.step.state m).afterSteps j) := by
        rw [← afterSteps_succ, ← Machine.afterSteps_succ]
        exact hon (j + 1) (by omega)
      rw [afterSteps_succ, Machine.afterSteps_succ] at hstop ⊢
      rw [runFrom_of_stepped (turn_of_goesOn hgo),
        ih hnext hstop (steps + 1) left (by omega), Nat.add_assoc, Nat.add_comm 1 n]

/-- A run that comes to an end goes on for some turns and then stops. -/
theorem exists_stopsFor {steps fuel : Nat} {o : Outcome ι}
    (h : r.runFrom steps fuel m = some o) :
    ∃ n < fuel, (∀ j < n, (r.afterSteps j).GoesOn (m.afterSteps j)) ∧
      ∃ reason, (r.afterSteps n).StopsFor (m.afterSteps n) reason := by
  induction fuel generalizing r m steps with
  | zero => cases h
  | succ fuel ih =>
      obtain hgo | hstop := r.goesOn_or_stopsFor m
      · rw [runFrom_of_stepped (turn_of_goesOn hgo)] at h
        obtain ⟨n, hn, hon, hstop⟩ := ih h
        refine ⟨n + 1, by omega, ?_, ?_⟩
        · intro j hj
          cases j with
          | zero => exact hgo
          | succ j =>
              rw [afterSteps_succ, Machine.afterSteps_succ]
              exact hon j (by omega)
        · rwa [afterSteps_succ, Machine.afterSteps_succ]
      · exact ⟨0, by omega, by simp, hstop⟩

/-- The outcomes of runs, told by their number of steps. -/
theorem run_eq_some_iff {fuel : Nat} {o : Outcome ι} :
    r.run fuel m = some o ↔
      o.steps < fuel ∧ (∀ j < o.steps, (r.afterSteps j).GoesOn (m.afterSteps j)) ∧
        (r.afterSteps o.steps).StopsFor (m.afterSteps o.steps) o.reason ∧
        o = (r.afterSteps o.steps).outcome o.steps (m.afterSteps o.steps) o.reason := by
  constructor
  · intro h
    obtain ⟨n, hn, hon, reason, hstop⟩ := exists_stopsFor h
    have ho := runFrom_of_goesOn hon hstop 0 hn
    rw [Nat.zero_add] at ho
    cases h.symm.trans ho
    exact ⟨hn, hon, hstop, rfl⟩
  · rintro ⟨hfuel, hon, hstop, ho⟩
    have hrun := runFrom_of_goesOn hon hstop 0 hfuel
    rw [Nat.zero_add, ← ho] at hrun
    exact hrun

/-- A runner that is within its limit and goes on is within it afterwards. -/
theorem totalSteps_le_of_goesOn {n limit : Nat}
    (hon : ∀ j < n, (r.afterSteps j).GoesOn (m.afterSteps j))
    (hlimit : r.limits.maxSteps = some limit) (hle : r.totalSteps ≤ limit) :
    (r.afterSteps n).totalSteps ≤ limit := by
  cases n with
  | zero => exact hle
  | succ n =>
      have hbefore : ¬ limit ≤ r.totalSteps + n := fun hover =>
        (hon n (by omega)).withinLimit ⟨limit, hlimit, hover⟩
      change r.totalSteps + (n + 1) ≤ limit
      omega

/-- A run of `n` steps is `n` steps, all of which succeed on a running machine. The
machine that it leaves is the one after these steps, or after one more that faults where
the counter was said to be, and the text of that machine is handed out. The runner has `n`
steps more behind it, and stays within its limit. Where it stops at breakpoints, it has
passed none but the one at which it had paused before, and that with its first step. Each
reason is given where it applies to the machine after the `n` steps, and there only. How
many turns were allowed makes no difference, as long as they are enough. Counters of 64 bits
would count the same if the last number fits them, and so they do under a limit that fits. -/
theorem run_is_stepping {fuel : Nat} {r : Runner} {m : Machine ι} {o : Outcome ι}
    (h : r.run fuel m = some o) :
    let last := m.afterSteps o.steps
    (∀ j < o.steps, (m.afterSteps j).running = true ∧
        Machine.step.result (m.afterSteps j) = .ok ()) ∧
      (∀ pc f, o.reason = .fault pc f →
        last.registers.pc = pc ∧ Machine.step.result last = .error f) ∧
      o.machine = (last.leftBy o.reason).drained ∧
      o.output = (last.leftBy o.reason).output.text ∧
      o.runner.totalSteps = r.totalSteps + o.steps ∧
      (∀ limit, r.limits.maxSteps = some limit → r.totalSteps ≤ limit →
        o.runner.totalSteps ≤ limit) ∧
      (r.limits.stopAtBreakpoints = true →
        ∀ j, j < o.steps ∨ (j = o.steps ∧ ∃ pc f, o.reason = .fault pc f) →
          (m.afterSteps j).isAtBreakpoint = true →
            j = 0 ∧ r.pausedAt = some m.registers.pc) ∧
      (∀ reason, o.reason = reason ↔ (r.afterSteps o.steps).StopsFor last reason) ∧
      o.runner = (r.afterSteps o.steps).stoppedFor o.reason ∧
      (o.runner.totalSteps < 0x10000000000000000 ∨
        (∃ limit < 0x10000000000000000, r.limits.maxSteps = some limit ∧ r.totalSteps ≤ limit) →
          r.CountsFit o.steps) ∧
      o.steps < fuel ∧ ∀ more, o.steps < more → r.run more m = some o := by
  intro last
  obtain ⟨hfuel, hon, hstop, ho⟩ := run_eq_some_iff.mp h
  have hrunner := congrArg Outcome.runner ho
  have htotal : o.runner.totalSteps = (r.afterSteps o.steps).totalSteps := by
    rw [hrunner]
    exact totalSteps_stoppedFor _ _
  have hwithin (limit : Nat) (hlimit : r.limits.maxSteps = some limit)
      (hle : r.totalSteps ≤ limit) : o.runner.totalSteps ≤ limit := by
    rw [htotal]
    exact totalSteps_le_of_goesOn hon hlimit hle
  refine ⟨fun j hj => ⟨(hon j hj).running, (hon j hj).succeeds⟩, ?_,
    congrArg Outcome.machine ho, congrArg Outcome.output ho, htotal, hwithin, ?_, ?_, hrunner,
    ?_, hfuel, fun more hmore => run_eq_some_iff.mpr ⟨hmore, hon, hstop, ho⟩⟩
  · intro pc f hreason
    rw [hreason] at hstop
    obtain ⟨_, _, _, hpc, hfault⟩ := hstop
    exact ⟨hpc, hfault⟩
  · intro hstops j hj hmark
    have hpass : ¬ (r.afterSteps j).PausesAt (m.afterSteps j) := by
      obtain hj | ⟨rfl, pc, f, hreason⟩ := hj
      · exact (hon j hj).noPause
      · rw [hreason] at hstop
        exact hstop.2.2.1
    obtain ⟨rfl, hpaused⟩ := eq_zero_of_isAtBreakpoint hpass hstops hmark
    exact ⟨rfl, hpaused⟩
  · intro reason
    constructor
    · rintro rfl
      exact hstop
    · exact hstop.unique
  · intro hfits
    have hlast : o.runner.totalSteps < 0x10000000000000000 := by
      obtain hfits | ⟨limit, hfits, hlimit, hle⟩ := hfits
      · exact hfits
      · exact Nat.lt_of_le_of_lt (hwithin limit hlimit hle) hfits
    rw [htotal] at hlast
    exact countsFit_of_lt hlast

/-- The value is loaded at a breakpoint and printed, and there is none to print again. -/
def printTwice : Machine Empty where
  config := ⟨3, 2, 1⟩
  registers := .initial ⟨3, 2, 1⟩
  memory := .zeros 2
  store := #[{ Standard.instruction .ldc (some (.int 7)) with breakpoint := true },
    Standard.instruction .print, Standard.instruction .print]
  labels := ∅
  overlay := []
  output := .empty
  running := true

/-- The runner has paused at the first instruction and may execute three. -/
def pausedAtFirst : Runner where
  limits := { maxSteps := some 7 }
  pausedAt := some 0
  totalSteps := 4

theorem second_print_is_not_counted :
    printTwice.isAtBreakpoint = true ∧
      ∃ o, pausedAtFirst.run 9 printTwice = some o ∧ o.steps = 2 ∧
        o.reason = .fault 2 (.stackUnderflow (-1)) ∧ o.runner.totalSteps = 6 ∧
        pausedAtFirst.CountsFit 2 ∧
        pausedAtFirst.run 3 printTwice = some o ∧
        o.machine = (Machine.step.state (printTwice.afterSteps 2)).drained := by
  have hrun : (pausedAtFirst.run 9 printTwice).map (fun o => (o.steps, o.reason)) =
      some (2, .fault 2 (.stackUnderflow (-1))) := by decide +kernel
  obtain ⟨o, ho, hends⟩ := Option.map_eq_some_iff.mp hrun
  obtain ⟨hsteps, hreason⟩ := Prod.mk.inj hends
  obtain ⟨_, _, hmachine, _, htotal, _, _, _, _, hcounts, _, hmore⟩ := run_is_stepping ho
  have hfit := hcounts (Or.inr ⟨7, by decide, rfl, by decide⟩)
  rw [hsteps] at hmachine htotal hmore hfit
  rw [hreason] at hmachine
  exact ⟨by decide +kernel, o, ho, hsteps, hreason, htotal, hfit, hmore 3 (by decide), hmachine⟩

end Runner

end CellMachine
