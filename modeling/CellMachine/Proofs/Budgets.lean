import CellMachine.Proofs.HostLoop
import CellMachine.Proofs.Pausing

/-!
Step budgets add up. A run that stops for its budget leaves the machine as a longer run has
it at that point, but for the text, which it hands out. Standard instructions do not see the
text, and a runner that has executed instructions remembers no pause, so a new runner goes on
from there as the longer run does.
-/

namespace CellMachine

variable {ι : Type}

namespace Machine

variable [Host ι] {m : Machine ι}

theorem afterSteps_add (m : Machine ι) (j k : Nat) :
    m.afterSteps (j + k) = (m.afterSteps j).afterSteps k := by
  induction j generalizing m with
  | zero =>
      rw [Nat.zero_add]
      rfl
  | succ j ih => rw [Nat.succ_add, afterSteps_succ, afterSteps_succ, ih]

theorem isStandard_afterSteps (hm : m.IsStandard) (k : Nat) : (m.afterSteps k).IsStandard := by
  induction k generalizing m with
  | zero => exact hm
  | succ k ih => exact ih ((sameProgram_step hm).isStandard hm)

theorem result_step_preceded (hm : m.IsStandard) (earlier : String) :
    Machine.step.result (m.preceded earlier) = Machine.step.result m := by
  rw [Attempt.result, Attempt.result, run_step_preceded earlier hm]
  cases Machine.step.run m <;> rfl

theorem state_step_preceded (hm : m.IsStandard) (earlier : String) :
    Machine.step.state (m.preceded earlier) = (Machine.step.state m).preceded earlier := by
  rw [Attempt.state_eq, Attempt.state_eq, run_step_preceded earlier hm]
  cases Machine.step.run m <;> rfl

/-- Earlier text stays in front through any number of steps. -/
theorem afterSteps_preceded (hm : m.IsStandard) (earlier : String) (k : Nat) :
    (m.preceded earlier).afterSteps k = (m.afterSteps k).preceded earlier := by
  induction k generalizing m with
  | zero => rfl
  | succ k ih =>
      rw [afterSteps_succ, afterSteps_succ, state_step_preceded hm]
      exact ih ((sameProgram_step hm).isStandard hm)

theorem leftBy_preceded (hm : m.IsStandard) (earlier : String) (reason : StopReason) :
    (m.preceded earlier).leftBy reason = (m.leftBy reason).preceded earlier := by
  cases reason with
  | fault pc f => exact state_step_preceded hm earlier
  | halted | breakpoint | stepLimit => rfl

end Machine

namespace Runner

/-- A new runner that may execute `budget` instructions. -/
def withBudget (stop : Bool) (budget : Nat) : Runner where
  limits := { maxSteps := some budget, stopAtBreakpoints := stop }

variable {stop : Bool} {a b j : Nat} {m : Machine ι}

theorem usedUp_withBudget : ((withBudget stop b).afterSteps j).UsedUp ↔ b ≤ j := by
  simp [UsedUp, withBudget, afterSteps]

/-- A runner that began without a pause has none to remember later. -/
theorem pausesAt_withBudget :
    ((withBudget stop b).afterSteps j).PausesAt m ↔
      stop = true ∧ m.isAtBreakpoint = true := by
  simp [PausesAt, withBudget, afterSteps]

variable [Host ι]

/-- Where a new runner goes on, so does one that has executed `a` instructions and had a
budget for these as well, with their text in front. -/
theorem GoesOn.shift (hm : m.IsStandard) (earlier : String)
    (h : ((withBudget stop b).afterSteps j).GoesOn m) :
    ((withBudget stop (a + b)).afterSteps (a + j)).GoesOn (m.preceded earlier) where
  running := h.running
  withinLimit := by
    have hwithin := h.withinLimit
    rw [usedUp_withBudget] at hwithin ⊢
    omega
  noPause := by
    have hpass := h.noPause
    rw [pausesAt_withBudget] at hpass ⊢
    exact hpass
  succeeds := by
    rw [Machine.result_step_preceded hm]
    exact h.succeeds

theorem StopsFor.shift (hm : m.IsStandard) (earlier : String) {reason : StopReason}
    (h : ((withBudget stop b).afterSteps j).StopsFor m reason) :
    ((withBudget stop (a + b)).afterSteps (a + j)).StopsFor (m.preceded earlier) reason := by
  have hlimit : ((withBudget stop (a + b)).afterSteps (a + j)).UsedUp ↔
      ((withBudget stop b).afterSteps j).UsedUp := by
    rw [usedUp_withBudget, usedUp_withBudget]
    omega
  have hpause : ((withBudget stop (a + b)).afterSteps (a + j)).PausesAt (m.preceded earlier) ↔
      ((withBudget stop b).afterSteps j).PausesAt m := by
    rw [pausesAt_withBudget, pausesAt_withBudget]
    rfl
  cases reason with
  | halted => exact h
  | stepLimit => exact ⟨h.1, hlimit.mpr h.2⟩
  | breakpoint pc =>
      obtain ⟨hrunning, hwithin, hpauses, hpc⟩ := h
      exact ⟨hrunning, mt hlimit.mp hwithin, hpause.mpr hpauses, hpc⟩
  | fault pc f =>
      obtain ⟨hrunning, hwithin, hpass, hpc, hfault⟩ := h
      refine ⟨hrunning, mt hlimit.mp hwithin, mt hpause.mp hpass, hpc, ?_⟩
      rwa [Machine.result_step_preceded hm]

/-- A run that stops for its budget has used it up exactly, and a runner with a larger one
would have gone on as far. -/
theorem run_stepLimit {fuel : Nat} {o : Outcome ι}
    (h : (withBudget stop a).run fuel m = some o) (hlimit : o.reason = .stepLimit) :
    o.steps = a ∧ o.machine = (m.afterSteps a).drained ∧
      o.output = (m.afterSteps a).output.text ∧
      ∀ b, ∀ j < a, ((withBudget stop (a + b)).afterSteps j).GoesOn (m.afterSteps j) := by
  obtain ⟨_, hon, hstop, ho⟩ := run_eq_some_iff.mp h
  rw [hlimit] at hstop ho
  have hsteps : o.steps = a := by
    have hreached : a ≤ o.steps := usedUp_withBudget.mp hstop.2
    by_contra hne
    exact (hon a (by omega)).withinLimit (usedUp_withBudget.mpr (Nat.le_refl a))
  rw [hsteps] at hon ho
  refine ⟨hsteps, congrArg Outcome.machine ho, congrArg Outcome.output ho, ?_⟩
  intro b j hj
  obtain ⟨hrunning, _, hpass, hok⟩ := hon j hj
  rw [pausesAt_withBudget] at hpass
  exact ⟨hrunning, by rw [usedUp_withBudget]; omega, by rwa [pausesAt_withBudget], hok⟩

/-- Step budgets compose. If a run of a new runner stops for its budget `a`, then a run of
another new runner with budget `b` from where it left the machine, and a single run with
budget `a + b` from the beginning, both come to an end, with the same machine and for the
same reason. The steps of the two runs add up to those of the single one, and their texts
follow one another to its text. The machine may be in any state and have breakpoints
anywhere, as long as its store holds standard instructions. -/
theorem step_budgets_compose {m : Machine ι} (hm : m.IsStandard) (stop : Bool) (a b : Nat)
    {fuel : Nat} {first : Outcome ι} (hfirst : (withBudget stop a).run fuel m = some first)
    (hlimit : first.reason = .stepLimit) :
    ∃ second whole : Outcome ι,
      (∀ fuel, b < fuel → (withBudget stop b).run fuel first.machine = some second) ∧
      (∀ fuel, a + b < fuel → (withBudget stop (a + b)).run fuel m = some whole) ∧
      whole.machine = second.machine ∧
      whole.reason = second.reason ∧
      whole.steps = first.steps + second.steps ∧
      whole.output = first.output ++ second.output := by
  obtain ⟨hsteps, hmachine, houtput, hon⟩ := run_stepLimit hfirst hlimit
  obtain ⟨second, hattempts, hsecond⟩ := run_ends (r := withBudget stop b) rfl first.machine
  obtain ⟨_, honSecond, hstop, ho⟩ :=
    run_eq_some_iff.mp (hsecond (second.steps + 1) (Nat.lt_succ_self _))
  have hstandard : first.machine.IsStandard := by
    rw [hmachine]
    exact Machine.isStandard_afterSteps hm a
  -- The longer run comes past the cut with the text that the first run handed out.
  have hcut (k : Nat) :
      m.afterSteps (a + k) = (first.machine.afterSteps k).preceded first.output := by
    have htext := (m.afterSteps a).drained_preceded ""
    rw [String.empty_append, Machine.preceded_empty] at htext
    rw [Machine.afterSteps_add, ← Machine.afterSteps_preceded hstandard, hmachine, houtput,
      htext]
  have hrest (k : Nat) : (first.machine.afterSteps k).IsStandard :=
    Machine.isStandard_afterSteps hstandard k
  have honWhole : ∀ j < a + second.steps,
      ((withBudget stop (a + b)).afterSteps j).GoesOn (m.afterSteps j) := by
    intro j hj
    rcases Nat.lt_or_ge j a with hbefore | hafter
    · exact hon b j hbefore
    · obtain ⟨k, rfl⟩ := Nat.exists_eq_add_of_le hafter
      rw [hcut]
      exact (honSecond k (by omega)).shift (hrest k) first.output
  have hstopWhole : ((withBudget stop (a + b)).afterSteps (a + second.steps)).StopsFor
      (m.afterSteps (a + second.steps)) second.reason := by
    rw [hcut]
    exact hstop.shift (hrest _) first.output
  refine ⟨second, ((withBudget stop (a + b)).afterSteps (a + second.steps)).outcome
    (a + second.steps) (m.afterSteps (a + second.steps)) second.reason, ?_, ?_, ?_, rfl, ?_, ?_⟩
  · have hle := second.steps_le_attempts
    intro fuel hfuel
    exact hsecond fuel (by omega)
  · have hle := second.steps_le_attempts
    intro fuel hfuel
    exact run_eq_some_iff.mpr ⟨by change a + second.steps < fuel; omega, honWhole, hstopWhole, rfl⟩
  · rw [congrArg Outcome.machine ho, outcome, outcome, hcut, Machine.leftBy_preceded (hrest _)]
    rfl
  · rw [hsteps]
    rfl
  · rw [congrArg Outcome.output ho, outcome, outcome, hcut, Machine.leftBy_preceded (hrest _)]
    rfl

/-- The halt has a breakpoint. -/
def markedBeforeHalt : Machine Empty where
  config := ⟨3, 2, 1⟩
  registers := .initial ⟨3, 2, 1⟩
  memory := .zeros 2
  store := #[Standard.instruction .ldc (some (.int 7)), Standard.instruction .print,
    { Standard.instruction .halt with breakpoint := true }]
  labels := ∅
  overlay := []
  output := .empty
  running := true

/-- The first budget ends in front of the breakpoint, and says so only of itself. The next
runner pauses there without a step, and so does a single run after the steps of the first. -/
theorem cut_at_breakpoint_pauses_alike :
    markedBeforeHalt.IsStandard ∧
      ∃ first : Outcome Empty, (withBudget true 2).run 3 markedBeforeHalt = some first ∧
        first.reason = .stepLimit ∧ first.output = "7" ∧
        ∃ second whole : Outcome Empty,
          (withBudget true 5).run 6 first.machine = some second ∧
          (withBudget true 7).run 8 markedBeforeHalt = some whole ∧
          second.reason = .breakpoint 2 ∧ whole.reason = .breakpoint 2 ∧
          whole.machine = second.machine ∧ whole.steps = 2 + second.steps ∧
          whole.output = "7" ++ second.output := by
  have hm := markedBeforeHalt.isStandard_empty
  have hcut : ((withBudget true 2).run 3 markedBeforeHalt).map
      (fun o => (o.reason, o.steps, o.output)) = some (.stepLimit, 2, "7") := by decide +kernel
  obtain ⟨first, hfirst, hends⟩ := Option.map_eq_some_iff.mp hcut
  simp only [Prod.mk.injEq] at hends
  obtain ⟨hlimit, hsteps, houtput⟩ := hends
  obtain ⟨second, whole, hsecond, hwhole, hmachine, hreason, htotal, htext⟩ :=
    step_budgets_compose hm true 2 5 hfirst hlimit
  have hpause : ((withBudget true 7).run 8 markedBeforeHalt).map Outcome.reason =
      some (.breakpoint 2) := by decide +kernel
  rw [hwhole 8 (by decide)] at hpause
  have hpaused : whole.reason = .breakpoint 2 := Option.some.inj hpause
  rw [hsteps] at htotal
  rw [houtput] at htext
  exact ⟨hm, first, hfirst, hlimit, houtput, second, whole, hsecond 6 (by decide),
    hwhole 8 (by decide), hreason.symm.trans hpaused, hpaused, hmachine, htotal, htext⟩

end Runner

end CellMachine
