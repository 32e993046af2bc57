import CellMachine.Proofs.EarlierText
import CellMachine.Proofs.Running
import CellMachine.StandardSet

/-!
Breakpoints do not change what a program does. A runner that pauses at them and
is started again after each pause is followed step by step by one that ignores
them. Between two pauses both take the same steps; at a pause the first hands out
its text, which the second keeps in front of what it prints later.
-/

namespace CellMachine

variable {ι : Type}

/-- Two outcomes as one: the steps add up and the texts follow one another. -/
def Outcome.followedBy (first last : Outcome ι) : Outcome ι :=
  { last with steps := first.steps + last.steps, output := first.output ++ last.output }

/-- Goes on after an outcome if it is a pause. -/
def Outcome.resume (again : Runner → Machine ι → Option (Outcome ι)) (o : Outcome ι) :
    Option (Outcome ι) :=
  match o.reason with
  | .breakpoint _ => (again o.runner o.machine).map o.followedBy
  | _ => some o

/-- Runs the machine again after every breakpoint, until a run ends for another
reason. There are at most `runs` runs of at most `fuel` turns. -/
def Runner.runThrough [Host ι] (fuel : Nat) :
    (runs : Nat) → Runner → Machine ι → Option (Outcome ι)
  | 0, _, _ => none
  | runs + 1, r, m => (r.run fuel m).bind (Outcome.resume (runThrough fuel runs))

/-- A run through the breakpoints and a run past them end in the same way, where
`earlier` was collected before the first of the two began. -/
structure Outcome.Agrees (earlier : String) (paused plain : Outcome ι) : Prop where
  machine : paused.machine = plain.machine
  reason : paused.reason = plain.reason
  totalSteps : paused.runner.totalSteps = plain.runner.totalSteps
  output : earlier ++ paused.output = plain.output

/-- Two runs both come to an end, and their outcomes agree. -/
def Outcome.BothAgree (earlier : String) (paused plain : Option (Outcome ι)) : Prop :=
  ∃ o p, paused = some o ∧ plain = some p ∧ Outcome.Agrees earlier o p

theorem Machine.drained_preceded (m : Machine ι) (earlier : String) :
    m.drained.preceded (earlier ++ m.output.text) = m.preceded earlier := by
  simp only [Machine.drained, Machine.preceded, Transcript.empty, String.append_empty]

theorem Machine.preceded_empty (m : Machine ι) : m.preceded "" = m := by
  simp only [Machine.preceded, String.empty_append]

namespace Runner

/-- Two runners with the same steps behind them and the same limit before them,
of which only the first stops at breakpoints. -/
structure Alongside (limit : Nat) (paused plain : Runner) : Prop where
  paused_limits : paused.limits = { maxSteps := some limit, stopAtBreakpoints := true }
  plain_limits : plain.limits = { maxSteps := some limit, stopAtBreakpoints := false }
  totalSteps : paused.totalSteps = plain.totalSteps

theorem Alongside.isExhausted_eq {limit : Nat} {paused plain : Runner}
    (h : Alongside limit paused plain) :
    paused.isExhausted = decide (limit ≤ paused.totalSteps) ∧
      plain.isExhausted = decide (limit ≤ paused.totalSteps) := by
  have hpaused : paused.limits.maxSteps = some limit := by rw [h.paused_limits]
  have hplain : plain.limits.maxSteps = some limit := by rw [h.plain_limits]
  refine ⟨Runner.isExhausted_eq hpaused, ?_⟩
  rw [Runner.isExhausted_eq hplain, h.totalSteps]

variable [Host ι]

/-- A run through the breakpoints never ends at one. The induction is on the runs. -/
theorem reason_ne_breakpoint {fuel : Nat} (runs : Nat) {r : Runner} {m : Machine ι}
    {last : Outcome ι} (h : runThrough fuel runs r m = some last) (pc : Word) :
    last.reason ≠ .breakpoint pc := by
  induction runs generalizing r m last with
  | zero => cases h
  | succ runs ih =>
      rw [runThrough] at h
      obtain ⟨o, _, hresume⟩ := Option.bind_eq_some_iff.mp h
      unfold Outcome.resume at hresume
      split at hresume
      next =>
        obtain ⟨next, hnext, rfl⟩ := Option.map_eq_some_iff.mp hresume
        change next.reason ≠ .breakpoint pc
        exact ih hnext
      next hother =>
        cases hresume
        exact hother pc

/-- Started with `left` steps left on a standard machine, both runners end alike,
whatever was collected before and whatever fuel is to spare. The first may be in
the middle of a run. -/
def EndAlike (ι : Type) [Host ι] (limit left : Nat) : Prop :=
  ∀ (fuel runs turns plainTurns steps plainSteps : Nat) (paused plain : Runner)
    (m : Machine ι) (earlier : String),
    Alongside limit paused plain → m.IsStandard → limit - paused.totalSteps = left →
    left < fuel → left ≤ runs → left < turns → left < plainTurns →
    Outcome.BothAgree earlier
      ((paused.runFrom steps turns m).bind (Outcome.resume (runThrough fuel runs)))
      (plain.runFrom plainSteps plainTurns (m.preceded earlier))

variable {limit left fuel runs turns plainTurns steps plainSteps : Nat}
  {paused plain : Runner} {m : Machine ι} {earlier : String}

/-- Where both stop for a reason other than a breakpoint, nothing is resumed. -/
theorem agree_of_stopped {reason : StopReason} {r s : Runner} {last : Machine ι}
    (hreason : ∀ pc, reason ≠ .breakpoint pc)
    (hpaused : paused.turn m = .stopped reason r last)
    (hplain : plain.turn (m.preceded earlier) = .stopped reason s (last.preceded earlier))
    (htotal : r.totalSteps = s.totalSteps) (hturns : 0 < turns) (hplainTurns : 0 < plainTurns)
    (again : Runner → Machine ι → Option (Outcome ι)) :
    Outcome.BothAgree earlier
      ((paused.runFrom steps turns m).bind (Outcome.resume again))
      (plain.runFrom plainSteps plainTurns (m.preceded earlier)) := by
  obtain ⟨t, rfl⟩ : ∃ t, turns = t + 1 := ⟨turns - 1, by omega⟩
  obtain ⟨u, rfl⟩ : ∃ u, plainTurns = u + 1 := ⟨plainTurns - 1, by omega⟩
  rw [runFrom_of_stopped hpaused, runFrom_of_stopped hplain]
  let o : Outcome ι :=
    { reason, steps, output := last.output.text, runner := r, machine := last.drained }
  have hfinal : Outcome.resume again o = some o := by
    cases reason with
    | breakpoint pc => exact absurd rfl (hreason pc)
    | halted => rfl
    | stepLimit => rfl
    | fault pc f => rfl
  exact ⟨o, _, hfinal, rfl, ⟨rfl, rfl, htotal, rfl⟩⟩

/-- A turn that does not pause takes one step on both sides. -/
theorem agree_of_step (ih : EndAlike ι limit left) (h : Alongside limit paused plain)
    (hm : m.IsStandard) (hrunning : m.running = true) (hpause : paused.mustPause m = false)
    (hleft : limit - paused.totalSteps = left + 1) (hfuel : left < fuel)
    (hruns : left ≤ runs) (hturns : left + 1 < turns) (hplainTurns : left + 1 < plainTurns) :
    Outcome.BothAgree earlier
      ((paused.runFrom steps turns m).bind (Outcome.resume (runThrough fuel runs)))
      (plain.runFrom plainSteps plainTurns (m.preceded earlier)) := by
  obtain ⟨hpausedLimit, hplainLimit⟩ := h.isExhausted_eq
  have hbelow : decide (limit ≤ paused.totalSteps) = false := by
    rw [decide_eq_false_iff_not]
    omega
  rw [hbelow] at hpausedLimit hplainLimit
  have hplainPause : plain.mustPause (m.preceded earlier) = false :=
    mustPause_eq_false (by rw [h.plain_limits])
  have hpausedTurn := turn_of_step hrunning hpausedLimit hpause
  have hplainTurn := turn_of_step (m := m.preceded earlier) hrunning hplainLimit hplainPause
  rw [Machine.run_step_preceded earlier hm] at hplainTurn
  cases hstep : Machine.step.run m with
  | error f next =>
      rw [hstep] at hpausedTurn hplainTurn
      exact agree_of_stopped (by simp) hpausedTurn hplainTurn h.totalSteps
        (by omega) (by omega) _
  | ok _ next =>
      rw [hstep] at hpausedTurn hplainTurn
      obtain ⟨t, rfl⟩ : ∃ t, turns = t + 1 := ⟨turns - 1, by omega⟩
      obtain ⟨u, rfl⟩ : ∃ u, plainTurns = u + 1 := ⟨plainTurns - 1, by omega⟩
      have hnext : next.IsStandard := by
        have hsame := Machine.sameProgram_step hm
        rw [Attempt.state_eq, hstep] at hsame
        exact hsame.isStandard hm
      rw [runFrom_of_stepped hpausedTurn, runFrom_of_stepped hplainTurn]
      refine ih fuel runs t u _ _ _ _ next earlier ⟨h.paused_limits, h.plain_limits, ?_⟩
        hnext ?_ hfuel hruns (by omega) (by omega)
      · exact congrArg (· + 1) h.totalSteps
      · change limit - (paused.totalSteps + 1) = left
        omega

/-- A pause uses up one run. The next run begins where the pause was, and since it
remembers the pause, its first turn takes the step. -/
theorem agree_of_pause (ih : EndAlike ι limit left) (h : Alongside limit paused plain)
    (hm : m.IsStandard) (hrunning : m.running = true) (hpause : paused.mustPause m = true)
    (hleft : limit - paused.totalSteps = left + 1) (hfuel : left + 1 < fuel)
    (hruns : left + 1 ≤ runs) (hturns : 0 < turns) (hplainTurns : left + 1 < plainTurns) :
    Outcome.BothAgree earlier
      ((paused.runFrom steps turns m).bind (Outcome.resume (runThrough fuel runs)))
      (plain.runFrom plainSteps plainTurns (m.preceded earlier)) := by
  obtain ⟨t, rfl⟩ : ∃ t, turns = t + 1 := ⟨turns - 1, by omega⟩
  obtain ⟨rest, rfl⟩ : ∃ rest, runs = rest + 1 := ⟨runs - 1, by omega⟩
  have hlimit : paused.isExhausted = false := by
    rw [h.isExhausted_eq.1, decide_eq_false_iff_not]
    omega
  let waiting : Runner := { paused with pausedAt := some m.registers.pc }
  have hstopped : paused.turn m = .stopped (.breakpoint m.registers.pc) waiting m :=
    turn_of_mustPause hrunning hlimit hpause
  have halong : Alongside limit waiting plain :=
    ⟨h.paused_limits, h.plain_limits, h.totalSteps⟩
  have hgoesOn : Outcome.BothAgree (earlier ++ m.output.text)
      ((waiting.runFrom 0 fuel m.drained).bind (Outcome.resume (runThrough fuel rest)))
      (plain.runFrom plainSteps plainTurns
        (m.drained.preceded (earlier ++ m.output.text))) :=
    agree_of_step ih halong hm hrunning (mustPause_of_pausedAt rfl) hleft (by omega)
      (by omega) hfuel hplainTurns
  rw [Machine.drained_preceded] at hgoesOn
  obtain ⟨o, p, ho, hp, hagrees⟩ := hgoesOn
  let pause : Outcome ι :=
    { reason := .breakpoint m.registers.pc, steps, output := m.output.text
      runner := waiting, machine := m.drained }
  have hagain : Outcome.resume (runThrough fuel (rest + 1)) pause =
      some (pause.followedBy o) := by
    change (runThrough fuel (rest + 1) waiting m.drained).map pause.followedBy = _
    rw [runThrough, Runner.run, ho]
    rfl
  rw [runFrom_of_stopped hstopped]
  refine ⟨pause.followedBy o, p, hagain, hp,
    ⟨hagrees.machine, hagrees.reason, hagrees.totalSteps, ?_⟩⟩
  rw [← hagrees.output, String.append_assoc]
  rfl

/-- Both runners end alike from every point. The induction is on the steps left:
a halt or the limit ends both at once, and a pause is followed by a step. -/
theorem endAlike (limit left : Nat) : EndAlike ι limit left := by
  induction left with
  | zero =>
      intro fuel runs turns plainTurns steps plainSteps paused plain m earlier
        h hm hleft hfuel hruns hturns hplainTurns
      cases hrunning : m.running with
      | false =>
          exact agree_of_stopped (by simp) (turn_of_halted hrunning)
            (turn_of_halted hrunning) h.totalSteps hturns hplainTurns _
      | true =>
          have hlimit : decide (limit ≤ paused.totalSteps) = true := by
            rw [decide_eq_true_iff]
            omega
          obtain ⟨hpausedLimit, hplainLimit⟩ := h.isExhausted_eq
          rw [hlimit] at hpausedLimit hplainLimit
          exact agree_of_stopped (by simp) (turn_of_exhausted hrunning hpausedLimit)
            (turn_of_exhausted hrunning hplainLimit) h.totalSteps hturns hplainTurns _
  | succ left ih =>
      intro fuel runs turns plainTurns steps plainSteps paused plain m earlier
        h hm hleft hfuel hruns hturns hplainTurns
      cases hrunning : m.running with
      | false =>
          exact agree_of_stopped (by simp) (turn_of_halted hrunning)
            (turn_of_halted hrunning) h.totalSteps (by omega) (by omega) _
      | true =>
          cases hpause : paused.mustPause m with
          | false =>
              exact agree_of_step ih h hm hrunning hpause hleft (by omega) (by omega)
                hturns hplainTurns
          | true =>
              exact agree_of_pause ih h hm hrunning hpause hleft hfuel hruns (by omega)
                hplainTurns

/-- Breakpoints are transparent. From any state of a standard machine, and wherever
its breakpoints are, a fresh runner that is started again after every pause comes
to an end under any step limit, and it ends as a single run past the breakpoints
does: with the same machine, for the same reason, after the same number of steps,
and with the same text in all. -/
theorem breakpoints_transparent (m : Machine ι) (hm : m.IsStandard) (limit fuel runs : Nat)
    (hfuel : limit < fuel) (hruns : limit < runs) :
    ∃ paused plain : Outcome ι,
      runThrough fuel runs
        { limits := { maxSteps := some limit, stopAtBreakpoints := true } } m =
          some paused ∧
      run fuel { limits := { maxSteps := some limit, stopAtBreakpoints := false } } m =
        some plain ∧
      (∀ pc, paused.reason ≠ .breakpoint pc) ∧
      paused.machine = plain.machine ∧
      paused.reason = plain.reason ∧
      paused.runner.totalSteps = plain.runner.totalSteps ∧
      paused.output = plain.output := by
  obtain ⟨rest, rfl⟩ : ∃ rest, runs = rest + 1 := ⟨runs - 1, by omega⟩
  let through : Runner :=
    { limits := { maxSteps := some limit, stopAtBreakpoints := true } }
  let past : Runner :=
    { limits := { maxSteps := some limit, stopAtBreakpoints := false } }
  have hfresh : Alongside limit through past := ⟨rfl, rfl, rfl⟩
  obtain ⟨o, p, ho, hp, hagrees⟩ := endAlike limit limit fuel rest fuel fuel 0 0
    through past m "" hfresh hm rfl hfuel (by omega) hfuel hfuel
  rw [Machine.preceded_empty] at hp
  refine ⟨o, p, ho, hp, reason_ne_breakpoint (rest + 1) ho, hagrees.machine,
    hagrees.reason, hagrees.totalSteps, ?_⟩
  rw [← hagrees.output, String.empty_append]

/-- A loop with a breakpoint before each of two instructions. -/
def markedLoop : Machine Empty where
  config := ⟨3, 2, 1⟩
  registers := .initial ⟨3, 2, 1⟩
  memory := .zeros 2
  store := #[{ Standard.instruction .ldc (some (.int 7)) with breakpoint := true },
    { Standard.instruction .print with breakpoint := true },
    Standard.instruction .ujp (some (.int 0))]
  labels := ∅
  overlay := []
  output := .empty
  running := true

/-- The first run pauses at once, and the limit is used up in the middle of the second round,
when one value has been printed. -/
theorem loop_with_breakpoints_ends_alike :
    markedLoop.IsStandard ∧
      (run 5 { limits := { maxSteps := some 4 } } markedLoop).map Outcome.reason =
        some (.breakpoint 0) ∧
      ∃ paused plain : Outcome Empty,
        runThrough 5 5 { limits := { maxSteps := some 4 } } markedLoop = some paused ∧
        run 5 { limits := { maxSteps := some 4, stopAtBreakpoints := false } } markedLoop =
          some plain ∧
        paused.machine = plain.machine ∧ plain.machine.registers.pc = 1 ∧
        paused.reason = .stepLimit ∧ plain.reason = .stepLimit ∧
        paused.runner.totalSteps = 4 ∧ plain.runner.totalSteps = 4 ∧
        paused.output = "7" ∧ plain.output = "7" := by
  have hm := markedLoop.isStandard_empty
  obtain ⟨paused, plain, hpaused, hplain, _, hmachine, hreason, htotal, houtput⟩ :=
    breakpoints_transparent markedLoop hm 4 5 5 (by decide) (by decide)
  have hends : (run 5 { limits := { maxSteps := some 4, stopAtBreakpoints := false } }
      markedLoop).map (fun o =>
        (o.machine.registers.pc, o.reason, o.runner.totalSteps, o.output)) =
      some (1, .stepLimit, 4, "7") := by decide +kernel
  rw [hplain, Option.map_some, Option.some.injEq] at hends
  simp only [Prod.mk.injEq] at hends
  obtain ⟨hpc, hlimit, hsteps, htext⟩ := hends
  exact ⟨hm, by decide +kernel, paused, plain, hpaused, hplain, hmachine, hpc,
    hreason.trans hlimit, hlimit, htotal.trans hsteps, hsteps, houtput.trans htext, htext⟩

end Runner

end CellMachine
