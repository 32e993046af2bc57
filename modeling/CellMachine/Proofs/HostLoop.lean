import CellMachine.Proofs.RunAccounts
import Mathlib.Data.Nat.Find

/-!
A host that runs a machine again after every breakpoint comes to an end. A run cannot go on
beyond its limit. A run that begins where the last one paused takes that step before it can
pause again, so every pause but the first is paid for with a step, and the first is made
before the limit is used up.
-/

namespace CellMachine

variable {ι : Type}

/-- The run stopped at a breakpoint. -/
def Outcome.IsPause (o : Outcome ι) : Prop := ∃ pc, o.reason = .breakpoint pc

/-- The instructions that a run has begun. The one that faults is not among its steps. -/
def Outcome.attempts (o : Outcome ι) : Nat :=
  match o.reason with
  | .fault .. => o.steps + 1
  | .halted | .breakpoint _ | .stepLimit => o.steps

theorem Outcome.steps_le_attempts (o : Outcome ι) : o.steps ≤ o.attempts := by
  unfold attempts
  split
  · exact Nat.le_succ _
  all_goals exact Nat.le_refl _

namespace Runner

variable [Host ι] {r : Runner} {m : Machine ι} {o : Outcome ι} {fuel limit : Nat}

/-- Once the turns are enough for a run, more of them make no difference. -/
theorem run_of_steps_lt (h : r.run fuel m = some o) {more : Nat} (hmore : o.steps < more) :
    r.run more m = some o :=
  run_eq_some_iff.mpr ⟨hmore, (run_eq_some_iff.mp h).2⟩

/-- A runner that does not go on for ever stops at the first turn in which it does not. -/
theorem exists_stopsFor_of_not_goesOn {k : Nat}
    (h : ¬ (r.afterSteps k).GoesOn (m.afterSteps k)) :
    ∃ n ≤ k, (∀ j < n, (r.afterSteps j).GoesOn (m.afterSteps j)) ∧
      ∃ reason, (r.afterSteps n).StopsFor (m.afterSteps n) reason := by
  classical
  have hsome : ∃ n, ¬ (r.afterSteps n).GoesOn (m.afterSteps n) := ⟨k, h⟩
  refine ⟨Nat.find hsome, Nat.find_min' hsome h, ?_, ?_⟩
  · intro j hj
    exact not_not.mp (Nat.find_min hsome hj)
  · exact (goesOn_or_stopsFor _ _).resolve_left (Nat.find_spec hsome)

/-- A runner goes on for no more turns than its limit has steps left. -/
theorem exists_stopsFor_within (hlimit : r.limits.maxSteps = some limit) (m : Machine ι) :
    ∃ n ≤ limit - r.totalSteps, (∀ j < n, (r.afterSteps j).GoesOn (m.afterSteps j)) ∧
      ∃ reason, (r.afterSteps n).StopsFor (m.afterSteps n) reason := by
  apply exists_stopsFor_of_not_goesOn
  intro hgo
  refine hgo.withinLimit ⟨limit, hlimit, ?_⟩
  change limit ≤ r.totalSteps + (limit - r.totalSteps)
  omega

/-- Every run under a limit comes to an end, and begins no more instructions than the limit
has steps left. -/
theorem run_ends (hlimit : r.limits.maxSteps = some limit) (m : Machine ι) :
    ∃ o, o.attempts ≤ limit - r.totalSteps ∧ ∀ fuel, o.steps < fuel → r.run fuel m = some o := by
  obtain ⟨n, hn, hon, reason, hstop⟩ := exists_stopsFor_within hlimit m
  refine ⟨(r.afterSteps n).outcome n (m.afterSteps n) reason, ?_, ?_⟩
  · cases reason with
    | halted | breakpoint | stepLimit => exact hn
    | fault pc f =>
        have hwithin : ¬ limit ≤ r.totalSteps + n := fun hover =>
          hstop.2.1 ⟨limit, hlimit, hover⟩
        change n + 1 ≤ limit - r.totalSteps
        omega
  · intro fuel hfuel
    exact run_eq_some_iff.mpr ⟨hfuel, hon, hstop, rfl⟩

theorem limits_of_run (h : r.run fuel m = some o) : o.runner.limits = r.limits := by
  have hrunner := congrArg Outcome.runner (run_eq_some_iff.mp h).2.2.2
  rw [hrunner]
  cases o.reason <;> rfl

theorem steps_le_of_run (h : r.run fuel m = some o)
    (hlimit : r.limits.maxSteps = some limit) : o.steps ≤ limit := by
  obtain ⟨same, hattempts, hends⟩ := run_ends hlimit m
  have hboth := run_of_steps_lt h (show o.steps < o.steps + same.steps + 1 by omega)
  rw [hends _ (by omega)] at hboth
  cases hboth
  have hsteps := o.steps_le_attempts
  omega

/-- A runner that has stopped at a breakpoint remembers where the machine stands. It is
within its limit. -/
theorem run_pause (h : r.run fuel m = some o) (hpause : o.IsPause)
    (hlimit : r.limits.maxSteps = some limit) :
    o.runner.pausedAt = some o.machine.registers.pc ∧
      o.runner.totalSteps = r.totalSteps + o.steps ∧ r.totalSteps + o.steps < limit := by
  obtain ⟨_, _, hstop, ho⟩ := run_eq_some_iff.mp h
  obtain ⟨pc, hreason⟩ := hpause
  rw [hreason] at hstop ho
  obtain ⟨_, hwithin, _, hpc⟩ := hstop
  have hrunner := congrArg Outcome.runner ho
  have hmachine := congrArg Outcome.machine ho
  refine ⟨?_, by rw [hrunner]; rfl, ?_⟩
  · rw [hrunner, hmachine]
    exact congrArg some hpc.symm
  · exact Nat.lt_of_not_le fun hover => hwithin ⟨limit, hlimit, hover⟩

/-- Where the last run has paused, the next one takes a step before it pauses again. -/
theorem steps_pos_of_pausedAt (h : r.run fuel m = some o) (hpause : o.IsPause)
    (hpaused : r.pausedAt = some m.registers.pc) : 0 < o.steps := by
  obtain ⟨_, _, hstop, _⟩ := run_eq_some_iff.mp h
  obtain ⟨pc, hreason⟩ := hpause
  rw [hreason] at hstop
  obtain ⟨_, _, hpauses, _⟩ := hstop
  apply Nat.pos_of_ne_zero
  intro hzero
  rw [hzero] at hpauses
  exact hpauses.2.2 hpaused

/-- Runs one after the other, each of which begins where the one before it stopped. -/
inductive Consecutive : Runner → Machine ι → List (Outcome ι) → Prop where
  | nil {r : Runner} {m : Machine ι} : Consecutive r m []
  | cons {r : Runner} {m : Machine ι} {fuel : Nat} {o : Outcome ι} {rest : List (Outcome ι)} :
      r.run fuel m = some o → Consecutive o.runner o.machine rest →
        Consecutive r m (o :: rest)

theorem Consecutive.uncons {os : List (Outcome ι)} (h : Consecutive r m (o :: os)) :
    (∃ fuel, r.run fuel m = some o) ∧ Consecutive o.runner o.machine os := by
  cases h with
  | cons hrun hrest => exact ⟨⟨_, hrun⟩, hrest⟩

/-- After a pause, all further pauses in a row are fewer than the steps left. -/
theorem Consecutive.length_lt {os : List (Outcome ι)} (h : Consecutive r m os)
    (hpauses : ∀ o ∈ os, o.IsPause) (hlimit : r.limits.maxSteps = some limit)
    (hpaused : r.pausedAt = some m.registers.pc) (hleft : r.totalSteps < limit) :
    os.length < limit - r.totalSteps := by
  induction h with
  | nil => exact Nat.sub_pos_of_lt hleft
  | @cons r m fuel o rest hrun _ ih =>
      have hpause : o.IsPause := hpauses o (by simp)
      have hstep := steps_pos_of_pausedAt hrun hpause hpaused
      obtain ⟨hpausedNext, htotal, hbelow⟩ := run_pause hrun hpause hlimit
      have hrest := ih (fun next member => hpauses next (by simp [member]))
        (by rwa [limits_of_run hrun]) hpausedNext (by omega)
      rw [List.length_cons]
      omega

/-- No more runs in a row end at a breakpoint than the limit has steps left. -/
theorem Consecutive.length_le {os : List (Outcome ι)} (h : Consecutive r m os)
    (hpauses : ∀ o ∈ os, o.IsPause) (hlimit : r.limits.maxSteps = some limit) :
    os.length ≤ limit - r.totalSteps := by
  cases h with
  | nil => exact Nat.zero_le _
  | @cons r m fuel o rest hrun hrest =>
      obtain ⟨hpaused, htotal, hbelow⟩ := run_pause hrun (hpauses o (by simp)) hlimit
      have hlength := hrest.length_lt (fun next member => hpauses next (by simp [member]))
        (by rwa [limits_of_run hrun]) hpaused (by omega)
      rw [List.length_cons]
      omega

theorem Consecutive.of_append {os more : List (Outcome ι)}
    (h : Consecutive r m (os ++ more)) : Consecutive r m os := by
  induction os generalizing r m with
  | nil => exact .nil
  | cons o rest ih =>
      obtain ⟨⟨_, hrun⟩, hrest⟩ := h.uncons
      exact .cons hrun (ih hrest)

theorem Consecutive.steps_le {os : List (Outcome ι)} (h : Consecutive r m os)
    (hlimit : r.limits.maxSteps = some limit) : ∀ o ∈ os, o.steps ≤ limit := by
  induction h with
  | nil => simp
  | @cons r m fuel o rest hrun _ ih =>
      have hrest := ih (by rwa [limits_of_run hrun])
      simpa using ⟨steps_le_of_run hrun hlimit, hrest⟩

/-- What no step and no taking of the text can undo holds of all machines that the runs
leave. -/
theorem Consecutive.holds {P : Machine ι → Prop} (hstep : ∀ k, P k → P (Machine.step.state k))
    (hdrain : ∀ k, P k → P k.drained) {os : List (Outcome ι)} (h : Consecutive r m os)
    (hm : P m) : ∀ o ∈ os, P o.machine := by
  induction h with
  | nil => simp
  | @cons r m fuel o rest hrun _ ih =>
      have hsteps (n : Nat) (k : Machine ι) (hk : P k) : P (k.afterSteps n) := by
        induction n generalizing k with
        | zero => exact hk
        | succ n ih => exact ih _ (hstep k hk)
      obtain ⟨_, _, _, ho⟩ := run_eq_some_iff.mp hrun
      have hleft : P o.machine := by
        rw [congrArg Outcome.machine ho]
        apply hdrain
        cases o.reason with
        | fault pc f => exact hstep _ (hsteps o.steps m hm)
        | halted | breakpoint | stepLimit => exact hsteps o.steps m hm
      simpa using ⟨hleft, ih hleft⟩

/-- Either there are as many pauses in a row as one likes, or the row ends earlier with a
run that is no pause. -/
theorem exists_pauses_or_end (hlimit : r.limits.maxSteps = some limit) (m : Machine ι)
    (count : Nat) :
    (∃ os, Consecutive r m os ∧ (∀ o ∈ os, o.IsPause) ∧ os.length = count) ∨
      ∃ os last, Consecutive r m (os ++ [last]) ∧ (∀ o ∈ os, o.IsPause) ∧ ¬ last.IsPause := by
  induction count generalizing r m with
  | zero => exact Or.inl ⟨[], .nil, by simp, rfl⟩
  | succ count ih =>
      obtain ⟨o, _, hends⟩ := run_ends hlimit m
      have hrun := hends (o.steps + 1) (Nat.lt_succ_self _)
      by_cases hpause : o.IsPause
      · have hall {os : List (Outcome ι)} (hos : ∀ next ∈ os, next.IsPause) :
            ∀ next ∈ o :: os, next.IsPause := by
          simpa using ⟨hpause, hos⟩
        obtain ⟨os, hos, hpauses, hlength⟩ | ⟨os, last, hos, hpauses, hlast⟩ :=
          ih (r := o.runner) (by rwa [limits_of_run hrun]) o.machine
        · exact Or.inl ⟨o :: os, .cons hrun hos, hall hpauses, by rw [List.length_cons, hlength]⟩
        · exact Or.inr ⟨o :: os, last, .cons hrun hos, hall hpauses, hlast⟩
      · exact Or.inr ⟨[], o, .cons hrun .nil, by simp, hpause⟩

theorem exists_end (hlimit : r.limits.maxSteps = some limit) (m : Machine ι) :
    ∃ os last, Consecutive r m (os ++ [last]) ∧ (∀ o ∈ os, o.IsPause) ∧ ¬ last.IsPause := by
  obtain ⟨os, hos, hpauses, hlength⟩ | hend :=
    exists_pauses_or_end hlimit m (limit - r.totalSteps + 1)
  · have hfew := hos.length_le hpauses hlimit
    omega
  · exact hend

end Runner

end CellMachine
