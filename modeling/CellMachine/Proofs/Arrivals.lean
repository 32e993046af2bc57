import CellMachine.Proofs.HostLoop

/-!
Which breakpoints a runner passes. It remembers the address of its last pause and passes a
breakpoint only there, with the first instruction of a run. The address is all that it
remembers. If the host meanwhile steps, restarts or loads the machine on its own, the
machine may come to the same address anew, and the runner then passes a breakpoint at
which it has not paused.
-/

namespace CellMachine

variable {ι : Type}

/-- What happens while a host works with a runner and a machine. -/
inductive Incident (ι : Type) where
  /-- The runner has run the machine and stopped. -/
  | ran (o : Outcome ι)
  /-- The runner has executed one instruction of this machine outside any run. -/
  | stepped (m : Machine ι)
  /-- The host has done something to this machine on its own. -/
  | hosted (op : Operation ι) (m : Machine ι)

namespace Incident

/-- An instruction was executed, or the machine was put back to its start. -/
def Moves : Incident ι → Prop
  | .ran o => 0 < o.attempts
  | .stepped m | .hosted .step m => m.running = true
  | .hosted (.call .restart) _ => True
  | .hosted (.call (.load p)) m => ∃ n, m.load p = .ok n
  | .hosted (.call _) _ => False

/-- The runner has taken a new note of where it paused, or has dropped the old one. -/
def Notes : Incident ι → Prop
  | .ran o => o.IsPause ∨ 0 < o.attempts
  | .stepped _ => True
  | .hosted .. => False

end Incident

/-- Of all that has happened, latest first, the last note of the runner is of a pause at
this address. What has happened since then is in `since`. -/
def Remembered (past : List (Incident ι)) (pc : Word) (since : List (Incident ι)) : Prop :=
  ∃ pause earlier, past = since ++ .ran pause :: earlier ∧ pause.reason = .breakpoint pc ∧
    ∀ i ∈ since, ¬ i.Notes

/-- A run has paused at this address, and the machine has not moved since. -/
def Announced (past : List (Incident ι)) (pc : Word) : Prop :=
  ∃ since pause earlier, past = since ++ .ran pause :: earlier ∧
    pause.reason = .breakpoint pc ∧ ∀ i ∈ since, ¬ i.Moves

theorem exists_remembered_cons {i : Incident ι} {past : List (Incident ι)} {pc : Word} :
    (∃ since, Remembered (i :: past) pc since) ↔
      (∃ o, i = .ran o ∧ o.reason = .breakpoint pc) ∨
        ¬ i.Notes ∧ ∃ since, Remembered past pc since := by
  constructor
  · rintro ⟨since, pause, earlier, hpast, hreason, hquiet⟩
    cases since with
    | nil =>
        obtain ⟨rfl, _⟩ := List.cons.inj hpast
        exact Or.inl ⟨pause, rfl, hreason⟩
    | cons other rest =>
        obtain ⟨rfl, hrest⟩ := List.cons.inj hpast
        exact Or.inr ⟨hquiet i (by simp), rest, pause, earlier, hrest, hreason,
          fun j member => hquiet j (by simp [member])⟩
  · rintro (⟨o, rfl, hreason⟩ | ⟨hnote, since, pause, earlier, rfl, hreason, hquiet⟩)
    · exact ⟨[], o, past, rfl, hreason, by simp⟩
    · exact ⟨i :: since, pause, earlier, rfl, hreason, by simpa using ⟨hnote, hquiet⟩⟩

/-- The pause that a runner remembers is for the present arrival if the machine has not
moved since. -/
theorem Remembered.announced_iff {past since : List (Incident ι)} {pc : Word}
    (h : Remembered past pc since) : Announced past pc ↔ ∀ i ∈ since, ¬ i.Moves := by
  obtain ⟨pause, earlier, hpast, hreason, hquiet⟩ := h
  constructor
  · rintro ⟨rest, other, before, hother, hpause, hstill⟩ i member
    obtain ⟨more, rfl, _⟩ | ⟨more, rfl, hmore⟩ :=
      List.append_eq_append_iff.mp (hpast.symm.trans hother)
    · exact hstill i (by simp [member])
    · -- The other pause cannot be the later one, for the runner would have noted it.
      cases more with
      | nil => exact hstill i (by simpa using member)
      | cons later _ =>
          obtain ⟨rfl, _⟩ := List.cons.inj hmore
          exact absurd (Or.inl ⟨pc, hpause⟩) (hquiet (.ran other) (by simp))
  · intro hstill
    exact ⟨since, pause, earlier, hpast, hreason, hstill⟩

/-- The turn executes an instruction, which may fault. -/
def Turn.IsAttempt : Turn ι → Prop
  | .stepped .. | .stopped (.fault ..) .. => True
  | .stopped .. => False

variable [Host ι]

namespace Runner

variable {r next : Runner} {m n after : Machine ι}

/-- In the run of this runner on this machine, the next instruction of `n` is executed. -/
inductive Executes : Runner → Machine ι → Machine ι → Prop where
  | now {r : Runner} {m : Machine ι} : (r.turn m).IsAttempt → Executes r m m
  | later {r next : Runner} {m after n : Machine ι} :
      r.turn m = .stepped next after → Executes next after n → Executes r m n

theorem isAttempt_turn_iff :
    (r.turn m).IsAttempt ↔ m.running = true ∧ ¬ r.UsedUp ∧ ¬ r.PausesAt m := by
  obtain hgo | ⟨reason, hstop⟩ := r.goesOn_or_stopsFor m
  · rw [turn_of_goesOn hgo]
    exact iff_of_true trivial ⟨hgo.running, hgo.withinLimit, hgo.noPause⟩
  · rw [turn_of_stopsFor hstop]
    cases reason with
    | halted =>
        refine iff_of_false id fun h => ?_
        exact Bool.false_ne_true (hstop.symm.trans h.1)
    | stepLimit => exact iff_of_false id fun h => h.2.1 hstop.2
    | breakpoint pc => exact iff_of_false id fun h => h.2.2 hstop.2.2.1
    | fault pc f => exact iff_of_true trivial ⟨hstop.1, hstop.2.1, hstop.2.2.1⟩

theorem eq_afterSteps_of_stepped (h : r.turn m = .stepped next after) :
    next = r.afterSteps 1 := by
  obtain hgo | ⟨reason, hstop⟩ := r.goesOn_or_stopsFor m
  · rw [turn_of_goesOn hgo] at h
    injection h with hnext
    exact hnext.symm
  · rw [turn_of_stopsFor hstop] at h
    cases h

/-- A runner that remembers no pause passes no breakpoint. -/
theorem Executes.unmarked (h : r.Executes m n) (hstop : r.limits.stopAtBreakpoints = true)
    (hforgot : r.pausedAt = none) : ¬ n.isAtBreakpoint = true := by
  induction h with
  | @now r m hattempt =>
      intro hmark
      refine (isAttempt_turn_iff.mp hattempt).2.2 ⟨hstop, hmark, ?_⟩
      rw [hforgot]
      simp
  | later hturn _ ih =>
      obtain rfl := eq_afterSteps_of_stepped hturn
      exact ih hstop rfl

/-- A breakpoint is passed by the first instruction of a run, and where the runner
remembers to have paused. -/
theorem Executes.marked (h : r.Executes m n) (hstop : r.limits.stopAtBreakpoints = true)
    (hmark : n.isAtBreakpoint = true) :
    n = m ∧ m.running = true ∧ ¬ r.UsedUp ∧ r.pausedAt = some m.registers.pc := by
  cases h with
  | now hattempt =>
      obtain ⟨hrunning, hwithin, hpass⟩ := isAttempt_turn_iff.mp hattempt
      exact ⟨rfl, hrunning, hwithin, by_contra fun hother => hpass ⟨hstop, hmark, hother⟩⟩
  | later hturn hrest =>
      obtain rfl := eq_afterSteps_of_stepped hturn
      exact absurd hmark (hrest.unmarked hstop rfl)

/-- What a runner remembers after a run. -/
theorem pausedAt_of_run {fuel : Nat} {o : Outcome ι} (h : r.run fuel m = some o) :
    o.runner.pausedAt =
      match o.reason with
      | .breakpoint pc => some pc
      | .fault .. => none
      | .halted | .stepLimit => if o.steps = 0 then r.pausedAt else none := by
  rw [congrArg Outcome.runner (run_eq_some_iff.mp h).2.2.2]
  change ((r.afterSteps o.steps).stoppedFor o.reason).pausedAt = _
  cases o.reason <;> rfl

end Runner

/-- What has happened, latest first, since a host began to work with a runner and a machine;
and what they are now. -/
inductive Worked (first : Runner) (start : Machine ι) :
    List (Incident ι) → Runner → Machine ι → Prop where
  | nothing : Worked first start [] first start
  | ran {past : List (Incident ι)} {r : Runner} {m : Machine ι} {fuel : Nat} {o : Outcome ι} :
      Worked first start past r m → r.run fuel m = some o →
        Worked first start (.ran o :: past) o.runner o.machine
  | stepped {past : List (Incident ι)} {r : Runner} {m : Machine ι} :
      Worked first start past r m →
        Worked first start (.stepped m :: past) (r.step m).2.1 (r.step m).2.2
  | hosted {past : List (Incident ι)} {r : Runner} {m : Machine ι} (op : Operation ι) :
      Worked first start past r m → Worked first start (.hosted op m :: past) r (op.apply m)

namespace Worked

variable {first r : Runner} {start m : Machine ι} {past : List (Incident ι)}

theorem runner_step (r : Runner) (m : Machine ι) :
    (r.step m).2.1 = { r with pausedAt := none } := by
  unfold Runner.step
  cases Machine.step.run m <;> rfl

theorem limits_eq (h : Worked first start past r m) : r.limits = first.limits := by
  induction h with
  | nothing => rfl
  | ran _ hrun ih => exact (Runner.limits_of_run hrun).trans ih
  | stepped _ ih => rwa [runner_step]
  | hosted _ _ ih => exact ih

/-- What a runner remembers is its last note, if that is of a pause. -/
theorem pausedAt_iff (h : Worked first start past r m) (hfresh : first.pausedAt = none)
    (pc : Word) : r.pausedAt = some pc ↔ ∃ since, Remembered past pc since := by
  induction h with
  | nothing =>
      rw [hfresh]
      refine iff_of_false (by simp) ?_
      rintro ⟨since, pause, earlier, hpast, _⟩
      simp at hpast
  | @ran past r m fuel o _ hrun ih =>
      rw [exists_remembered_cons, Runner.pausedAt_of_run hrun, ← ih]
      cases hreason : o.reason with
      | breakpoint other => simp [Incident.Notes, Outcome.IsPause, hreason]
      | fault other f => simp [Incident.Notes, Outcome.attempts, hreason]
      | halted | stepLimit =>
          by_cases hnone : o.steps = 0 <;>
            simp [Incident.Notes, Outcome.IsPause, Outcome.attempts, hreason, hnone]
  | stepped _ _ =>
      rw [runner_step, exists_remembered_cons]
      simp [Incident.Notes]
  | hosted op _ ih =>
      rw [exists_remembered_cons, ih]
      simp [Incident.Notes]

/-- Which breakpoints are missed. Let a host begin with a runner that stops at breakpoints
and remembers no pause, on any machine, and let there be runs, steps of the runner, and
steps and calls of the host on its own, in any order. Where the next run executes an
instruction with a breakpoint, it is the first of the run, and the last note of the runner
is of a pause at this address. That pause was for this arrival if and only if since then no
instruction was executed and the machine was neither restarted nor loaded. So a breakpoint
is missed exactly when the host has moved the machine since the last pause, and the machine
is to go on at the address of that pause and is at a breakpoint there. -/
theorem breakpoint_missed_iff_moved_back (hstop : first.limits.stopAtBreakpoints = true)
    (hfresh : first.pausedAt = none) (h : Worked first start past r m) :
    (∀ n, r.Executes m n → n.isAtBreakpoint = true →
      n = m ∧ ∃ since, Remembered past m.registers.pc since) ∧
      (∀ since, Remembered past m.registers.pc since →
        (Announced past m.registers.pc ↔ ∀ i ∈ since, ¬ i.Moves)) ∧
      ((∃ n, r.Executes m n ∧ n.isAtBreakpoint = true ∧ ¬ Announced past n.registers.pc) ↔
        m.running = true ∧ ¬ r.UsedUp ∧ m.isAtBreakpoint = true ∧
          ∃ since, Remembered past m.registers.pc since ∧ ∃ i ∈ since, i.Moves) := by
  have hstops : r.limits.stopAtBreakpoints = true := by rwa [h.limits_eq]
  have hnoted := h.pausedAt_iff hfresh m.registers.pc
  refine ⟨?_, fun since => Remembered.announced_iff, ?_, ?_⟩
  · intro n hn hmark
    obtain ⟨hsame, _, _, hpaused⟩ := hn.marked hstops hmark
    exact ⟨hsame, hnoted.mp hpaused⟩
  · rintro ⟨n, hn, hmark, hmissed⟩
    obtain ⟨rfl, hrunning, hwithin, hpaused⟩ := hn.marked hstops hmark
    obtain ⟨since, hsince⟩ := hnoted.mp hpaused
    rw [hsince.announced_iff] at hmissed
    exact ⟨hrunning, hwithin, hmark, since, hsince, by simpa using hmissed⟩
  · rintro ⟨hrunning, hwithin, hmark, since, hsince, i, member, hmoves⟩
    have hpass : ¬ r.PausesAt m := fun hpauses => hpauses.2.2 (hnoted.mpr ⟨since, hsince⟩)
    refine ⟨m, .now (Runner.isAttempt_turn_iff.mpr ⟨hrunning, hwithin, hpass⟩), hmark, ?_⟩
    rw [hsince.announced_iff]
    exact fun hstill => hstill i member hmoves

end Worked

/-- The only instruction has a breakpoint. -/
def markedHalt : Machine Empty where
  config := ⟨1, 1, 1⟩
  registers := .initial ⟨1, 1, 1⟩
  memory := .zeros 1
  store := #[{ Standard.instruction .halt with breakpoint := true }]
  labels := ∅
  overlay := []
  output := .empty
  running := true

/-- The runner pauses at the first instruction, and after a restart it does not. -/
theorem restart_to_last_pause_is_missed :
    ∃ pause, Runner.run 1 {} markedHalt = some pause ∧ pause.reason = .breakpoint 0 ∧
      Worked {} markedHalt [.hosted (.call .restart) pause.machine, .ran pause]
        pause.runner pause.machine.restart ∧
      ∃ n, pause.runner.Executes pause.machine.restart n ∧ n.isAtBreakpoint = true ∧
        ¬ Announced [.hosted (.call .restart) pause.machine, .ran pause] n.registers.pc := by
  obtain ⟨pause, hrun⟩ : ∃ pause, Runner.run 1 {} markedHalt = some pause := ⟨_, rfl⟩
  have hreason : pause.reason = .breakpoint 0 := by
    cases hrun
    rfl
  have hworked : Worked {} markedHalt [.hosted (.call .restart) pause.machine, .ran pause]
      pause.runner pause.machine.restart :=
    .hosted (.call .restart) (.ran .nothing hrun)
  refine ⟨pause, hrun, hreason, hworked, ?_⟩
  apply (Worked.breakpoint_missed_iff_moved_back rfl rfl hworked).2.2.mpr
  have hremembered : Remembered [.hosted (.call .restart) pause.machine, .ran pause] 0
      [.hosted (.call .restart) pause.machine] :=
    ⟨pause, [], rfl, hreason, by simp [Incident.Notes]⟩
  refine ⟨rfl, ?_, ?_, _, hremembered, _, List.mem_singleton_self _, trivial⟩
  · rintro ⟨limit, hlimit, _⟩
    cases hrun
    cases hlimit
  · cases hrun
    decide +kernel

end CellMachine
