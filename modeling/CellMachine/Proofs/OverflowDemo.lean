import CellMachine.Proofs.ForwardJumps
import CellMachine.Proofs.LabelledJump
import CellMachine.Proofs.RoomChecks
import CellMachine.Proofs.Sessions

/-!
How the overflow demo ends. Two instructions form a loop, of which the first pushes and the
second jumps back, so the number of steps that were taken says where the machine stands and how
many values it has pushed. It fills its stack with two steps for each cell, and unless the limit
is used up by then, the next push faults. Breakpoints cut the loop into runs and change nothing
of this.
-/

namespace CellMachine

variable {ι : Type}

namespace Runner

variable [Host ι] {r : Runner} {m : Machine ι} {limit : Nat}

/-- What holds of a machine after so many steps, if these have all succeeded, holds throughout
a run. -/
theorem holds_throughout {P : Nat → Machine ι → Prop}
    (hstep : ∀ n k, P n k → Machine.step.result k = .ok () → P (n + 1) (Machine.step.state k))
    (hm : P r.totalSteps m) {n : Nat}
    (hon : ∀ j < n, (r.afterSteps j).GoesOn (m.afterSteps j)) :
    P (r.totalSteps + n) (m.afterSteps n) := by
  induction n with
  | zero => exact hm
  | succ n ih =>
      have hbefore := ih fun j hj => hon j (by omega)
      rw [Machine.afterSteps_step]
      exact hstep _ _ hbefore (hon n (Nat.lt_succ_self n)).succeeds

/-- The same for consecutive runs, where the text is taken out at every pause: it holds of the
machine at which the last run stops, which is within the limit. -/
theorem Consecutive.holds_at_end {P : Nat → Machine ι → Prop}
    (hstep : ∀ n k, P n k → Machine.step.result k = .ok () → P (n + 1) (Machine.step.state k))
    (hdrain : ∀ n k, P n k → P n k.drained) {os : List (Outcome ι)} {last : Outcome ι}
    (h : Consecutive r m (os ++ [last])) (hpauses : ∀ o ∈ os, o.IsPause) (hm : P r.totalSteps m)
    (hlimit : r.limits.maxSteps = some limit) (hle : r.totalSteps ≤ limit) :
    ∃ (s : Runner) (k : Machine ι), P s.totalSteps k ∧ s.StopsFor k last.reason ∧
      s.limits = r.limits ∧ s.totalSteps ≤ limit ∧ last.runner.totalSteps = s.totalSteps := by
  induction os generalizing r m with
  | nil =>
      obtain ⟨⟨_, hrun⟩, _⟩ := h.uncons
      obtain ⟨_, hon, hstop, ho⟩ := run_eq_some_iff.mp hrun
      refine ⟨r.afterSteps last.steps, m.afterSteps last.steps, holds_throughout hstep hm hon,
        hstop, rfl, totalSteps_le_of_goesOn hon hlimit hle, ?_⟩
      rw [congrArg Outcome.runner ho]
      exact totalSteps_stoppedFor _ _
  | cons o rest ih =>
      obtain ⟨⟨_, hrun⟩, hrest⟩ := h.uncons
      obtain ⟨_, hon, _, ho⟩ := run_eq_some_iff.mp hrun
      have hpause : o.IsPause := hpauses o (by simp)
      obtain ⟨_, htotal, hbelow⟩ := run_pause hrun hpause hlimit
      have hlimits := limits_of_run hrun
      have hpaused : P o.runner.totalSteps o.machine := by
        obtain ⟨pc, hreason⟩ := hpause
        rw [htotal, congrArg Outcome.machine ho, hreason]
        exact hdrain _ _ (holds_throughout hstep hm hon)
      obtain ⟨s, k, hk, hstop, hsame, hwithin, hlast⟩ :=
        ih hrest (fun next member => hpauses next (by simp [member])) hpaused
          (by rwa [hlimits]) (by omega)
      exact ⟨s, k, hk, hstop, hsame.trans hlimits, hwithin, hlast⟩

end Runner

namespace Machine

/-- The machine is in the loop of the overflow demo and has taken `steps` of its steps, none of
which has faulted. -/
structure InPushLoop (c : Config) (steps : Nat) (m : Machine Empty) : Prop where
  running : m.running = true
  pushes : ∃ i, m.store[0]? = some i ∧ i.operation? = some .ldc ∧ i.first = some (.int 1)
  jumps : ∃ i, m.store[1]? = some i ∧ i.opcode = .defined Standard.ujp.definition ∧
    i.first = some (.label "loop")
  label : m.labelSlot? "loop" = some 0
  pc : m.registers.pc.toInt = (steps % 2 : Nat)
  sp : m.registers.sp.toInt + 1 = ((steps + 1) / 2 : Nat)
  ep : m.registers.ep.toInt = c.maxStack
  hp : m.registers.hp.toInt = c.memorySize
  size : m.memory.size = c.memorySize
  within : steps ≤ 2 * c.maxStack

namespace InPushLoop

variable {c : Config} {steps : Nat} {m : Machine Empty}

theorem drained (h : m.InPushLoop c steps) : m.drained.InPushLoop c steps :=
  { h with }

theorem stackFits (hc : c.flaw? = none) (h : m.InPushLoop c steps) : m.advance.StackFits := by
  obtain ⟨_, _, _, hstack⟩ := c.flaw?_eq_none_iff.mp hc
  have hsp := h.sp
  have hep := h.ep
  have hsize := h.size
  have hwithin := h.within
  refine ⟨?_, ?_, ?_⟩
  · change -1 ≤ m.registers.sp.toInt
    omega
  · change m.registers.sp.toInt < m.registers.ep.toInt
    omega
  · change m.registers.ep.toInt ≤ m.memory.size
    omega

/-- At the first instruction of the loop a step is a push. -/
theorem run_step_of_even (h : m.InPushLoop c steps) (heven : steps % 2 = 0) :
    Machine.step.run m = (push (.int 1)).run m.advance := by
  obtain ⟨i, hi, hop, hfirst⟩ := h.pushes
  have hpc := h.pc
  rw [heven] at hpc
  have hcurrent : m.current? = some i := current?_eq_some_iff.mpr ⟨0, hpc, hi⟩
  rw [run_step_of_current h.running hcurrent, Instruction.perform_of_operation hop]
  exact Attempt.run_bind_of_ok
    (Attempt.run_ofExcept_of_ok (Instruction.argument_of_some hfirst) m.advance) _

/-- At the second instruction a step is the jump back. -/
theorem run_step_of_odd (h : m.InPushLoop c steps) (hodd : steps % 2 = 1) :
    Machine.step.run m = .ok () (m.jump (.wrap 0)) := by
  obtain ⟨i, hi, hop, hfirst⟩ := h.jumps
  have hpc := h.pc
  rw [hodd] at hpc
  have hcurrent : m.current? = some i := current?_eq_some_iff.mpr ⟨1, hpc, hi⟩
  exact run_step_of_labelled_jump h.running hcurrent hop rfl hfirst h.label

theorem room_advance (h : m.InPushLoop c steps) :
    m.advance.room = c.maxStack - (steps + 1) / 2 := by
  have hsp := h.sp
  have hep := h.ep
  change (m.registers.ep.toInt - m.registers.sp.toInt - 1).toNat = _
  omega

/-- The loop goes on as long as there is room for the next push. -/
theorem step_of_lt (hc : c.flaw? = none) (h : m.InPushLoop c steps)
    (hlt : steps < 2 * c.maxStack) :
    Machine.step.result m = .ok () ∧ (Machine.step.state m).InPushLoop c (steps + 1) := by
  have hfits := h.stackFits hc
  have hsp := h.sp
  rcases Nat.mod_two_eq_zero_or_one steps with heven | hodd
  · have hroom : 0 < m.advance.room := by
      rw [h.room_advance]
      omega
    have hrun := (h.run_step_of_even heven).trans (hfits.run_push_of_room hroom _)
    have hpc : (m.registers.pc + 1).toInt = m.registers.pc.toInt + 1 := by
      have hzero := h.pc
      rw [Word.toInt_add, Word.toInt_one]
      rw [Word.toInt_one]
      unfold Word.Fits
      omega
    rw [Attempt.result_of_ok hrun, Attempt.state_of_ok hrun]
    refine ⟨rfl, { h with pc := ?_, sp := ?_, size := ?_, within := hlt }⟩
    · change (m.registers.pc + 1).toInt = _
      rw [hpc, h.pc]
      omega
    · change (m.registers.sp + 1).toInt + 1 = _
      rw [show (m.registers.sp + 1).toInt = _ from hfits.toInt_sp_succ]
      change m.registers.sp.toInt + 1 + 1 = _
      omega
    · change (m.memory.put _ _).size = _
      rw [Memory.size_put, h.size]
  · have hrun := h.run_step_of_odd hodd
    rw [Attempt.result_of_ok hrun, Attempt.state_of_ok hrun]
    refine ⟨rfl, { h with pc := ?_, sp := ?_, within := hlt }⟩
    · change (Word.wrap (0 : Nat)).toInt = _
      rw [Word.toInt_wrap_nat (by decide)]
      omega
    · change m.registers.sp.toInt + 1 = _
      omega

/-- When the stack is full, the next step is one push too many. -/
theorem result_step_of_full (hc : c.flaw? = none) (h : m.InPushLoop c (2 * c.maxStack)) :
    Machine.step.result m =
      .error (.stackOverflow (m.registers.ep - 1) m.registers.ep m.registers.hp) := by
  have hroom : m.advance.room = 0 := by
    rw [h.room_advance]
    omega
  have hrun := (h.run_step_of_even (by omega)).trans
    ((h.stackFits hc).run_push_of_full hroom _)
  exact Attempt.result_of_error hrun

theorem step_of_ok (hc : c.flaw? = none) (h : m.InPushLoop c steps)
    (hok : Machine.step.result m = .ok ()) :
    (Machine.step.state m).InPushLoop c (steps + 1) := by
  rcases Nat.lt_or_ge steps (2 * c.maxStack) with hroom | hfull
  · exact (h.step_of_lt hc hroom).2
  · obtain rfl : steps = 2 * c.maxStack := Nat.le_antisymm h.within hfull
    cases (h.result_step_of_full hc).symm.trans hok

/-- What the full stack reports. -/
theorem toInt_ep_pred (hc : c.flaw? = none) (h : m.InPushLoop c steps) :
    (m.registers.ep - 1).toInt = (c.maxStack : Int) - 1 := by
  rw [← h.ep]
  exact (h.stackFits hc).toInt_ep_pred

/-- A runner that stops in the loop for good has used up its limit in front of a step, or the
stack is full and it still has a step left. -/
theorem ends (hc : c.flaw? = none) {r : Runner} (h : m.InPushLoop c r.totalSteps) {limit : Nat}
    (hlimit : r.limits.maxSteps = some limit) (hle : r.totalSteps ≤ limit) {reason : StopReason}
    (hstop : r.StopsFor m reason) (hlast : ∀ pc, reason ≠ .breakpoint pc) :
    reason = .stepLimit ∧ r.totalSteps = limit ∧ limit ≤ 2 * c.maxStack ∨
      reason = .fault 0 (.stackOverflow (m.registers.ep - 1) m.registers.ep m.registers.hp) ∧
        r.totalSteps = 2 * c.maxStack ∧ 2 * c.maxStack < limit := by
  have hwithin := h.within
  cases reason with
  | halted => cases h.running.symm.trans hstop
  | breakpoint pc => exact absurd rfl (hlast pc)
  | stepLimit =>
      obtain ⟨_, reached, hsome, hreached⟩ := hstop
      cases hlimit.symm.trans hsome
      exact Or.inl ⟨rfl, by omega, by omega⟩
  | fault pc f =>
      obtain ⟨_, hleft, _, hpc, hfault⟩ := hstop
      have hbelow : r.totalSteps < limit :=
        Nat.lt_of_not_le fun hover => hleft ⟨limit, hlimit, hover⟩
      have hfull : r.totalSteps = 2 * c.maxStack := by
        by_contra hless
        obtain ⟨hok, _⟩ := h.step_of_lt hc (by omega)
        cases hok.symm.trans hfault
      rw [hfull] at h
      have hzero : m.registers.pc = 0 := by
        apply Word.eq_of_toInt
        rw [h.pc, Word.toInt_zero]
        omega
      cases (h.result_step_of_full hc).symm.trans hfault
      exact Or.inr ⟨by rw [← hpc, hzero], hfull, by omega⟩

end InPushLoop

end Machine

namespace CommandLine

open Machine

/-- A session of the overflow demo begins in front of the loop, wherever its breakpoints are. -/
theorem exists_setup_inPushLoop {o : Options} (hdemo : o.demo = .overflow)
    (hc : o.config.flaw? = none) (hstore : 2 ≤ o.config.storeSize)
    (hbreaks : ∀ slot ∈ o.breakAt, slot < o.config.storeSize) :
    ∃ events made, setup o = (events, .ok made) ∧ made.InPushLoop o.config 0 := by
  have hfits : o.demo.Fits o.config := by
    rw [hdemo]
    exact ⟨hc, hstore, by simp [Demo.program]⟩
  obtain ⟨loaded, hload, hsetup⟩ := exists_setup_eq hfits
  obtain ⟨made, hmade, hshows, hkept⟩ := markAll_of_inside (shows_load hload) hbreaks
  have hholds := (create_holds (create_ok_iff.mpr ⟨hc, rfl⟩)).load hload
  rw [hdemo] at hshows hload hholds
  obtain ⟨_, hinside, hrestart⟩ := load_eq_ok_iff.mp hload
  have hstart : loaded.AtStart o.config Demo.overflow.program.overlay := by
    rw [hrestart]
    exact atStart_restart hc rfl ((size_restart _).trans (Memory.size_zeros _)) rfl hinside
  have hslot (slot : Nat) (hslot : slot < 2) := (hshows.getElem?_demo slot).trans
    (if_pos (Nat.lt_of_lt_of_le hslot hstore))
  refine ⟨(setup o).1, made, by rw [← hmade, ← hsetup], ?_⟩
  rw [hkept]
  exact
    { running := hstart.running
      pushes := ⟨_, hslot 0 (by decide), rfl, rfl⟩
      jumps := ⟨_, hslot 1 (by decide), rfl, rfl⟩
      label := hholds.labels "loop"
      pc := hstart.pc
      sp := by
        rw [hstart.sp]
        rfl
      ep := hstart.ep
      hp := hstart.hp
      size := hstart.size
      within := Nat.zero_le _ }

/-- How every session of the overflow demo ends, for every configuration that has no flaw and two
slots at least, every limit, and all breakpoints in the store, whether it stops at them or not.
Its runs all pause but the last. If the limit is more than twice the cells of the stack, the last
run faults at slot 0, because the stack is full, after exactly that many steps in all, and the
exit code is 2. Otherwise the last run stops for the limit, which is used up exactly, and the
exit code is 0. -/
theorem overflow_demo_fills_stack_or_limit (o : Options) (hdemo : o.demo = .overflow)
    (hc : o.config.flaw? = none) (hstore : 2 ≤ o.config.storeSize)
    (hbreaks : ∀ slot ∈ o.breakAt, slot < o.config.storeSize) :
    let stack := o.config.maxStack
    ∃ events made os last, setup o = (events, .ok made) ∧
      o.runner.Consecutive made (os ++ [last]) ∧ (∀ run ∈ os, run.IsPause) ∧
      (2 * stack < o.maxSteps →
        ∃ sp ep hp : Word, sp.toInt = (stack : Int) - 1 ∧ ep.toInt = stack ∧
          hp.toInt = o.config.memorySize ∧
          last.reason = .fault 0 (.stackOverflow sp ep hp) ∧
          last.runner.totalSteps = 2 * stack ∧
          ∃ shown, o.session? = some (shown ++
            [.text "\n", .event (.runtimeError 0 (.stackOverflow sp ep hp))], 2)) ∧
      (o.maxSteps ≤ 2 * stack →
        last.reason = .stepLimit ∧ last.runner.totalSteps = o.maxSteps ∧
          ∃ shown, o.session? = some (shown ++
            [.text "\n", .event (.limitReached o.maxSteps)], 0)) := by
  intro stack
  obtain ⟨events, made, hsetup, hmade⟩ := exists_setup_inPushLoop hdemo hc hstore hbreaks
  have hlimit : o.runner.limits.maxSteps = some o.maxSteps := rfl
  obtain ⟨os, last, hos, hpauses, hlast⟩ := Runner.exists_end hlimit made
  obtain ⟨shown, ending, code, hending, hdrive⟩ := drive_of_consecutive hsetup hos hpauses hlast
  have hsession := session?_of_drive hsetup (hdrive _ _ (Nat.lt_succ_self _) (by omega))
  rw [← List.cons_append, ← List.append_assoc] at hsession
  -- The last run stops in the loop, with as many steps behind it as its runner has counted.
  obtain ⟨r, k, hk, hstop, hsame, hwithin, htotal⟩ := hos.holds_at_end (P := InPushLoop o.config)
    (fun _ _ hn hok => hn.step_of_ok hc hok) (fun _ _ hn => hn.drained) hpauses hmade hlimit
    (Nat.zero_le _)
  have hends := hk.ends hc (by rw [hsame]; exact hlimit) hwithin hstop fun pc hpc =>
    hlast ⟨pc, hpc⟩
  refine ⟨events, made, os, last, hsetup, hos, hpauses, ?_, ?_⟩
  · intro hmore
    obtain ⟨_, _, hless⟩ | ⟨hreason, hsteps, _⟩ := hends
    · omega
    · rw [ending?, hreason] at hending
      cases hending
      exact ⟨_, _, _, hk.toInt_ep_pred hc, hk.ep, hk.hp, hreason, htotal.trans hsteps, _, hsession⟩
  · intro hless
    obtain ⟨hreason, hsteps, _⟩ | ⟨_, _, hmore⟩ := hends
    · rw [ending?, hreason, htotal, hsteps] at hending
      cases hending
      exact ⟨hreason, htotal.trans hsteps, _, hsession⟩
    · omega

/-- Three cells for the stack, and breakpoints at both instructions of the loop and in the
padding. Slot 1 is asked for three times. -/
def markedOverflow (limit : Nat) : Options :=
  { demo := .overflow, config := ⟨3, 4, 3⟩, maxSteps := limit, breakAt := [1, 0, 2, 1, 1] }

/-- The seventh step is the fault, and a limit of six steps ends the session in front of it. -/
theorem seventh_step_overflows :
    (markedOverflow 7).config.flaw? = none ∧
      (∀ slot ∈ (markedOverflow 7).breakAt, slot < (markedOverflow 7).config.storeSize) ∧
      (∃ shown, (markedOverflow 7).session? = some (shown ++
        [.text "\n", .event (.runtimeError 0 (.stackOverflow 2 3 4))], 2)) ∧
      ∃ shown, (markedOverflow 6).session? = some (shown ++
        [.text "\n", .event (.limitReached 6)], 0) := by
  obtain ⟨_, _, _, _, _, _, _, hfault, _⟩ :=
    overflow_demo_fills_stack_or_limit (markedOverflow 7) rfl (by decide) (by decide) (by decide)
  obtain ⟨_, _, _, _, _, _, _, _, hlimit⟩ :=
    overflow_demo_fills_stack_or_limit (markedOverflow 6) rfl (by decide) (by decide) (by decide)
  obtain ⟨sp, ep, hp, hsp, hep, hhp, _, _, hseventh⟩ := hfault (by decide)
  obtain ⟨_, _, hsixth⟩ := hlimit (by decide)
  obtain rfl : sp = 2 := Word.eq_of_toInt hsp
  obtain rfl : ep = 3 := Word.eq_of_toInt hep
  obtain rfl : hp = 4 := Word.eq_of_toInt hhp
  exact ⟨by decide, by decide, hseventh, hsixth⟩

end CommandLine

end CellMachine
