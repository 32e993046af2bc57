import CellMachine.Proofs.Budgets
import CellMachine.Proofs.StepFaults

/-!
Programs that jump forwards only. The fetch moves the counter on and a jump takes it further,
so it rises with every step. No instruction is fetched outside the store, hence each slot is
executed once at most, and a run without a limit has come to an end when the slots are used
up.
-/

namespace CellMachine

variable {ι : Type}

/-- Control goes to the next slot, or to where a jump sends it. -/
theorem Code.pc_follow (c : Code ι) (i : Instruction ι) (next : Word) :
    (c.follow i next).pc = next ∨
      i.operation? = some .ujp ∧ i.address c.slotOf = .ok (c.follow i next).pc := by
  unfold follow
  split
  · exact Or.inl rfl
  · next hjump =>
    cases haddress : i.address c.slotOf with
    | ok address => exact Or.inr ⟨hjump, rfl⟩
    | error f => exact Or.inl rfl
  · exact Or.inl rfl

theorem Code.running_follow (c : Code ι) {i : Instruction ι} (hi : i.operation? ≠ some .halt)
    (next : Word) : (c.follow i next).running = true := by
  unfold follow
  split
  · next hhalt => exact absurd hhalt hi
  · cases i.address c.slotOf <;> rfl
  · rfl

namespace Machine

/-- Every jump whose argument stands for an address goes to one behind its own slot. -/
def JumpsForward (m : Machine ι) : Prop :=
  ∀ (slot : Nat) (i : Instruction ι), m.store[slot]? = some i → i.operation? = some .ujp →
    ∀ address, (target i).result m = .ok address → (slot : Int) < address.toInt

variable {m n : Machine ι}

/-- The counter is the number of the slot that is fetched. -/
theorem current?_eq_some_iff {i : Instruction ι} :
    m.current? = some i ↔
      ∃ slot : Nat, m.registers.pc.toInt = slot ∧ m.store[slot]? = some i := by
  rw [current?, instructionAt?, Option.map_eq_some_iff]
  constructor
  · rintro ⟨slot, hslot, rfl⟩
    exact ⟨slot, Word.index?_eq_some_iff.mp hslot, Array.getElem?_eq_getElem slot.isLt⟩
  · rintro ⟨slot, hpc, hi⟩
    obtain ⟨hslot, rfl⟩ := Array.getElem?_eq_some_iff.mp hi
    exact ⟨⟨slot, hslot⟩, Word.index?_eq_some_iff.mpr hpc, rfl⟩

theorem result_target_of_address {i : Instruction ι} {address : Word}
    (h : i.address m.labelSlot? = .ok address) : (target i).result m = .ok address :=
  Attempt.result_of_ok (run_target_of_ok h)

theorem JumpsForward.of_sameProgram (h : m.JumpsForward) (hsame : m.SameProgram n) :
    n.JumpsForward := by
  intro slot i hi hjump address haddress
  rw [hsame.store] at hi
  have hslots : n.labelSlot? = m.labelSlot? := by
    funext l
    rw [labelSlot?, hsame.labels, labelSlot?]
  have htarget : (target i).result m = (target i).result n := by
    rw [Attempt.result, Attempt.result, run_target_address, run_target_address, hslots]
    cases i.address m.labelSlot? <;> rfl
  exact h slot i hi hjump address (htarget.trans haddress)

variable [Host ι]

theorem sameProgram_afterSteps (hm : m.IsStandard) (k : Nat) :
    m.SameProgram (m.afterSteps k) := by
  induction k generalizing m with
  | zero => exact .of_eq rfl
  | succ k ih =>
      have hsame := sameProgram_step hm
      rw [afterSteps_succ]
      exact hsame.trans (ih (hsame.isStandard hm))

theorem afterSteps_step (m : Machine ι) (k : Nat) :
    m.afterSteps (k + 1) = Machine.step.state (m.afterSteps k) :=
  afterSteps_add m k 1

/-- The instruction that is fetched decides where control goes. -/
theorem control_step_of_current (hm : m.IsStandard) (hrunning : m.running = true)
    {i : Instruction ι} (hi : m.current? = some i) :
    (Machine.step.state m).control = m.code.follow i (m.registers.pc + 1) := by
  have hadvance : m.advance.running = true := hrunning
  rw [Attempt.state_eq, run_step_of_current hrunning hi, ← Attempt.state_eq]
  exact Instruction.control_perform (hm i (current?_mem hi)) hadvance

/-- One step goes upwards, if it arrives at a slot at all. -/
theorem JumpsForward.lt_of_step (h : m.JumpsForward) (hm : m.IsStandard)
    (hrunning : m.running = true) {slot next : Nat} {i : Instruction ι}
    (hslot : m.registers.pc.toInt = slot) (hi : m.store[slot]? = some i)
    (hnext : (Machine.step.state m).registers.pc.toInt = next) : slot < next := by
  have hcontrol := control_step_of_current hm hrunning (current?_eq_some_iff.mpr ⟨slot, hslot, hi⟩)
  have hpc : (Machine.step.state m).registers.pc = (m.code.follow i (m.registers.pc + 1)).pc :=
    congrArg Control.pc hcontrol
  rw [hpc] at hnext
  obtain hplain | ⟨hjump, haddress⟩ := m.code.pc_follow i (m.registers.pc + 1)
  · rw [hplain] at hnext
    have hsucc := m.registers.pc.toInt_succ_cases
    omega
  · have hforward := h slot i hi hjump _ (result_target_of_address haddress)
    omega

/-- A step of a running machine that succeeds has fetched an instruction. -/
theorem exists_current_of_ok (hrunning : m.running = true)
    (hok : Machine.step.result m = .ok ()) : ∃ i, m.current? = some i := by
  cases hcurrent : m.current? with
  | some i => exact ⟨i, rfl⟩
  | none =>
      rw [Attempt.result_of_error (run_step_of_none hrunning hcurrent)] at hok
      cases hok

/-- Where a machine arrives after `k` successful steps, there are `k` slots below it. -/
theorem JumpsForward.le_slot (h : m.JumpsForward) (hm : m.IsStandard) {k : Nat}
    (hsteps : ∀ j < k, (m.afterSteps j).running = true ∧
      Machine.step.result (m.afterSteps j) = .ok ())
    {slot : Nat} (hslot : (m.afterSteps k).registers.pc.toInt = slot) : k ≤ slot := by
  induction k generalizing slot with
  | zero => exact Nat.zero_le slot
  | succ k ih =>
      obtain ⟨hrunning, hok⟩ := hsteps k (Nat.lt_succ_self k)
      obtain ⟨i, hcurrent⟩ := exists_current_of_ok hrunning hok
      obtain ⟨before, hbefore, hi⟩ := current?_eq_some_iff.mp hcurrent
      have hk : k ≤ before := ih (fun j hj => hsteps j (by omega)) hbefore
      have hsame := sameProgram_afterSteps hm k
      rw [afterSteps_step] at hslot
      have hrises := (h.of_sameProgram hsame).lt_of_step (hsame.isStandard hm) hrunning hbefore
        hi hslot
      omega

/-- The next instruction halts the machine, or it faults. -/
def BreaksOff (m : Machine ι) : Prop :=
  ∃ i, m.current? = some i ∧
    (i.operation? = some .halt ∨ ∃ f, Machine.step.result m = .error f)

/-- A machine goes on running until an instruction breaks off. -/
theorem running_of_not_breaksOff (hm : m.IsStandard) (hrunning : m.running = true) {k : Nat}
    (hsteps : ∀ j < k, (m.afterSteps j).running = true ∧
      Machine.step.result (m.afterSteps j) = .ok ())
    (hon : ∀ j < k, ¬ (m.afterSteps j).BreaksOff) : (m.afterSteps k).running = true := by
  cases k with
  | zero => exact hrunning
  | succ k =>
      obtain ⟨hbefore, hok⟩ := hsteps k (Nat.lt_succ_self k)
      obtain ⟨i, hcurrent⟩ := exists_current_of_ok hbefore hok
      have hnohalt : i.operation? ≠ some .halt := fun hhalt =>
        hon k (Nat.lt_succ_self k) ⟨i, hcurrent, Or.inl hhalt⟩
      have hcontrol := control_step_of_current (isStandard_afterSteps hm k) hbefore hcurrent
      rw [afterSteps_step]
      exact (congrArg Control.running hcontrol).trans (Code.running_follow _ hnohalt _)

end Machine

namespace Runner

variable [Host ι] {r : Runner} {m : Machine ι}

/-- All slots are below the one that a further step would need. -/
theorem exists_not_goesOn (hm : m.IsStandard) (hforward : m.JumpsForward) (r : Runner) :
    ∃ k ≤ m.store.size, ¬ (r.afterSteps k).GoesOn (m.afterSteps k) := by
  by_contra hnone
  have hon (j : Nat) (hj : j ≤ m.store.size) : (r.afterSteps j).GoesOn (m.afterSteps j) := by
    by_contra hstops
    exact hnone ⟨j, hj, hstops⟩
  have hlast := hon m.store.size (Nat.le_refl _)
  obtain ⟨i, hcurrent⟩ := Machine.exists_current_of_ok hlast.running hlast.succeeds
  obtain ⟨slot, hslot, hi⟩ := Machine.current?_eq_some_iff.mp hcurrent
  rw [(Machine.sameProgram_afterSteps hm _).store] at hi
  obtain ⟨hinside, _⟩ := Array.getElem?_eq_some_iff.mp hi
  have hbelow := hforward.le_slot hm
    (fun j hj => ⟨(hon j (by omega)).running, (hon j (by omega)).succeeds⟩) hslot
  omega

/-- Without a limit and without breakpoints there are two reasons left. -/
theorem StopsFor.halted_or_fault {reason : StopReason} (h : r.StopsFor m reason)
    (hlimit : r.limits.maxSteps = none) (hbreaks : r.limits.stopAtBreakpoints = false) :
    reason = .halted ∧ m.running = false ∨
      ∃ f, reason = .fault m.registers.pc f ∧ Machine.step.result m = .error f := by
  cases reason with
  | halted => exact Or.inl ⟨rfl, h⟩
  | stepLimit =>
      obtain ⟨_, limit, hsome, _⟩ := h
      rw [hlimit] at hsome
      cases hsome
  | breakpoint pc =>
      obtain ⟨_, _, ⟨hstops, _⟩, _⟩ := h
      rw [hbreaks] at hstops
      cases hstops
  | fault pc f =>
      obtain ⟨_, _, _, rfl, hfault⟩ := h
      exact Or.inr ⟨f, rfl, hfault⟩

/-- A run without a limit that does not stop at breakpoints comes to an end if the machine
jumps forwards only, whatever its registers and its memory are. It takes no more steps than
the store has slots. It ends because the machine has halted or because the next step faults;
and if no instruction on the way halts or faults, then the counter has left the store and
that is the fault. -/
theorem forward_jumps_end_run (hm : m.IsStandard) (hforward : m.JumpsForward)
    (hlimit : r.limits.maxSteps = none) (hbreaks : r.limits.stopAtBreakpoints = false) :
    ∃ o : Outcome ι, (∀ fuel, o.steps < fuel → r.run fuel m = some o) ∧
      o.steps ≤ m.store.size ∧
      let last := m.afterSteps o.steps
      (o.reason = .halted ∧ last.running = false ∨
        ∃ f, o.reason = .fault last.registers.pc f ∧ Machine.step.result last = .error f) ∧
      (m.running = true → (∀ j ≤ o.steps, ¬ (m.afterSteps j).BreaksOff) →
        last.registers.pc.Outside m.store.size ∧
          o.reason = .fault last.registers.pc
            (.programCounterOutOfRange last.registers.pc m.store.size)) := by
  obtain ⟨k, hk, hstops⟩ := exists_not_goesOn hm hforward r
  obtain ⟨n, hn, hon, reason, hstop⟩ := exists_stopsFor_of_not_goesOn hstops
  have hreason := hstop.halted_or_fault hlimit hbreaks
  refine ⟨(r.afterSteps n).outcome n (m.afterSteps n) reason, ?_, Nat.le_trans hn hk, hreason, ?_⟩
  · intro fuel hfuel
    exact run_eq_some_iff.mpr ⟨hfuel, hon, hstop, rfl⟩
  · intro hrunning hway
    have hgoesOn := Machine.running_of_not_breaksOff hm hrunning
      (fun j hj => ⟨(hon j hj).running, (hon j hj).succeeds⟩) (fun j hj => hway j (Nat.le_of_lt hj))
    obtain ⟨_, hhalted⟩ | ⟨f, hfault, hresult⟩ := hreason
    · cases hgoesOn.symm.trans hhalted
    · have hstrayed : (m.afterSteps n).current? = none := by
        cases hcurrent : (m.afterSteps n).current? with
        | none => rfl
        | some i => exact absurd ⟨i, hcurrent, Or.inr ⟨f, hresult⟩⟩ (hway n (Nat.le_refl n))
      rw [Attempt.result_of_error (Machine.run_step_of_none hgoesOn hstrayed)] at hresult
      have hsize : (m.afterSteps n).store.size = m.store.size :=
        congrArg Array.size (Machine.sameProgram_afterSteps hm n).store
      have houtside := Machine.current?_eq_none_iff.mp hstrayed
      rw [hsize] at hresult houtside
      cases hresult
      exact ⟨houtside, hfault⟩

/-- A jump by label over a print that would fault, and no halt. -/
def skipPrint : Program Empty where
  instructions :=
    [Standard.instruction .ujp (some (.label "end")),
      Standard.instruction .print,
      { Standard.instruction .ldc (some (.int 7)) with label := Remark.ofString? "end" }]

def unlimited : Runner where
  limits := { maxSteps := none, stopAtBreakpoints := false }

/-- The jump and the load are executed, and then the three slots are used up. -/
theorem counter_leaves_store_after_jump :
    ∃ m : Machine Empty, (Machine.blank ⟨3, 2, 1⟩).load skipPrint = .ok m ∧
      m.IsStandard ∧ m.JumpsForward ∧ m.running = true ∧
      ∃ o : Outcome Empty, unlimited.run 3 m = some o ∧ o.steps = 2 ∧
        (∀ j ≤ 2, ¬ (m.afterSteps j).BreaksOff) ∧
        o.reason = .fault 3 (.programCounterOutOfRange 3 3) := by
  obtain ⟨m, hload, hrunning, hstore, hslot, hrun, hfirst, hjumped, hsecond, hloaded, hthird,
      hpc⟩ : ∃ m : Machine Empty,
        (Machine.blank ⟨3, 2, 1⟩).load skipPrint = .ok m ∧ m.running = true ∧
        m.store = skipPrint.instructions.toArray ∧ m.labelSlot? "end" = some 2 ∧
        (unlimited.run 3 m).map Outcome.steps = some 2 ∧
        (m.afterSteps 0).current?.map Instruction.operation? = some (some .ujp) ∧
        Machine.step.result (m.afterSteps 0) = .ok () ∧
        (m.afterSteps 1).current?.map Instruction.operation? = some (some .ldc) ∧
        Machine.step.result (m.afterSteps 1) = .ok () ∧
        (m.afterSteps 2).current? = none ∧ (m.afterSteps 2).registers.pc = 3 :=
    ⟨_, rfl, rfl, rfl, rfl, rfl, rfl, rfl, rfl, rfl, rfl, rfl⟩
  have hstandard := m.isStandard_empty
  have hend : (Machine.target (Standard.instruction (ι := Empty) .ujp
      (some (.label "end")))).result m = .ok (.wrap 2) := by
    apply Machine.result_target_of_address
    simp only [Instruction.address, Standard.instruction, hslot]
    rfl
  have hforward : m.JumpsForward := by
    intro slot i hi hjump address haddress
    rw [hstore] at hi
    rcases slot with _ | _ | _ | slot
    · cases hi
      cases hend.symm.trans haddress
      decide
    · cases hi
      cases hjump
    · cases hi
      cases hjump
    · cases hi
  have hquiet {k : Machine Empty} {op : Standard} (hop : op ≠ .halt)
      (hcurrent : k.current?.map Instruction.operation? = some (some op))
      (hok : Machine.step.result k = .ok ()) : ¬ k.BreaksOff := by
    rintro ⟨i, hi, hhalt | ⟨f, hfault⟩⟩
    · rw [hi] at hcurrent
      exact hop (Option.some.inj ((Option.some.inj hcurrent).symm.trans hhalt))
    · cases hok.symm.trans hfault
  have hway : ∀ j ≤ 2, ¬ (m.afterSteps j).BreaksOff := by
    intro j hj
    rcases j with _ | _ | _ | j
    · exact hquiet (by decide) hfirst hjumped
    · exact hquiet (by decide) hsecond hloaded
    · rintro ⟨i, hi, _⟩
      cases hi.symm.trans hthird
    · omega
  obtain ⟨o, hends, _, _, hstrays⟩ :=
    forward_jumps_end_run (r := unlimited) hstandard hforward rfl rfl
  obtain ⟨same, hsame, hsteps⟩ := Option.map_eq_some_iff.mp hrun
  have hboth := run_of_steps_lt hsame (show same.steps < o.steps + same.steps + 1 by omega)
  rw [hends _ (by omega)] at hboth
  cases hboth
  rw [hsteps] at hstrays
  obtain ⟨_, hreason⟩ := hstrays hrunning hway
  rw [hpc, hstore] at hreason
  exact ⟨m, hload, hstandard, hforward, hrunning, o, hsame, hsteps, hway, hreason⟩

end Runner

end CellMachine
