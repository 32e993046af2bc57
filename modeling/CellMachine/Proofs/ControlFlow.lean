import CellMachine.Proofs.HeldProgram
import CellMachine.StandardSet
import Mathlib.Logic.Function.Iterate

/-!
The flow of control of standard instructions. The counter moves before an
instruction acts, a halt cannot fail, and whether a jump fails is decided by its
argument and the labels. So where a machine goes next follows from its code alone:
values in memory, the other registers and faults make no difference.
-/

namespace CellMachine

variable {ι : Type}

/-- Where a machine stands in its program, and whether it goes on. -/
@[ext]
structure Control where
  pc : Word
  running : Bool
deriving DecidableEq, Repr

/-- What decides on the flow of control: the instruction in every slot, and the
slots that labels stand for. -/
structure Code (ι : Type) where
  slots : Array (Instruction ι)
  slotOf : String → Option Nat

namespace Code

def fetch? (c : Code ι) (pc : Word) : Option (Instruction ι) :=
  (Word.index? pc c.slots.size).map fun i => c.slots[i]

/-- Where an instruction sends control, if `next` is the slot after it. -/
def follow (c : Code ι) (i : Instruction ι) (next : Word) : Control :=
  match i.operation? with
  | some .halt => ⟨next, false⟩
  | some .ujp =>
      match i.address c.slotOf with
      | .ok address => ⟨address, true⟩
      | .error _ => ⟨next, true⟩
  | _ => ⟨next, true⟩

/-- Where control goes in one step. It stays where the machine has halted, and
where there is no instruction to execute. -/
def next (c : Code ι) (s : Control) : Control :=
  if s.running then
    match c.fetch? s.pc with
    | some i => c.follow i (s.pc + 1)
    | none => s
  else
    s

variable {c : Code ι} {s : Control}

theorem next_of_fetched {i : Instruction ι} (hrunning : s.running = true)
    (hi : c.fetch? s.pc = some i) : c.next s = c.follow i (s.pc + 1) := by
  rw [next, if_pos hrunning, hi]

theorem next_of_strayed (h : c.fetch? s.pc = none) : c.next s = s := by
  unfold next
  rw [h]
  split <;> rfl

theorem next_of_halted (h : s.running = false) : c.next s = s := by
  rw [next, h]
  rfl

end Code

namespace Machine

def control (m : Machine ι) : Control := ⟨m.registers.pc, m.running⟩

/-- The code of a machine, without breakpoints. -/
def code (m : Machine ι) : Code ι := ⟨m.store.map Instruction.unmarked, m.labelSlot?⟩

variable {m n : Machine ι}

theorem SameProgram.code_eq (h : m.SameProgram n) : n.code = m.code := by
  have hslots : n.labelSlot? = m.labelSlot? := by
    funext l
    rw [labelSlot?, h.labels, labelSlot?]
  rw [code, h.store, hslots, code]

/-- Indexed machines have one code if they have the same instructions. -/
theorem code_eq_of_store (hm : m.IsIndexed) (hn : n.IsIndexed)
    (hstore : m.store.map Instruction.unmarked = n.store.map Instruction.unmarked) :
    m.code = n.code := by
  have hsearch (k : Machine ι) (l : String) :
      k.searchLabel? l = (k.store.map Instruction.unmarked).findIdx? (·.hasLabel l) := by
    rw [Array.findIdx?_map]
    rfl
  have hslots : m.labelSlot? = n.labelSlot? := by
    funext l
    rw [hm l, hn l, hsearch m, hsearch n, hstore]
  rw [code, code, hstore, hslots]

theorem IsStandard.of_store (hm : m.IsStandard)
    (hstore : m.store.map Instruction.unmarked = n.store.map Instruction.unmarked) :
    n.IsStandard := by
  intro i member
  have hunmarked : i.unmarked ∈ m.store.map Instruction.unmarked := by
    rw [hstore]
    exact Array.mem_map_of_mem member
  obtain ⟨j, hj, hsame⟩ := Array.mem_map.mp hunmarked
  have hhost : j.unmarked.host? = i.unmarked.host? := by rw [hsame]
  exact hhost.symm.trans (hm j hj)

theorem fetch?_code (m : Machine ι) :
    m.code.fetch? m.registers.pc = m.current?.map Instruction.unmarked := by
  unfold Code.fetch? code current? instructionAt?
  dsimp only
  rw [Option.map_map]
  unfold Word.index?
  simp only [Array.size_map]
  split
  next => simp
  next => simp

/-- No elementary call but a halt has a say in the flow of control. -/
theorem control_call {c : Call ι} (hc : c.IsElementary) (hhalt : c ≠ .halt)
    (m : Machine ι) : (c.apply m).control = m.control := by
  cases c with
  | load p | restart | peek | readCell address | drain | toggleBreakpoint slot
  | setRegisters r => exact hc.elim
  | halt => exact absurd rfl hhalt
  | print v => rfl
  | push v =>
      change ((push v).state m).control = _
      obtain h | ⟨_, _, _, h⟩ := state_push_cases v m
      · rw [h]
      · rw [h]
        rfl
  | pop =>
      change (pop.state m).control = _
      obtain h | ⟨_, h⟩ := state_pop_cases m
      · rw [h]
      · rw [h]
        rfl
  | allocate units =>
      change ((allocate units).state m).control = _
      obtain h | ⟨_, _, _, h⟩ := state_allocate_cases units m
      · rw [h]
      · rw [h]
        rfl
  | enter frame =>
      change ((enter frame).state m).control = _
      obtain h | h | ⟨_, _, _, _, h⟩ := state_enter_cases frame m
      · rw [h]
      · rw [h]
        rfl
      · rw [h]
        rfl
  | writeCell address v =>
      change ((writeCell address v).state m).control = _
      obtain h | ⟨_, _, h⟩ := state_writeCell_cases address v m
      · rw [h]
      · rw [h]
        rfl

end Machine

open Machine

/-- All operations but jumps and halts leave control where it is. -/
theorem Standard.control_perform {op : Standard} (hjump : op ≠ .ujp) (hhalt : op ≠ .halt)
    (i : Instruction ι) (m : Machine ι) :
    ((op.perform i).state m).control = m.control := by
  have hkept : Attempt.Preserves (fun n => n.control = m.control) (op.perform i) := by
    refine Standard.perform_preserves_of_makes ?_ (fun h => absurd h hjump) i
    intro c hc n hn
    refine (control_call hc.isElementary ?_ n).trans hn
    rintro rfl
    cases op with
    | halt => exact hhalt rfl
    | _ => exact hc.elim
  exact hkept m rfl

/-- A standard instruction sends control where the code says, faults included. -/
theorem Instruction.control_perform [Host ι] {i : Instruction ι} (hi : i.IsStandard)
    {m : Machine ι} (hrunning : m.running = true) :
    (i.perform.state m).control = m.code.follow i m.registers.pc := by
  have hcontrol : m.control = ⟨m.registers.pc, true⟩ := Control.ext rfl hrunning
  unfold Code.follow
  cases hop : i.operation? with
  | none =>
      rw [hi.perform_of_none hop]
      exact hcontrol
  | some op =>
      rw [perform_of_operation hop]
      cases op with
      | halt => rfl
      | ujp =>
          change ((target i >>= fun address => _).state m).control = _
          rw [Attempt.state_bind, run_target_address]
          cases haddress : i.address m.labelSlot? with
          | ok address =>
              have hcode : i.address m.code.slotOf = .ok address := haddress
              dsimp only
              rw [hcode]
              change Control.mk address m.running = _
              rw [hrunning]
          | error f =>
              have hcode : i.address m.code.slotOf = .error f := haddress
              dsimp only
              rw [hcode]
              exact hcontrol
      | _ => exact (Standard.control_perform (by decide) (by decide) i m).trans hcontrol

namespace Machine

variable [Host ι] {m n : Machine ι}

/-- A step of a standard machine moves control as its code says, whether the step
succeeds or faults. -/
theorem control_step (hm : m.IsStandard) :
    (Machine.step.state m).control = m.code.next m.control := by
  have hfetch : m.code.fetch? m.control.pc = _ := m.fetch?_code
  rw [Attempt.state_eq, run_step]
  cases hrunning : m.running with
  | false =>
      rw [Code.next_of_halted hrunning]
      rfl
  | true =>
      rw [if_pos rfl]
      cases hcurrent : m.current? with
      | none =>
          rw [hcurrent] at hfetch
          rw [Code.next_of_strayed hfetch]
      | some i =>
          rw [hcurrent] at hfetch
          rw [Code.next_of_fetched hrunning hfetch]
          have hi := hm i (current?_mem hcurrent)
          have hrest : m.advance.running = true := hrunning
          exact Instruction.control_perform hi hrest

/-- The machine after a number of steps, any of which may have faulted. -/
def afterSteps (m : Machine ι) (k : Nat) : Machine ι := m.after (List.replicate k .step)

theorem afterSteps_succ (m : Machine ι) (k : Nat) :
    m.afterSteps (k + 1) = (Machine.step.state m).afterSteps k := rfl

/-- A run follows the code from step to step. -/
theorem control_afterSteps (hm : m.IsStandard) (k : Nat) :
    (m.afterSteps k).control = m.code.next^[k] m.control := by
  induction k generalizing m with
  | zero => rfl
  | succ k ih =>
      have hsame := sameProgram_step hm
      rw [afterSteps_succ, ih (hsame.isStandard hm), control_step hm, hsame.code_eq,
        Function.iterate_succ_apply]

/-- The flow of control does not depend on data. Two machines hold the same standard
instructions up to breakpoints, each has an index that agrees with its store, and
they stand at the same instruction. Then they go the same way and run equally long,
whatever their sizes, their memories, their other registers and their texts are, and
also past a step at which one of them faults and the other does not. -/
theorem control_flow_ignores_data (hm : m.IsStandard) (hmi : m.IsIndexed)
    (hni : n.IsIndexed)
    (hstore : m.store.map Instruction.unmarked = n.store.map Instruction.unmarked)
    (hpc : m.registers.pc = n.registers.pc) (hrunning : m.running = n.running) (k : Nat) :
    (m.afterSteps k).registers.pc = (n.afterSteps k).registers.pc ∧
      (m.afterSteps k).running = (n.afterSteps k).running := by
  have hstart : m.control = n.control := Control.ext hpc hrunning
  have hcode := code_eq_of_store hmi hni hstore
  have hsame : (m.afterSteps k).control = (n.afterSteps k).control := by
    rw [control_afterSteps hm, control_afterSteps (hm.of_store hstore), hcode, hstart]
  exact ⟨congrArg Control.pc hsame, congrArg Control.running hsame⟩

/-- A value to load, and a jump over a print to the halt. -/
def jumpToEnd : Program Empty :=
  { instructions :=
      [Standard.instruction .ldc (some (.int 7)),
        Standard.instruction .ujp (some (.label "end")),
        Standard.instruction .print,
        { Standard.instruction .halt with label := Remark.ofString? "end" }] }

/-- One machine has room on its stack and the other has none and a breakpoint, so
the first instruction succeeds on one and faults on the other. Both go on to the
jump and to the halt behind it. -/
theorem control_agrees_past_a_fault :
    ∃ m loaded n : Machine Empty,
      (blank ⟨4, 2, 1⟩).load jumpToEnd = .ok m ∧
      (blank ⟨4, 1, 0⟩).load jumpToEnd = .ok loaded ∧
      loaded.toggleBreakpoint 1 = .ok (true, n) ∧
      m.IsStandard ∧ m.IsIndexed ∧ n.IsIndexed ∧
      m.store.map Instruction.unmarked = n.store.map Instruction.unmarked ∧
      m.registers.pc = n.registers.pc ∧ m.running = n.running ∧
      Machine.step.result m = .ok () ∧
      Machine.step.result n = .error (.stackOverflow (-1) 0 1) ∧
      (m.afterSteps 3).registers.pc = (n.afterSteps 3).registers.pc ∧
      (m.afterSteps 3).running = (n.afterSteps 3).running := by
  obtain ⟨m, hload, hpc, hrunning, hok⟩ : ∃ m : Machine Empty,
      (blank ⟨4, 2, 1⟩).load jumpToEnd = .ok m ∧ m.registers.pc = 0 ∧ m.running = true ∧
        Machine.step.result m = .ok () := ⟨_, rfl, rfl, rfl, rfl⟩
  obtain ⟨loaded, n, hload', htoggle, hpc', hrunning', hfault⟩ :
      ∃ loaded n : Machine Empty, (blank ⟨4, 1, 0⟩).load jumpToEnd = .ok loaded ∧
        loaded.toggleBreakpoint 1 = .ok (true, n) ∧ n.registers.pc = 0 ∧
        n.running = true ∧ Machine.step.result n = .error (.stackOverflow (-1) 0 1) :=
    ⟨_, _, rfl, rfl, rfl, rfl, rfl⟩
  have hm := (create_holds (create_ok_iff.mpr ⟨by decide, rfl⟩)).load hload
  have hn := ((create_holds (create_ok_iff.mpr ⟨by decide, rfl⟩)).load hload').toggleBreakpoint
    htoggle
  have hstandard := m.isStandard_empty
  have hstore := hm.store.trans hn.store.symm
  have hstart := hpc.trans hpc'.symm
  have hboth := hrunning.trans hrunning'.symm
  have hsame := control_flow_ignores_data hstandard hm.isIndexed hn.isIndexed hstore
    hstart hboth 3
  exact ⟨m, loaded, n, hload, hload', htoggle, hstandard, hm.isIndexed, hn.isIndexed, hstore,
    hstart, hboth, hok, hfault, hsame⟩

end Machine

end CellMachine
