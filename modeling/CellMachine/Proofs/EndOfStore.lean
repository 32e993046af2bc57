import CellMachine.Proofs.ForwardJumps
import CellMachine.Proofs.ReadOnlyStore
import CellMachine.Demo

/-!
Padding ends where the store ends. A step in the padding moves the counter and nothing else,
and there is no way back from there, so a machine that has run past its program has as many
steps left as there are slots behind the counter. Then the counter leaves the store, and
every further step faults.
-/

namespace CellMachine.Machine

variable {ι : Type}

/-- From this slot on the store holds padding only, with breakpoints or without. -/
def PaddedFrom (m : Machine ι) (slot : Nat) : Prop :=
  ∀ (other : Nat) (i : Instruction ι), slot ≤ other → m.store[other]? = some i →
    i.opcode = .padding

theorem PaddedFrom.mono {m : Machine ι} {slot later : Nat} (h : m.PaddedFrom slot)
    (hlater : slot ≤ later) : m.PaddedFrom later :=
  fun other i hbehind => h other i (Nat.le_trans hlater hbehind)

/-- The slots that the counter can stand at. Words cannot number more than these. -/
def reach (m : Machine ι) : Nat := min m.store.size 0x8000000000000000

variable {m : Machine ι} {slot : Nat}

/-- A held program has padding behind it. -/
theorem Holds.paddedFrom {c : Config} {p : Program ι} (h : m.Holds c p) :
    m.PaddedFrom p.length := by
  intro other i hbehind hi
  have hslot : m.store[other]?.map Instruction.unmarked =
      (p.padded c.storeSize)[other]?.map Instruction.unmarked := by
    rw [← Array.getElem?_map, h.store, Array.getElem?_map]
  have hfree : p.slot other = .padding := by
    rw [Program.slot, List.getElem?_eq_none hbehind]
    rfl
  rw [hi, Program.getElem?_padded h.fits, hfree] at hslot
  split at hslot
  · have hsame : i.unmarked = Instruction.padding.unmarked := Option.some.inj hslot
    exact congrArg Instruction.opcode hsame
  · cases hslot

/-- The counter finds nothing behind the slots that it can stand at. Where words end before
the slots do, it has started again at the lowest word. -/
theorem outside_reach (m : Machine ι) : (Word.wrap m.reach).Outside m.store.size := by
  unfold Word.Outside reach
  by_cases hsize : m.store.size < 0x8000000000000000
  · rw [Nat.min_eq_left (Nat.le_of_lt hsize), Word.toInt_wrap_nat hsize]
    omega
  · rw [Nat.min_eq_right (Nat.le_of_not_lt hsize)]
    exact Or.inl (by decide)

section Steps

variable [Host ι]

/-- In the padding a step moves the counter and nothing else. -/
theorem PaddedFrom.run_step (h : m.PaddedFrom slot) (hrunning : m.running = true) {k : Nat}
    (hk : slot ≤ k) (hsize : k < m.store.size) {pc : Word} (hpc : pc.toInt = k) :
    Machine.step.run (m.jump pc) = .ok () (m.jump (pc + 1)) := by
  obtain ⟨i, hi⟩ : ∃ i, m.store[k]? = some i := ⟨_, Array.getElem?_eq_getElem hsize⟩
  have hcurrent : (m.jump pc).current? = some i := current?_eq_some_iff.mpr ⟨k, hpc, hi⟩
  have hpadding : i.opcode = .padding := h k i hk hi
  have hstandard : i.IsStandard := by
    rw [Instruction.IsStandard, Instruction.host?, hpadding]
  have hop : i.operation? = none := by
    rw [Instruction.operation?, hpadding]
  exact run_step_of_padding (m := m.jump pc) hrunning hcurrent hstandard hop

/-- The same with the slots counted. -/
theorem PaddedFrom.run_step_wrap (h : m.PaddedFrom slot) (hrunning : m.running = true) {k : Nat}
    (hk : slot ≤ k) (hreach : k < m.reach) :
    Machine.step.run (m.jump (.wrap k)) = .ok () (m.jump (.wrap (k + 1 : Nat))) := by
  unfold reach at hreach
  rw [← Word.wrap_succ (by omega)]
  exact h.run_step hrunning hk (by omega) (Word.toInt_wrap_nat (by omega))

/-- Outside the store a step faults and leaves everything as it is. -/
theorem run_step_outside (hrunning : m.running = true) {pc : Word}
    (hpc : pc.Outside m.store.size) :
    Machine.step.run (m.jump pc) =
      .error (.programCounterOutOfRange pc m.store.size) (m.jump pc) :=
  run_step_of_none hrunning (current?_eq_none_iff.mpr hpc)

/-- The counter moves on up to the end, and stays there. -/
theorem PaddedFrom.afterSteps_eq (h : m.PaddedFrom slot) (hrunning : m.running = true)
    (hpc : m.registers.pc.toInt = slot) (hslot : slot ≤ m.reach) (n : Nat) :
    m.afterSteps n = m.jump (.wrap (min (slot + n) m.reach : Nat)) := by
  induction n with
  | zero =>
      have hword : Word.wrap slot = m.registers.pc := by
        rw [← hpc]
        exact Word.wrap_toInt _
      rw [Nat.add_zero, Nat.min_eq_left hslot, hword]
      rfl
  | succ n ih =>
      rw [afterSteps_step, ih, ← Nat.add_assoc]
      rcases Nat.lt_or_ge (slot + n) m.reach with hinside | hend
      · rw [Nat.min_eq_left (Nat.le_of_lt hinside), Nat.min_eq_left hinside]
        exact Attempt.state_of_ok (h.run_step_wrap hrunning (by omega) hinside)
      · rw [Nat.min_eq_right hend, Nat.min_eq_right (by omega)]
        exact Attempt.state_of_error (run_step_outside hrunning m.outside_reach)

/-- What a step answers after `n` others. -/
theorem PaddedFrom.result_step (h : m.PaddedFrom slot) (hrunning : m.running = true)
    (hpc : m.registers.pc.toInt = slot) (hslot : slot ≤ m.reach) (n : Nat) :
    Machine.step.result (m.afterSteps n) =
      if slot + n < m.reach then .ok ()
      else .error (.programCounterOutOfRange (.wrap m.reach) m.store.size) := by
  rw [h.afterSteps_eq hrunning hpc hslot]
  split
  next hinside =>
    rw [Nat.min_eq_left (Nat.le_of_lt hinside)]
    exact Attempt.result_of_ok (h.run_step_wrap hrunning (by omega) hinside)
  next hend =>
    rw [Nat.min_eq_right (Nat.le_of_not_lt hend)]
    exact Attempt.result_of_error (run_step_outside hrunning m.outside_reach)

/-- How many steps in a row succeed. -/
theorem PaddedFrom.all_ok_iff (h : m.PaddedFrom slot) (hrunning : m.running = true)
    (hpc : m.registers.pc.toInt = slot) (hslot : slot ≤ m.reach) (n : Nat) :
    (∀ k < n, Machine.step.result (m.afterSteps k) = .ok ()) ↔ slot + n ≤ m.reach := by
  constructor
  · intro hall
    by_contra hover
    have hfault := h.result_step hrunning hpc hslot (m.reach - slot)
    rw [hall _ (by omega), if_neg (by omega)] at hfault
    cases hfault
  · intro hroom k hk
    rw [h.result_step hrunning hpc hslot, if_pos (by omega)]

end Steps

/-- A machine that has run past its program does not spin on the padding for ever. After any
history, let it be running with its counter on a slot behind the instructions of the last
program that it has accepted. Then `n` steps all succeed exactly if there are as many slots
from the counter to the end of the store, or to the last word where the store is larger than
that. Whether they succeed or not, they move the counter up to this end and change nothing
else: memory, text, the other registers and the state of running stay as they are. From there
on every step faults, because the counter has left the store. -/
theorem padding_lasts_to_end_of_store [ClientHost ι] {c : Config} {m : Machine ι}
    (hm : create c = .ok m) (ops : List (Operation ι))
    (hrunning : (m.after ops).running = true) {slot : Nat}
    (hpc : (m.after ops).registers.pc.toInt = slot)
    (hpadding : (m.lastAccepted ops).length ≤ slot) (hslot : slot < c.storeSize) (n : Nat) :
    let last := m.after ops
    let stop := min c.storeSize 0x8000000000000000
    ((∀ k < n, Machine.step.result (last.afterSteps k) = .ok ()) ↔ slot + n ≤ stop) ∧
      last.afterSteps n = last.jump (.wrap (min (slot + n) stop : Nat)) ∧
      (stop ≤ slot + n →
        Machine.step.run (last.afterSteps n) =
          .error (.programCounterOutOfRange (.wrap stop) c.storeSize) (last.afterSteps n)) := by
  intro last stop
  have hholds : last.Holds c (m.lastAccepted ops) := holds_lastAccepted hm ops
  have hpadded : last.PaddedFrom slot := hholds.paddedFrom.mono hpadding
  have hsize := hholds.store_size
  have hreach : last.reach = stop := by rw [reach, hsize]
  have hinside : slot ≤ last.reach := by
    have hword := (m.after ops).registers.pc.fits
    rw [hpc] at hword
    rw [hreach]
    exact Nat.le_min.mpr ⟨Nat.le_of_lt hslot, Int.ofNat_le.mp (Int.le_of_lt hword.2)⟩
  have hmoved := hpadded.afterSteps_eq hrunning hpc hinside n
  refine ⟨?_, ?_, ?_⟩
  · rw [← hreach]
    exact hpadded.all_ok_iff hrunning hpc hinside n
  · rw [hmoved, hreach]
  · intro hend
    rw [hmoved, hreach, Nat.min_eq_right hend, ← hreach, ← hsize]
    exact run_step_outside hrunning last.outside_reach

/-- Two instructions without a halt, which are executed, and a breakpoint in the padding. -/
def pastSpin : List (Operation Empty) :=
  [.call (.load Demo.spin.program), .step, .step, .call (.toggleBreakpoint 3)]

/-- In a store of four slots there are two steps left, and the third one faults. -/
theorem third_step_in_padding_faults :
    ∃ m : Machine Empty, create ⟨4, 2, 1⟩ = .ok m ∧ (m.after pastSpin).running = true ∧
      (m.after pastSpin).registers.pc.toInt = 2 ∧ (m.lastAccepted pastSpin).length = 2 ∧
      (∀ k < 2, Machine.step.result ((m.after pastSpin).afterSteps k) = .ok ()) ∧
      ¬ (∀ k < 3, Machine.step.result ((m.after pastSpin).afterSteps k) = .ok ()) ∧
      (m.after pastSpin).afterSteps 2 = (m.after pastSpin).jump 4 ∧
      Machine.step.run ((m.after pastSpin).afterSteps 2) =
        .error (.programCounterOutOfRange 4 4) ((m.after pastSpin).afterSteps 2) := by
  obtain ⟨m, hm, hrunning, hpc, hlength⟩ : ∃ m : Machine Empty, create ⟨4, 2, 1⟩ = .ok m ∧
      (m.after pastSpin).running = true ∧ (m.after pastSpin).registers.pc.toInt = 2 ∧
      (m.lastAccepted pastSpin).length = 2 := ⟨_, rfl, rfl, rfl, rfl⟩
  have hcounter : (m.after pastSpin).registers.pc.toInt = (2 : Nat) := hpc
  have hends (n : Nat) := padding_lasts_to_end_of_store hm pastSpin hrunning hcounter
    (by rw [hlength]) (by decide) n
  obtain ⟨htwo, hmoved, hfault⟩ := hends 2
  obtain ⟨hthree, _, _⟩ := hends 3
  exact ⟨m, hm, hrunning, hpc, hlength, htwo.mpr (by decide),
    fun hall => absurd (hthree.mp hall) (by decide), hmoved, hfault (by decide)⟩

end CellMachine.Machine
