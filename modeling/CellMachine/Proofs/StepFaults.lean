import CellMachine.Proofs.OperationOutcomes
import CellMachine.StandardSet

/-!
The faults of a step, exactly. A machine whose zones are in order is given; then the
first check that applies decides which fault a step returns, and a step succeeds if
no check applies.
-/

namespace CellMachine.Machine

variable {ι : Type}

/-- The checks of a step in the order in which they are made: whether there is an
instruction, then those of the instruction. Labels are looked for in the store. -/
def faults (m : Machine ι) : List (Option Fault) :=
  m.strayed? ::
    match m.current? with
    | some i => i.faults m.searchLabel? m
    | none => []

variable {m : Machine ι}

theorem current?_eq_none_iff : m.current? = none ↔ m.registers.pc.Outside m.store.size := by
  rw [current?, instructionAt?, Option.map_eq_none_iff]
  exact Word.index?_eq_none_iff

theorem faults_of_none (h : m.current? = none) :
    m.faults = [some (.programCounterOutOfRange m.registers.pc m.store.size)] := by
  rw [faults, h, strayed?, Fault.when_pos (current?_eq_none_iff.mp h)]

theorem faults_of_some {i : Instruction ι} (h : m.current? = some i) :
    m.faults = none :: i.faults m.searchLabel? m := by
  rw [faults, h, strayed?, Fault.when_neg]
  rw [← current?_eq_none_iff, h]
  simp

variable [Host ι]

/-- A step in order ends as the operation that was fetched. -/
theorem InOrder.run_step_of_operation (h : m.InOrder) (hrunning : m.running = true)
    {i : Instruction ι} (hi : m.current? = some i) {op : Standard}
    (hop : i.operation? = some op) : Machine.step.run m = op.outcome i m.advance := by
  rw [run_step_of_current hrunning hi, Instruction.perform_of_operation hop,
    Standard.run_perform h.advance]

theorem run_step_of_padding (hrunning : m.running = true) {i : Instruction ι}
    (hi : m.current? = some i) (hstandard : i.IsStandard) (hop : i.operation? = none) :
    Machine.step.run m = .ok () m.advance := by
  rw [run_step_of_current hrunning hi, hstandard.perform_of_none hop]
  rfl

/-- The result of a step is the first fault among its checks, if there is any. -/
theorem InOrder.result_step (h : m.InOrder) (hindexed : m.IsIndexed)
    (hrunning : m.running = true)
    (hstandard : ∀ i, m.current? = some i → i.IsStandard) :
    Machine.step.result m =
      match Fault.first? m.faults with
      | some f => .error f
      | none => .ok () := by
  have hslots : m.advance.labelSlot? = m.searchLabel? := funext hindexed
  unfold Attempt.result
  cases hcurrent : m.current? with
  | none =>
      rw [run_step_of_none hrunning hcurrent, faults_of_none hcurrent]
      rfl
  | some i =>
      rw [faults_of_some hcurrent, Fault.first?_none, Instruction.faults]
      cases hop : i.operation? with
      | none =>
          rw [run_step_of_padding hrunning hcurrent (hstandard i hcurrent) hop]
          rfl
      | some op =>
          rw [h.run_step_of_operation hrunning hcurrent hop]
          unfold Standard.outcome
          rw [hslots, Standard.faults_advance]
          dsimp only
          cases Fault.first? (op.faults m.searchLabel? i m) with
          | none => rfl
          | some f => rfl

/-- A step of a machine in order returns the first fault among its checks, and it
succeeds exactly if none of them has a fault. In particular the list is complete: an
allocation that has taken its block never fails for want of room on the stack. -/
theorem step_returns_first_fault (hrunning : m.running = true) (h : m.InOrder)
    (hindexed : m.IsIndexed) (hstandard : ∀ i, m.current? = some i → i.IsStandard) :
    (∀ f, Machine.step.result m = .error f ↔ Fault.first? m.faults = some f) ∧
      (Machine.step.result m = .ok () ↔ ∀ check ∈ m.faults, check = none) ∧
      ∀ i, m.current? = some i → i.operation? = some .new →
        ∀ sp ep hp, Machine.step.result m ≠ .error (.stackOverflow sp ep hp) := by
  have hresult := h.result_step hindexed hrunning hstandard
  have hfault (f : Fault) :
      Machine.step.result m = .error f ↔ Fault.first? m.faults = some f := by
    rw [hresult]
    cases Fault.first? m.faults <;> simp
  refine ⟨hfault, ?_, ?_⟩
  · rw [← Fault.first?_eq_none_iff, hresult]
    cases Fault.first? m.faults <;> simp
  · intro i hi hop sp ep hp hoverflow
    have hfirst := (hfault _).mp hoverflow
    rw [faults_of_some hi, Fault.first?_none, Instruction.faults, hop] at hfirst
    exact Standard.mayRaise_of_mem_faults (Fault.mem_of_first? hfirst)

/-- Four cells of memory, two of them for the stack, and three asked for on top of it:
the operand is there, it is an integer and not negative, and so the last check of the
four refuses the block. -/
theorem third_free_cell_is_refused :
    ∃ loaded m : Machine Empty,
      (blank ⟨1, 4, 2⟩).load { instructions := [Standard.instruction .new] } = .ok loaded ∧
      (Call.push (.int 3)).apply loaded = m ∧
      m.running = true ∧ m.InOrder ∧ m.IsIndexed ∧
      (∀ i, m.current? = some i → i.IsStandard) ∧
      Machine.step.result m = .error (.outOfMemory 3 2 4) := by
  obtain ⟨loaded, m, hload, hpush, hrunning, hregisters, hmemory, hfirst⟩ :
      ∃ loaded m : Machine Empty,
        (blank ⟨1, 4, 2⟩).load { instructions := [Standard.instruction .new] } = .ok loaded ∧
        (Call.push (.int 3)).apply loaded = m ∧ m.running = true ∧
        m.registers = { Registers.initial ⟨1, 4, 2⟩ with sp := 0 } ∧ m.memory.size = 4 ∧
        Fault.first? m.faults = some (.outOfMemory 3 2 4) :=
    ⟨_, _, rfl, rfl, rfl, rfl, rfl, rfl⟩
  have hholds := (create_holds (create_ok_iff.mpr ⟨by decide, rfl⟩)).load hload
  have hindexed := (hholds.call (.push (.int 3))).isIndexed
  have hstandard := m.isStandard_empty
  rw [hpush] at hindexed
  have horder : m.InOrder := by
    constructor <;> simp only [hregisters, hmemory] <;> decide
  have hcurrent : ∀ i, m.current? = some i → i.IsStandard :=
    fun i hi => hstandard i (current?_mem hi)
  have hresult := step_returns_first_fault hrunning horder hindexed hcurrent
  exact ⟨loaded, m, hload, hpush, hrunning, horder, hindexed, hcurrent,
    (hresult.1 _).mpr hfirst⟩

end CellMachine.Machine
