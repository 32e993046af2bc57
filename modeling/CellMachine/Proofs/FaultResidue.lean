import CellMachine.Proofs.StepFaults

/-!
What a step leaves behind when it faults. Nothing is undone, so it matters how far an
operation has come. On a machine whose zones are in order it has come no further than
the counter and the stack pointer: the counter has passed the instruction, an operand
may have been popped, and an empty stack may have been seated for a frame.
-/

namespace CellMachine

variable {ι : Type}

/-- Where the stack pointer is after an operation has come so far. -/
def Progress.sp (p : Progress) (sp : Int) : Int :=
  match p with
  | .none => sp
  | .popped => sp - 1
  | .seated => if sp = -1 then 0 else sp

/-- Whatever an operation has done before it fails, it differs in the stack pointer at
most. -/
theorem Progress.leave_eq (p : Progress) (m : Machine ι) :
    p.leave m =
      { m with registers := { m.registers with sp := (p.leave m).registers.sp } } := by
  cases p with
  | none => rfl
  | popped => rfl
  | seated => rfl

namespace Machine

variable {m : Machine ι}

theorem InOrder.sp_leave (h : m.InOrder) (p : Progress) :
    (p.leave m).registers.sp.toInt = p.sp m.registers.sp.toInt := by
  cases p with
  | none => rfl
  | popped => exact h.toInt_sp_pred
  | seated =>
      have hlow := h.sp_ge
      change m.seated.registers.sp.toInt = if m.registers.sp.toInt = -1 then 0 else _
      rw [toInt_sp_seated]
      split <;> omega

/-- The counter that was in the store counts on without wrapping, if words can number
all slots and the one behind them. -/
theorem toInt_pc_advance {i : Instruction ι} (hi : m.current? = some i)
    (hsize : m.store.size < 0x8000000000000000) :
    m.advance.registers.pc.toInt = m.registers.pc.toInt + 1 := by
  have hinside : ¬ m.registers.pc.Outside m.store.size := by
    rw [← current?_eq_none_iff, hi]
    simp
  have hone := Word.toInt_one
  unfold Word.Outside at hinside
  change (m.registers.pc + 1).toInt = _
  rw [Word.toInt_add, hone]
  unfold Word.Fits
  omega

variable [Host ι]

/-- What a faulting step leaves, on a standard machine whose zones are in order. Memory,
text and program are as before, and so are all registers but the counter and the stack
pointer; so a failed allocation takes no heap. If there was no instruction to fetch,
nothing has changed. Otherwise the counter has moved by one, and the stack pointer is
where the operation had it when it met the fault. -/
theorem residue_of_faulting_step {n : Machine ι} {f : Fault} (hrunning : m.running = true)
    (h : m.InOrder) (hm : m.IsStandard) (hfault : Machine.step.run m = .error f n) :
    m.SameProgram n ∧ n.memory = m.memory ∧ n.output = m.output ∧ n.running = m.running ∧
      n.registers.fp = m.registers.fp ∧ n.registers.ep = m.registers.ep ∧
      n.registers.hp = m.registers.hp ∧
      ((∃ pc capacity, f = .programCounterOutOfRange pc capacity) → n = m) ∧
      ((∀ pc capacity, f ≠ .programCounterOutOfRange pc capacity) →
        n.registers.pc = m.registers.pc + 1 ∧
          (m.store.size < 0x8000000000000000 →
            n.registers.pc.toInt = m.registers.pc.toInt + 1) ∧
          ∃ i op, m.current? = some i ∧ i.operation? = some op ∧
            n.registers.sp.toInt = (op.progress f).sp m.registers.sp.toInt) := by
  cases hi : m.current? with
  | none =>
      rw [run_step_of_none hrunning hi] at hfault
      cases hfault
      exact ⟨.of_eq rfl, rfl, rfl, rfl, rfl, rfl, rfl, fun _ => rfl,
        fun hother => absurd rfl (hother _ _)⟩
  | some i =>
      cases hop : i.operation? with
      | none =>
          rw [run_step_of_padding hrunning hi (hm i (current?_mem hi)) hop] at hfault
          cases hfault
      | some op =>
          rw [h.run_step_of_operation hrunning hi hop] at hfault
          obtain ⟨hraised, hn⟩ := Standard.outcome_eq_error hfault
          have hsp := h.advance.sp_leave (op.progress f)
          rw [Progress.leave_eq] at hn
          generalize ((op.progress f).leave m.advance).registers.sp = sp at hn hsp
          subst hn
          refine ⟨.update m .., rfl, rfl, rfl, rfl, rfl, rfl, ?_, ?_⟩
          · rintro ⟨pc, capacity, rfl⟩
            cases op <;> exact hraised.elim
          · intro _
            exact ⟨rfl, toInt_pc_advance hi, i, op, rfl, hop, hsp⟩

/-- A label on top of the stack is no size for a block. The label has been popped when
that shows, and the heap is as it was. -/
theorem refused_size_is_popped :
    let m : Machine Empty :=
      { blank (ι := Empty) ⟨1, 4, 2⟩ with
        store := #[Standard.instruction .new]
        memory := (Memory.zeros 4).put 0 (.label "size")
        registers := { Registers.initial ⟨1, 4, 2⟩ with sp := 0 } }
    m.running = true ∧ m.InOrder ∧ m.IsStandard ∧
      ∃ n : Machine Empty, Machine.step.run m = .error (.typeMismatch "new" .label) n ∧
        n.memory = m.memory ∧ n.registers.hp = m.registers.hp ∧
        n.registers.pc.toInt = 1 ∧ n.registers.sp.toInt = -1 := by
  intro m
  have horder : m.InOrder := by constructor <;> decide
  have hm := m.isStandard_empty
  obtain ⟨n, hfault⟩ :
      ∃ n, Machine.step.run m = .error (.typeMismatch "new" .label) n := ⟨_, rfl⟩
  obtain ⟨_, hmemory, _, _, _, _, hhp, _, hmoved⟩ :=
    residue_of_faulting_step rfl horder hm hfault
  obtain ⟨_, hpc, i, op, hi, hop, hsp⟩ := hmoved (by simp)
  cases hi
  cases hop
  exact ⟨rfl, horder, hm, n, hfault, hmemory, hhp, hpc (by decide), hsp⟩

end Machine

end CellMachine
