import CellMachine.Machine.Labels
import CellMachine.Proofs.Attempt

/-!
The operations on stack, heap and cells in closed form: what each returns and the
machine that it leaves, for every machine and with every fault. The second part
keeps the machine only: for each operation, all the states that it can leave.
-/

namespace CellMachine.Word

theorem toInt_zero : (0 : Word).toInt = 0 := rfl

theorem toInt_one : (1 : Word).toInt = 1 := rfl

theorem toInt_neg_one : (-1 : Word).toInt = -1 := rfl

theorem toInt_wrap_nat {n : Nat} (h : n < 0x8000000000000000) :
    (wrap n).toInt = n := by
  apply toInt_wrap
  unfold Fits
  omega

theorem eq_of_toInt {a b : Word} (h : a.toInt = b.toInt) : a = b := by
  cases a
  cases b
  cases h
  rfl

theorem wrap_toInt (a : Word) : wrap a.toInt = a := eq_of_toInt (toInt_wrap a.fits)

theorem wrap_succ {n : Nat} (h : n < 0x8000000000000000) :
    wrap n + 1 = wrap (n + 1 : Nat) := by
  change wrap ((wrap n).toInt + (1 : Word).toInt) = _
  rw [toInt_wrap_nat h, toInt_one]
  rfl

/-- The next word is the next integer, except that the last word is followed by the first. -/
theorem toInt_succ_cases (a : Word) : (a + 1).toInt = a.toInt + 1 ∨ (a + 1).toInt < 0 := by
  have hfits := a.fits
  unfold Fits at hfits
  by_cases hlast : a.toInt = 0x7fffffffffffffff
  · right
    have hword : a = ⟨0x7fffffffffffffff, by decide⟩ := eq_of_toInt hlast
    rw [hword]
    decide
  · left
    apply toInt_add
    rw [toInt_one]
    unfold Fits
    omega

end CellMachine.Word

/-- The address that the first argument of an instruction stands for, where a label
stands for the slot that `slotOf` has for it. -/
def CellMachine.Instruction.address {ι : Type} (i : Instruction ι)
    (slotOf : String → Option Nat) : Except Fault Word :=
  match i.first with
  | none => .error (.missingArgument i.name 1)
  | some (.int a) | some (.ptr a) => .ok a
  | some (.label l) =>
      match slotOf l with
      | some slot => .ok (.wrap slot)
      | none => .error (.unresolvableLabel l)
  | some (.float _) => .error (.invalidAddressArgument i.name .float)

namespace CellMachine.Machine

variable {ι : Type}

/-- Reading the registers first, in one piece: the sequence need not be opened. -/
theorem run_getRegisters_bind {α : Type} (next : Registers → Exec ι α) (m : Machine ι) :
    (getRegisters >>= next).run m = (next m.registers).run m := rfl

theorem run_modifyRegisters_bind {α : Type} (f : Registers → Registers)
    (next : Unit → Exec ι α) (m : Machine ι) :
    (modifyRegisters f >>= next).run m =
      (next ()).run { m with registers := f m.registers } := rfl

theorem run_readCell (address : Word) (m : Machine ι) :
    (readCell address).run m =
      match m.memory.read address with
      | .ok v => .ok v m
      | .error f => .error f m := rfl

theorem run_target (i : Instruction ι) (m : Machine ι) :
    (target i).run m =
      match i.argument .first >>= m.resolve i.name with
      | .ok address => .ok address m
      | .error f => .error f m := rfl

/-- Of the machine a target needs only the slots of the labels. -/
theorem run_target_address (i : Instruction ι) (m : Machine ι) :
    (target i).run m =
      match i.address m.labelSlot? with
      | .ok address => .ok address m
      | .error f => .error f m := by
  have haddress : i.argument .first >>= m.resolve i.name = i.address m.labelSlot? := by
    unfold Instruction.argument Instruction.argument? Instruction.address
    dsimp only
    cases i.first with
    | none => rfl
    | some v =>
        change m.resolve i.name v = _
        cases v with
        | int a => rfl
        | ptr a => rfl
        | float x => rfl
        | label l =>
            unfold resolve
            cases m.labelSlot? l with
            | none => rfl
            | some slot => rfl
  rw [run_target, haddress]

theorem run_target_of_ok {i : Instruction ι} {m : Machine ι} {a : Word}
    (h : i.address m.labelSlot? = .ok a) : (target i).run m = .ok a m := by
  rw [run_target_address, h]

theorem run_target_of_error {i : Instruction ι} {m : Machine ι} {f : Fault}
    (h : i.address m.labelSlot? = .error f) : (target i).run m = .error f m := by
  rw [run_target_address, h]

theorem run_peek (m : Machine ι) :
    peek.run m =
      if m.registers.sp < 0 then
        .error (.stackUnderflow m.registers.sp) m
      else
        match m.memory.read m.registers.sp with
        | .ok v => .ok v m
        | .error f => .error f m := by
  simp only [peek, EStateM.run_bind, run_getRegisters]
  split
  · rfl
  · exact run_readCell _ m

theorem run_pop (m : Machine ι) :
    pop.run m =
      if m.registers.sp < 0 then
        .error (.stackUnderflow m.registers.sp) m
      else
        match m.memory.read m.registers.sp with
        | .ok v => .ok v
            { m with registers := { m.registers with sp := m.registers.sp - 1 } }
        | .error f => .error f m := by
  simp only [pop, EStateM.run_bind, run_peek]
  by_cases hempty : m.registers.sp < 0
  · simp only [if_pos hempty]
  · simp only [if_neg hempty]
    cases m.memory.read m.registers.sp with
    | ok v => rfl
    | error f => rfl

/-- The machine with an empty stack made one cell deep. -/
def seated (m : Machine ι) : Machine ι :=
  { m with registers :=
    { m.registers with sp := if m.registers.sp < 0 then 0 else m.registers.sp } }

/-- The frame size is looked at before anything is changed, the room only after
the stack has been seated. -/
theorem run_enter (frame : Word) (m : Machine ι) :
    (enter frame).run m =
      if frame < 1 then
        .error (.invalidFrameSize frame) m
      else
        match Word.add? m.seated.registers.sp frame with
        | some ep =>
            if m.registers.hp ≤ ep then
              .error (.stackOverflow m.seated.registers.sp m.registers.ep m.registers.hp)
                m.seated
            else
              .ok () { m.seated with registers := { m.seated.registers with ep } }
        | none =>
            .error (.stackOverflow m.seated.registers.sp m.registers.ep m.registers.hp)
              m.seated := by
  unfold enter
  by_cases hframe : frame < 1
  · rw [if_pos hframe, if_pos hframe]
    rfl
  · rw [if_neg hframe, if_neg hframe, run_modifyRegisters_bind, run_getRegisters_bind]
    change EStateM.run (match Word.add? m.seated.registers.sp frame with
      | some ep => _
      | none => _) m.seated = _
    generalize Word.add? m.seated.registers.sp frame = ceiling
    cases ceiling with
    | none => rfl
    | some ep =>
        dsimp only
        by_cases hroom : m.registers.hp ≤ ep
        · rw [if_pos hroom, if_pos hroom]
          rfl
        · rw [if_neg hroom, if_neg hroom]
          rfl

theorem run_allocate (units : Nat) (m : Machine ι) :
    (allocate units).run m =
      match heapBelow? m.registers.hp units with
      | some hp =>
          if hp < m.registers.ep then
            .error (.outOfMemory units m.registers.ep m.registers.hp) m
          else
            .ok (.ptr hp) { m with registers := { m.registers with hp } }
      | none => .error (.outOfMemory units m.registers.ep m.registers.hp) m := by
  unfold allocate
  rw [run_getRegisters_bind]
  generalize heapBelow? m.registers.hp units = below
  cases below with
  | none => rfl
  | some hp =>
      dsimp only
      by_cases hroom : hp < m.registers.ep
      · rw [if_pos hroom, if_pos hroom]
        rfl
      · rw [if_neg hroom, if_neg hroom]
        rfl

/-- A push leaves the machine alone or takes the cell above the top. -/
theorem state_push_cases (v : Value) (m : Machine ι) :
    (push v).state m = m ∨
      ∃ i, ¬ m.registers.ep ≤ m.registers.sp + 1 ∧
        m.memory.locate (m.registers.sp + 1) = .ok i ∧
        (push v).state m =
          { m with
            memory := m.memory.set i v
            registers := { m.registers with sp := m.registers.sp + 1 } } := by
  rw [Attempt.state_eq, run_push]
  by_cases hfull : m.registers.ep ≤ m.registers.sp + 1
  · rw [if_pos hfull]
    exact Or.inl rfl
  · rw [if_neg hfull]
    cases hlocate : m.memory.locate (m.registers.sp + 1) with
    | ok i => exact Or.inr ⟨i, hfull, rfl, rfl⟩
    | error f => exact Or.inl rfl

theorem state_pop_cases (m : Machine ι) :
    pop.state m = m ∨
      ¬ m.registers.sp < 0 ∧
        pop.state m =
          { m with registers := { m.registers with sp := m.registers.sp - 1 } } := by
  rw [Attempt.state_eq, run_pop]
  by_cases hempty : m.registers.sp < 0
  · rw [if_pos hempty]
    exact Or.inl rfl
  · rw [if_neg hempty]
    cases m.memory.read m.registers.sp with
    | ok v => exact Or.inr ⟨hempty, rfl⟩
    | error f => exact Or.inl rfl

/-- A frame is refused for its size, refused for want of room with the stack
already seated, or reserved. -/
theorem state_enter_cases (frame : Word) (m : Machine ι) :
    (enter frame).state m = m ∨
      (enter frame).state m = m.seated ∨
      ∃ ep, ¬ frame < 1 ∧ Word.add? m.seated.registers.sp frame = some ep ∧
        ¬ m.registers.hp ≤ ep ∧
        (enter frame).state m =
          { m.seated with registers := { m.seated.registers with ep } } := by
  rw [Attempt.state_eq, run_enter]
  by_cases hframe : frame < 1
  · rw [if_pos hframe]
    exact Or.inl rfl
  · rw [if_neg hframe]
    cases hceiling : Word.add? m.seated.registers.sp frame with
    | none => exact Or.inr (Or.inl rfl)
    | some ep =>
        dsimp only
        by_cases hroom : m.registers.hp ≤ ep
        · rw [if_pos hroom]
          exact Or.inr (Or.inl rfl)
        · rw [if_neg hroom]
          exact Or.inr (Or.inr ⟨ep, hframe, rfl, hroom, rfl⟩)

theorem state_allocate_cases (units : Nat) (m : Machine ι) :
    (allocate units).state m = m ∨
      ∃ hp, heapBelow? m.registers.hp units = some hp ∧ ¬ hp < m.registers.ep ∧
        (allocate units).state m = { m with registers := { m.registers with hp } } := by
  rw [Attempt.state_eq, run_allocate]
  cases hbelow : heapBelow? m.registers.hp units with
  | none => exact Or.inl rfl
  | some hp =>
      dsimp only
      by_cases hroom : hp < m.registers.ep
      · rw [if_pos hroom]
        exact Or.inl rfl
      · rw [if_neg hroom]
        exact Or.inr ⟨hp, rfl, hroom, rfl⟩

theorem state_writeCell_cases (address : Word) (v : Value) (m : Machine ι) :
    (writeCell address v).state m = m ∨
      ∃ i, m.memory.locate address = .ok i ∧
        (writeCell address v).state m = { m with memory := m.memory.set i v } := by
  rw [Attempt.state_eq, run_writeCell]
  cases m.memory.locate address with
  | ok i => exact Or.inr ⟨i, rfl, rfl⟩
  | error f => exact Or.inl rfl

theorem state_readCell (address : Word) (m : Machine ι) :
    (readCell address).state m = m := by
  rw [Attempt.state_eq, run_readCell]
  cases m.memory.read address with
  | ok v => rfl
  | error f => rfl

theorem state_peek (m : Machine ι) : (peek : Exec ι Value).state m = m := by
  rw [Attempt.state_eq, run_peek]
  by_cases hempty : m.registers.sp < 0
  · rw [if_pos hempty]
  · rw [if_neg hempty]
    exact state_readCell _ m

theorem state_target (i : Instruction ι) (m : Machine ι) : (target i).state m = m := by
  rw [Attempt.state_eq, run_target]
  cases i.argument .first >>= m.resolve i.name with
  | ok address => rfl
  | error f => rfl

end CellMachine.Machine
