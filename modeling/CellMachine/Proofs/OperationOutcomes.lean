import CellMachine.Proofs.FaultTable

/-!
Every standard operation ends as its checks say, on a machine whose zones are in
order. One theorem for each operation follows it from check to check; what could
still fail behind the last one, it shows to succeed.
-/

namespace CellMachine.Standard

open Machine

variable {ι : Type} {m : Machine ι}

theorem run_ldc (h : m.InOrder) (i : Instruction ι) :
    (ldc.perform i).run m = ldc.outcome i m := by
  unfold perform
  cases hfirst : i.first with
  | none =>
      have hargument := Instruction.argument_of_none hfirst
      have hmissing : i.missing? = some _ := Fault.when_pos hfirst
      rw [Attempt.run_bind_of_error (Attempt.run_ofExcept_of_error hargument m),
        outcome_of_fault (by rw [faults, hmissing]; rfl)]
      rfl
  | some v =>
      have hargument := Instruction.argument_of_some hfirst
      have hpresent := Instruction.missing?_of_some hfirst
      rw [Attempt.run_bind_of_ok (Attempt.run_ofExcept_of_ok hargument m), h.stackFits.run_push]
      by_cases hfull : m.registers.sp.toInt + 1 = m.registers.ep.toInt
      · have hoverflow : m.overflow? = some _ := Fault.when_pos hfull
        rw [if_pos hfull, outcome_of_fault (by rw [faults, hpresent, hoverflow]; rfl)]
        rfl
      · have hoverflow : m.overflow? = none := Fault.when_neg hfull
        rw [if_neg hfull, outcome_of_none (by rw [faults, hpresent, hoverflow]; rfl),
          effect, hfirst]
        rfl

theorem run_ldo (h : m.InOrder) (i : Instruction ι) :
    (ldo.perform i).run m = ldo.outcome i m := by
  unfold perform
  cases haddress : i.address m.labelSlot? with
  | error f =>
      have hargument := Instruction.unaddressed?_of_error haddress
      rw [Attempt.run_bind_of_error (run_target_of_error haddress),
        outcome_of_fault (by rw [faults, hargument]; rfl)]
      rfl
  | ok a =>
      have hargument := Instruction.unaddressed?_of_ok haddress
      have houtside := Instruction.outside?_of_ok haddress m.memory.size
      rw [Attempt.run_bind_of_ok (run_target_of_ok haddress)]
      cases hcell : m.memory.cell? a with
      | none =>
          rw [Fault.when_pos (Memory.cell?_eq_none_iff.mp hcell)] at houtside
          rw [Attempt.run_bind_of_error (run_readCell_of_none hcell),
            outcome_of_fault (by rw [faults, hargument, houtside]; rfl)]
          rfl
      | some v =>
          rw [Fault.when_neg (by rw [← Memory.cell?_eq_none_iff, hcell]; simp)] at houtside
          rw [Attempt.run_bind_of_ok (run_readCell_of_some hcell), h.stackFits.run_push]
          by_cases hfull : m.registers.sp.toInt + 1 = m.registers.ep.toInt
          · have hoverflow : m.overflow? = some _ := Fault.when_pos hfull
            rw [if_pos hfull,
              outcome_of_fault (by rw [faults, hargument, houtside, hoverflow]; rfl)]
            rfl
          · have hoverflow : m.overflow? = none := Fault.when_neg hfull
            rw [if_neg hfull,
              outcome_of_none (by rw [faults, hargument, houtside, hoverflow]; rfl),
              effect, haddress]
            dsimp only
            rw [hcell]
            rfl

theorem run_sro (h : m.InOrder) (i : Instruction ι) :
    (sro.perform i).run m = sro.outcome i m := by
  unfold perform
  cases haddress : i.address m.labelSlot? with
  | error f =>
      have hargument := Instruction.unaddressed?_of_error haddress
      rw [Attempt.run_bind_of_error (run_target_of_error haddress),
        outcome_of_fault (by rw [faults, hargument]; rfl)]
      obtain rfl | rfl | ⟨l, rfl⟩ := Instruction.unaddressed?_cases hargument <;> rfl
  | ok a =>
      have hargument := Instruction.unaddressed?_of_ok haddress
      have houtside := Instruction.outside?_of_ok haddress m.memory.size
      rw [Attempt.run_bind_of_ok (run_target_of_ok haddress)]
      cases htop : m.top? with
      | none =>
          have hempty := h.underflow?_of_none htop
          rw [Attempt.run_bind_of_error (h.run_pop_of_none htop),
            outcome_of_fault (by rw [faults, hargument, hempty]; rfl)]
          rfl
      | some v =>
          have hfilled := h.underflow?_of_some htop
          have hmemory : m.popped.memory = m.memory := rfl
          rw [Attempt.run_bind_of_ok (h.run_pop_of_some htop), run_writeCell_put, hmemory]
          by_cases hcell : a.Outside m.memory.size
          · rw [Fault.when_pos hcell] at houtside
            rw [if_pos hcell,
              outcome_of_fault (by rw [faults, hargument, hfilled, houtside]; rfl)]
            rfl
          · rw [Fault.when_neg hcell] at houtside
            rw [if_neg hcell,
              outcome_of_none (by rw [faults, hargument, hfilled, houtside]; rfl),
              effect, haddress, htop]

theorem run_print (h : m.InOrder) (i : Instruction ι) :
    (print.perform i).run m = print.outcome i m := by
  unfold perform
  cases htop : m.top? with
  | none =>
      have hempty := h.underflow?_of_none htop
      rw [Attempt.run_bind_of_error (h.run_pop_of_none htop),
        outcome_of_fault (by rw [faults, hempty]; rfl)]
      rfl
  | some v =>
      have hfilled := h.underflow?_of_some htop
      rw [Attempt.run_bind_of_ok (h.run_pop_of_some htop),
        outcome_of_none (by rw [faults, hfilled]; rfl), effect, htop]
      rfl

/-- The operand is popped before it is looked at. -/
theorem run_popSize_of_some (h : m.InOrder) (i : Instruction ι) {v : Value}
    (htop : m.top? = some v) :
    (popSize i).run m =
      match i.wordOf v with
      | .error f => .error f m.popped
      | .ok n =>
          if n.toInt < 0 then
            .error (.invalidAllocationSize i.name n) m.popped
          else
            .ok n.toInt.toNat m.popped := by
  unfold popSize
  rw [Attempt.run_bind_of_ok (h.run_pop_of_some htop)]
  cases i.wordOf v with
  | error f => exact Attempt.run_bind_of_error (Attempt.run_ofExcept_of_error rfl _) _
  | ok n =>
      have hneg : n < 0 ↔ n.toInt < 0 := by rw [Word.lt_iff, Word.toInt_zero]
      rw [Attempt.run_bind_of_ok (Attempt.run_ofExcept_of_ok rfl _)]
      by_cases hsize : n.toInt < 0
      · simp only [if_pos (hneg.mpr hsize), if_pos hsize]
        rfl
      · simp only [if_neg (fun hlt => hsize (hneg.mp hlt)), if_neg hsize]
        rfl

theorem run_allocate_popped (h : m.InOrder) {n : Word} (hn : ¬ n.toInt < 0) :
    (allocate n.toInt.toNat).run m.popped =
      if m.registers.hp.toInt - n.toInt < m.registers.ep.toInt then
        .error (.outOfMemory n.toInt.toNat m.registers.ep m.registers.hp) m.popped
      else
        .ok (.ptr (m.registers.hp - n))
          { m.popped with
            registers := { m.popped.registers with hp := m.registers.hp - n } } := by
  have hep : 0 ≤ m.popped.registers.ep.toInt := by
    obtain ⟨hlow, hlt, _, _⟩ := h
    change 0 ≤ m.registers.ep.toInt
    omega
  have hexact : ((n.toInt.toNat : Nat) : Int) = n.toInt := by omega
  rw [run_allocate_exact hep, hexact]
  rfl

/-- A pointer to a block that was just taken finds its place on the stack: it goes
where the size of the block was. -/
theorem run_push_block (h : m.InOrder) {v : Value} (htop : m.top? = some v) {hp : Word}
    (hroom : m.registers.ep.toInt ≤ hp.toInt) (hsize : hp.toInt ≤ m.memory.size) :
    (push (.ptr hp)).run { m.popped with registers := { m.popped.registers with hp } } =
      .ok ()
        { m with
          memory := m.memory.put m.registers.sp (.ptr hp)
          registers := { m.registers with hp } } := by
  have hpopped := h.popped htop
  have hpred : m.popped.registers.sp.toInt = m.registers.sp.toInt - 1 := h.toInt_sp_pred
  have horder :
      InOrder { m.popped with registers := { m.popped.registers with hp } } :=
    ⟨hpopped.sp_ge, hpopped.sp_lt, hroom, hsize⟩
  have hback : m.registers.sp - 1 + 1 = m.registers.sp := by
    apply Word.eq_of_toInt
    exact hpopped.stackFits.toInt_sp_succ.trans (by omega)
  have hlt := h.sp_lt
  rw [horder.stackFits.run_push, if_neg]
  · unfold pushed popped
    dsimp only
    rw [hback]
  · change ¬ m.popped.registers.sp.toInt + 1 = m.registers.ep.toInt
    omega

/-- The checks of an allocation that has found its size. -/
theorem faults_new_of_size (h : m.InOrder) {i : Instruction ι} {v : Value} {n : Word}
    (htop : m.top? = some v) (hkind : i.mismatched? v = none) (hword : v.word? = some n) :
    new.faults m.labelSlot? i m =
      [none, none, (Fault.invalidAllocationSize i.name n).when (n.toInt < 0),
        m.exhausted? n] := by
  rw [faults, h.underflow?_of_some htop, htop, Option.bind_some, hkind, Option.bind_some,
    hword]
  rfl

theorem run_new (h : m.InOrder) (i : Instruction ι) :
    (new.perform i).run m = new.outcome i m := by
  unfold perform
  cases htop : m.top? with
  | none =>
      have hempty := h.underflow?_of_none htop
      have hsize : (popSize i).run m = .error (.stackUnderflow m.registers.sp) m :=
        Attempt.run_bind_of_error (h.run_pop_of_none htop) _
      rw [Attempt.run_bind_of_error hsize, outcome_of_fault (by rw [faults, hempty]; rfl)]
      rfl
  | some v =>
      have hsize := run_popSize_of_some h i htop
      obtain ⟨n, hword, hpayload, hkind⟩ | ⟨kind, hword, hkind⟩ := i.wordOf_eq v
      · have hchecks := faults_new_of_size h htop hkind hpayload
        rw [hword] at hsize
        dsimp only at hsize
        by_cases hneg : n.toInt < 0
        · rw [if_pos hneg] at hsize
          rw [Fault.when_pos hneg] at hchecks
          rw [Attempt.run_bind_of_error hsize, outcome_of_fault (by rw [hchecks]; rfl)]
          rfl
        · rw [if_neg hneg] at hsize
          rw [Fault.when_neg hneg] at hchecks
          rw [Attempt.run_bind_of_ok hsize]
          have hblock := run_allocate_popped h hneg
          by_cases hroom : m.registers.hp.toInt - n.toInt < m.registers.ep.toInt
          · have hexhausted : m.exhausted? n = some _ := Fault.when_pos hroom
            rw [if_pos hroom] at hblock
            rw [hexhausted] at hchecks
            rw [Attempt.run_bind_of_error hblock, outcome_of_fault (by rw [hchecks]; rfl)]
            rfl
          · have hexhausted : m.exhausted? n = none := Fault.when_neg hroom
            have hwhole := h.hp_le
            have htaken := h.toInt_hp_sub hneg hroom
            rw [if_neg hroom] at hblock
            rw [hexhausted] at hchecks
            rw [Attempt.run_bind_of_ok hblock,
              run_push_block h htop (by rw [htaken]; omega) (by rw [htaken]; omega),
              outcome_of_none (by rw [hchecks]; rfl), effect, htop, Option.bind_some, hpayload]
      · have hfilled := h.underflow?_of_some htop
        have hmismatched : m.top?.bind i.mismatched? = some (.typeMismatch i.name kind) := by
          rw [htop]
          exact hkind
        rw [hword] at hsize
        rw [Attempt.run_bind_of_error hsize,
          outcome_of_fault (by rw [faults, hfilled, hmismatched]; rfl)]
        rfl

/-- The checks of a frame that has a size. -/
theorem faults_enter_of_size {i : Instruction ι} {v : Value} {n : Word}
    (hfirst : i.first = some v) (hkind : i.mismatched? v = none) (hword : v.word? = some n) :
    enter.faults m.labelSlot? i m =
      [none, none, (Fault.invalidFrameSize n).when (n.toInt < 1), m.crowded? n] := by
  rw [faults, Instruction.missing?_of_some hfirst, hfirst, Option.bind_some, hkind,
    Option.bind_some, hword]
  rfl

theorem run_enter (m : Machine ι) (i : Instruction ι) :
    (enter.perform i).run m = enter.outcome i m := by
  unfold perform
  cases hfirst : i.first with
  | none =>
      have hargument : i.wordArgument .first = .error (.missingArgument i.name 1) := by
        rw [Instruction.wordArgument, Instruction.argument_of_none hfirst]
        rfl
      have hmissing : i.missing? = some _ := Fault.when_pos hfirst
      rw [Attempt.run_bind_of_error (Attempt.run_ofExcept_of_error hargument m),
        outcome_of_fault (by rw [faults, hmissing]; rfl)]
      rfl
  | some v =>
      have hargument : i.wordArgument .first = i.wordOf v := by
        rw [Instruction.wordArgument, Instruction.argument_of_some hfirst]
        rfl
      obtain ⟨n, hword, hpayload, hkind⟩ | ⟨kind, hword, hkind⟩ := i.wordOf_eq v
      · have hchecks := faults_enter_of_size (m := m) hfirst hkind hpayload
        rw [hword] at hargument
        rw [Attempt.run_bind_of_ok (Attempt.run_ofExcept_of_ok hargument m), run_enter_exact]
        by_cases hsmall : n.toInt < 1
        · rw [Fault.when_pos hsmall] at hchecks
          rw [if_pos hsmall, outcome_of_fault (by rw [hchecks]; rfl)]
          rfl
        · rw [Fault.when_neg hsmall] at hchecks
          rw [if_neg hsmall]
          by_cases hroom : m.registers.hp.toInt ≤ max m.registers.sp.toInt 0 + n.toInt
          · have hcrowded : m.crowded? n = some _ := Fault.when_pos hroom
            rw [hcrowded] at hchecks
            rw [if_pos hroom, outcome_of_fault (by rw [hchecks]; rfl)]
            rfl
          · have hcrowded : m.crowded? n = none := Fault.when_neg hroom
            rw [hcrowded] at hchecks
            rw [if_neg hroom, outcome_of_none (by rw [hchecks]; rfl), effect, hfirst,
              Option.bind_some, hpayload]
      · have hpresent := Instruction.missing?_of_some hfirst
        have hmismatched : i.first.bind i.mismatched? = some (.typeMismatch i.name kind) := by
          rw [hfirst]
          exact hkind
        rw [hword] at hargument
        rw [Attempt.run_bind_of_error (Attempt.run_ofExcept_of_error hargument m),
          outcome_of_fault (by rw [faults, hpresent, hmismatched]; rfl)]
        rfl

theorem run_ujp (m : Machine ι) (i : Instruction ι) :
    (ujp.perform i).run m = ujp.outcome i m := by
  unfold perform
  cases haddress : i.address m.labelSlot? with
  | error f =>
      have hargument := Instruction.unaddressed?_of_error haddress
      rw [Attempt.run_bind_of_error (run_target_of_error haddress),
        outcome_of_fault (by rw [faults, hargument]; rfl)]
      rfl
  | ok a =>
      have hargument := Instruction.unaddressed?_of_ok haddress
      rw [Attempt.run_bind_of_ok (run_target_of_ok haddress),
        outcome_of_none (by rw [faults, hargument]; rfl), effect, haddress]
      rfl

/-- Every standard operation on a machine in order ends as its checks say: with the
first fault that applies and what is left then, or with its effect. -/
theorem run_perform (h : m.InOrder) (op : Standard) (i : Instruction ι) :
    (op.perform i).run m = op.outcome i m := by
  cases op with
  | ldc => exact run_ldc h i
  | ldo => exact run_ldo h i
  | sro => exact run_sro h i
  | print => exact run_print h i
  | new => exact run_new h i
  | enter => exact run_enter m i
  | ujp => exact run_ujp m i
  | halt => rfl

end CellMachine.Standard
