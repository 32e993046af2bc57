import CellMachine.Proofs.FaultResidue

/-!
The meaning of the standard instructions as it is published: a line of register
transfers for each of them, with integers for registers and at most one cell to be
written. A step that succeeds does what the line says and leaves all else as it was.
-/

namespace CellMachine

variable {ι : Type}

/-- All that one instruction can change. -/
structure Transfer where
  pc : Word
  sp : Int
  ep : Int
  hp : Int
  /-- The address of the cell that is written, and its new content. -/
  written : Option (Int × Value) := none
  printed : String := ""
  running : Bool := true
deriving DecidableEq, Repr

/-- The content that a cell has afterwards. -/
def Transfer.cell? (t : Transfer) (m : Memory) (k : Nat) : Option Value :=
  match t.written with
  | some (a, v) => if a = k then some v else m.cells[k]?
  | none => m.cells[k]?

/-- Going on to the next slot, and nothing else. -/
def Machine.onward (m : Machine ι) : Transfer where
  pc := m.registers.pc + 1
  sp := m.registers.sp.toInt
  ep := m.registers.ep.toInt
  hp := m.registers.hp.toInt

/-- The published meaning of an operation. It has none without its operands, and none
where the heap would begin at a number that no word holds. -/
def Standard.meaning? (op : Standard) (i : Instruction ι) (m : Machine ι) :
    Option Transfer :=
  let t := m.onward
  match op with
  | .ldc => do
      let c ← i.first
      return { t with sp := t.sp + 1, written := some (t.sp + 1, c) }
  | .ldo => do
      let q ← (i.address m.labelSlot?).toOption
      let v ← m.memory.cell? q
      return { t with sp := t.sp + 1, written := some (t.sp + 1, v) }
  | .sro => do
      let q ← (i.address m.labelSlot?).toOption
      let v ← m.top?
      return { t with sp := t.sp - 1, written := some (q.toInt, v) }
  | .print => do
      let v ← m.top?
      return { t with sp := t.sp - 1, printed := v.text }
  | .new => do
      let n ← m.top?.bind Value.word?
      let p ← Word.ofInt? (t.hp - n.toInt)
      return { t with hp := p.toInt, written := some (t.sp, .ptr p) }
  | .enter => do
      let n ← i.first.bind Value.word?
      return { t with sp := max t.sp 0, ep := max t.sp 0 + n.toInt }
  | .ujp => do
      let a ← (i.address m.labelSlot?).toOption
      return { t with pc := a }
  | .halt => some { t with printed := Machine.haltMarker, running := false }

/-- The published meaning of a standard instruction. Padding has the counter go on. -/
def Instruction.meaning? (i : Instruction ι) (m : Machine ι) : Option Transfer :=
  match i.operation? with
  | some op => op.meaning? i m
  | none => some m.onward

/-- Only a jump goes elsewhere than to the next slot. -/
theorem Instruction.pc_of_meaning? {i : Instruction ι} {m : Machine ι} {t : Transfer}
    (h : i.meaning? m = some t) (hjump : i.operation? ≠ some .ujp) :
    t.pc = m.registers.pc + 1 := by
  unfold Instruction.meaning? at h
  split at h
  next op hop =>
    cases op with
    | ujp => exact absurd hop hjump
    | _ =>
        simp only [Standard.meaning?, Option.bind_eq_bind, Option.bind_eq_some_iff,
          Option.pure_def, Option.some.injEq] at h
        grind [Machine.onward]
  next =>
    cases h
    rfl

/-- The second machine is the first one after a transfer. Program, configuration and
frame pointer, which no transfer mentions, are the same. -/
structure Machine.Becomes (m : Machine ι) (t : Transfer) (n : Machine ι) : Prop where
  program : m.SameProgram n
  pc : n.registers.pc = t.pc
  fp : n.registers.fp = m.registers.fp
  sp : n.registers.sp.toInt = t.sp
  ep : n.registers.ep.toInt = t.ep
  hp : n.registers.hp.toInt = t.hp
  cells : ∀ k : Nat, n.memory.cells[k]? = t.cell? m.memory k
  output : n.output.text = m.output.text ++ t.printed
  running : n.running = t.running

/-- A cell with another content than before is the one that is written. -/
theorem Transfer.written_of_changed {m : Memory} {k : Nat} (t : Transfer)
    (h : t.cell? m k ≠ m.cells[k]?) : ∃ v, t.written = some ((k : Int), v) := by
  unfold Transfer.cell? at h
  split at h
  next a v hwritten =>
    split at h
    next hsame => exact ⟨v, by rw [hwritten, hsame]⟩
    next => exact absurd rfl h
  next => exact absurd rfl h

theorem Fault.when_eq_none_iff {f : Fault} {p : Prop} [Decidable p] :
    f.when p = none ↔ ¬ p := by
  simp [Fault.when]

theorem Instruction.word?_of_mismatched?_eq_none {i : Instruction ι} {v : Value}
    (h : i.mismatched? v = none) : ∃ n, v.word? = some n := by
  cases v with
  | int n => exact ⟨n, rfl⟩
  | ptr n => exact ⟨n, rfl⟩
  | float x => simp [Instruction.mismatched?] at h
  | label l => simp [Instruction.mismatched?] at h

namespace Machine

variable {m n : Machine ι}

/-- A transfer leads to one machine only. -/
theorem Becomes.unique {t : Transfer} {k : Machine ι} (hn : m.Becomes t n)
    (hk : m.Becomes t k) : n = k := by
  have hregisters : n.registers = k.registers := by
    have hpc := hn.pc.trans hk.pc.symm
    have hfp := hn.fp.trans hk.fp.symm
    have hsp := Word.eq_of_toInt (hn.sp.trans hk.sp.symm)
    have hep := Word.eq_of_toInt (hn.ep.trans hk.ep.symm)
    have hhp := Word.eq_of_toInt (hn.hp.trans hk.hp.symm)
    cases hr : n.registers
    cases hs : k.registers
    simp_all
  have hcells : n.memory.cells = k.memory.cells :=
    Array.ext_getElem? fun j => (hn.cells j).trans (hk.cells j).symm
  have houtput := hn.output.trans hk.output.symm
  have hrunning := hn.running.trans hk.running.symm
  obtain ⟨hconfig, hstore, hlabels, hoverlay⟩ := hn.program
  obtain ⟨hconfig', hstore', hlabels', hoverlay'⟩ := hk.program
  rcases n with ⟨_, _, ⟨_⟩, _, _, _, ⟨_⟩, _⟩
  rcases k with ⟨_, _, ⟨_⟩, _, _, _, ⟨_⟩, _⟩
  simp_all

/-- A transfer writes one cell at most. -/
theorem Becomes.eq_of_changed {t : Transfer} (h : m.Becomes t n) {j k : Nat}
    (hj : n.memory.cells[j]? ≠ m.memory.cells[j]?)
    (hk : n.memory.cells[k]? ≠ m.memory.cells[k]?) : j = k := by
  rw [h.cells] at hj hk
  obtain ⟨v, hv⟩ := t.written_of_changed hj
  obtain ⟨w, hw⟩ := t.written_of_changed hk
  simp only [hv, Option.some.injEq, Prod.mk.injEq] at hw
  omega

/-- Going on to the next slot changes the counter. -/
theorem becomes_onward (hrunning : m.running = true) : m.Becomes m.onward m.advance where
  program := .update m ..
  pc := rfl
  fp := rfl
  sp := rfl
  ep := rfl
  hp := rfl
  cells _ := rfl
  output := by simp [onward, advance, jump]
  running := hrunning

/-- A push with room for it takes the cell above the top. -/
theorem InOrder.becomes_pushed (h : m.InOrder) (hrunning : m.running = true)
    (hroom : ¬ m.registers.sp.toInt + 1 = m.registers.ep.toInt) (v : Value) :
    m.Becomes
      { m.onward with
        sp := m.registers.sp.toInt + 1
        written := some (m.registers.sp.toInt + 1, v) }
      (m.advance.pushed v) := by
  have hsp := h.stackFits.toInt_sp_succ
  have hinside : ¬ (m.registers.sp + 1).Outside m.memory.size := by
    obtain ⟨hlow, hlt, hgap, hsize⟩ := h
    unfold Word.Outside
    omega
  have hgo := becomes_onward hrunning
  refine ⟨.update m .., rfl, rfl, hsp, rfl, rfl, ?_, hgo.output, hrunning⟩
  intro k
  rw [← hsp]
  exact Memory.getElem?_put hinside v k

end Machine

namespace Standard

open Machine

variable {m : Machine ι} {i : Instruction ι}

/-- An operation that succeeds has passed all its checks. -/
theorem outcome_eq_ok {op : Standard} {n : Machine ι} (h : op.outcome i m = .ok () n) :
    (∀ check ∈ op.faults m.labelSlot? i m, check = none) ∧ n = op.effect i m := by
  unfold outcome at h
  split at h
  next => cases h
  next hnone =>
    cases h
    exact ⟨Fault.first?_eq_none_iff.mp hnone, rfl⟩

/-- No check of the operation applies. -/
def Passes (op : Standard) (i : Instruction ι) (m : Machine ι) : Prop :=
  ∀ check ∈ op.faults m.labelSlot? i m, check = none

theorem Passes.address {op : Standard} (h : op.Passes i m)
    (hmade : i.unaddressed? m.labelSlot? ∈ op.faults m.labelSlot? i m) :
    ∃ a, i.address m.labelSlot? = .ok a := by
  have hargument := h _ hmade
  rw [Instruction.unaddressed?_eq] at hargument
  cases haddress : i.address m.labelSlot? with
  | ok a => exact ⟨a, rfl⟩
  | error f => simp [haddress] at hargument

theorem Passes.inside {op : Standard} (h : op.Passes i m) {a : Word}
    (haddress : i.address m.labelSlot? = .ok a)
    (hmade : i.outside? m.labelSlot? m.memory.size ∈ op.faults m.labelSlot? i m) :
    ¬ a.Outside m.memory.size := by
  have houtside := h _ hmade
  rwa [Instruction.outside?_of_ok haddress, Fault.when_eq_none_iff] at houtside

theorem Passes.top {op : Standard} (h : op.Passes i m) (horder : m.InOrder)
    (hmade : m.underflow? ∈ op.faults m.labelSlot? i m) : ∃ v, m.top? = some v := by
  have hfilled := h _ hmade
  cases htop : m.top? with
  | some v => exact ⟨v, rfl⟩
  | none => simp [horder.underflow?_of_none htop] at hfilled

theorem ldc_meaning (h : m.InOrder) (hrunning : m.running = true) (hpass : ldc.Passes i m) :
    ∃ t, ldc.meaning? i m = some t ∧ m.Becomes t (ldc.effect i m.advance) := by
  obtain ⟨hpresent, hroom⟩ : i.missing? = none ∧ m.overflow? = none := by
    simpa [Passes, faults] using hpass
  cases hfirst : i.first with
  | none => simp [Instruction.missing?, Fault.when, hfirst] at hpresent
  | some c =>
      simp only [meaning?, effect, hfirst]
      exact ⟨_, rfl, h.becomes_pushed hrunning (Fault.when_eq_none_iff.mp hroom) c⟩

/-- The cell is read before the push, so it may be the one that the push takes. -/
theorem ldo_meaning (h : m.InOrder) (hrunning : m.running = true) (hpass : ldo.Passes i m) :
    ∃ t, ldo.meaning? i m = some t ∧ m.Becomes t (ldo.effect i m.advance) := by
  obtain ⟨q, haddress⟩ := hpass.address (by simp [faults])
  have hroom : m.overflow? = none := hpass _ (by simp [faults])
  have hcell : m.memory.cell? q ≠ none := by
    rw [Ne, Memory.cell?_eq_none_iff]
    exact hpass.inside haddress (by simp [faults])
  obtain ⟨v, hv⟩ := Option.ne_none_iff_exists'.mp hcell
  have heffect : ldo.effect i m.advance = m.advance.pushed v := by
    have hresolved : i.address m.advance.labelSlot? = .ok q := haddress
    have hread : m.advance.memory.cell? q = some v := hv
    simp [effect, hresolved, hread]
  rw [heffect]
  simp only [meaning?, haddress, Except.toOption]
  simp only [Option.bind_eq_bind, Option.bind_some, hv]
  exact ⟨_, rfl, h.becomes_pushed hrunning (Fault.when_eq_none_iff.mp hroom) v⟩

/-- The value is popped before the cell is written, so it may be the top cell. -/
theorem sro_meaning (h : m.InOrder) (hrunning : m.running = true) (hpass : sro.Passes i m) :
    ∃ t, sro.meaning? i m = some t ∧ m.Becomes t (sro.effect i m.advance) := by
  obtain ⟨q, haddress⟩ := hpass.address (by simp [faults])
  obtain ⟨v, htop⟩ := hpass.top h (by simp [faults])
  have hinside := hpass.inside haddress (by simp [faults])
  have heffect : sro.effect i m.advance =
      { m.advance.popped with memory := m.memory.put q v } := by
    have hresolved : i.address m.advance.labelSlot? = .ok q := haddress
    have hread : m.advance.top? = some v := htop
    simp only [effect, hresolved, hread]
    rfl
  rw [heffect]
  simp only [meaning?, haddress, Except.toOption]
  simp only [Option.bind_eq_bind, Option.bind_some, htop]
  have hgo := becomes_onward hrunning
  refine ⟨_, rfl, .update m .., rfl, rfl, h.toInt_sp_pred, rfl, rfl, ?_, hgo.output, hrunning⟩
  exact Memory.getElem?_put hinside v

theorem print_meaning (h : m.InOrder) (hrunning : m.running = true)
    (hpass : print.Passes i m) :
    ∃ t, print.meaning? i m = some t ∧ m.Becomes t (print.effect i m.advance) := by
  obtain ⟨v, htop⟩ := hpass.top h (by simp [faults])
  have heffect : print.effect i m.advance = m.advance.popped.print v := by
    have hread : m.advance.top? = some v := htop
    simp [effect, hread]
  rw [heffect]
  simp only [meaning?, htop, Option.bind_eq_bind, Option.bind_some]
  exact ⟨_, rfl, .update m .., rfl, rfl, h.toInt_sp_pred, rfl, rfl, fun _ => rfl, rfl, hrunning⟩

/-- The pointer goes where the size was, and the block ends where the heap began. -/
theorem new_meaning (h : m.InOrder) (hrunning : m.running = true) (hpass : new.Passes i m) :
    ∃ t, new.meaning? i m = some t ∧ m.Becomes t (new.effect i m.advance) := by
  obtain ⟨v, htop⟩ := hpass.top h (by simp [faults])
  have hkind : i.mismatched? v = none := by
    simpa [htop] using hpass (m.top?.bind i.mismatched?) (by simp [faults])
  obtain ⟨n, hword⟩ := Instruction.word?_of_mismatched?_eq_none hkind
  obtain ⟨hsize, hroom⟩ : ¬ n.toInt < 0 ∧
      ¬ m.registers.hp.toInt - n.toInt < m.registers.ep.toInt := by
    have hchecks := faults_new_of_size h htop hkind hword
    simpa [Passes, hchecks, exhausted?, Fault.when_eq_none_iff] using hpass
  have hhp := h.toInt_hp_sub hsize hroom
  have hexact : Word.ofInt? (m.onward.hp - n.toInt) = some (m.registers.hp - n) :=
    Word.ofInt?_eq_some_iff.mpr hhp
  have heffect : new.effect i m.advance =
      { m.advance with
        memory := m.memory.put m.registers.sp (.ptr (m.registers.hp - n))
        registers := { m.advance.registers with hp := m.registers.hp - n } } := by
    have hread : m.advance.top? = some v := htop
    simp only [effect, hread, Option.bind_some, hword]
    rfl
  have hinside : ¬ m.registers.sp.Outside m.memory.size := by
    rw [← Memory.cell?_eq_none_iff]
    exact Option.ne_none_iff_exists'.mpr ⟨v, htop⟩
  rw [heffect]
  simp only [meaning?, htop, Option.bind_eq_bind, Option.bind_some, hword, hexact]
  have hgo := becomes_onward hrunning
  refine ⟨_, rfl, .update m .., rfl, rfl, rfl, rfl, rfl, ?_, hgo.output, hrunning⟩
  exact Memory.getElem?_put hinside _

/-- The new ceiling is below the heap, so it is a word. -/
theorem enter_meaning (hrunning : m.running = true) (hpass : enter.Passes i m) :
    ∃ t, enter.meaning? i m = some t ∧ m.Becomes t (enter.effect i m.advance) := by
  obtain ⟨v, hfirst⟩ : ∃ v, i.first = some v := by
    have hpresent : i.missing? = none := hpass _ (by simp [faults])
    rw [Instruction.missing?, Fault.when_eq_none_iff] at hpresent
    exact Option.ne_none_iff_exists'.mp hpresent
  have hkind : i.mismatched? v = none := by
    simpa [hfirst] using hpass (i.first.bind i.mismatched?) (by simp [faults])
  obtain ⟨n, hword⟩ := Instruction.word?_of_mismatched?_eq_none hkind
  obtain ⟨hsize, hroom⟩ : ¬ n.toInt < 1 ∧
      ¬ m.registers.hp.toInt ≤ max m.registers.sp.toInt 0 + n.toInt := by
    have hchecks := faults_enter_of_size (m := m) hfirst hkind hword
    simpa [Passes, hchecks, crowded?, Fault.when_eq_none_iff] using hpass
  have hsp : m.advance.seated.registers.sp.toInt = max m.registers.sp.toInt 0 :=
    m.advance.toInt_sp_seated
  have hep : (m.advance.seated.registers.sp + n).toInt =
      max m.registers.sp.toInt 0 + n.toInt := by
    have hhp := m.registers.hp.fits
    unfold Word.Fits at hhp
    rw [Word.toInt_add, hsp]
    unfold Word.Fits
    omega
  simp only [meaning?, effect, hfirst, Option.bind_eq_bind, Option.bind_some, hword]
  have hgo := becomes_onward hrunning
  exact ⟨_, rfl, .update m .., rfl, rfl, hsp, hep, rfl, fun _ => rfl, hgo.output, hrunning⟩

theorem ujp_meaning (hrunning : m.running = true) (hpass : ujp.Passes i m) :
    ∃ t, ujp.meaning? i m = some t ∧ m.Becomes t (ujp.effect i m.advance) := by
  obtain ⟨a, haddress⟩ := hpass.address (by simp [faults])
  have heffect : ujp.effect i m.advance = m.advance.jump a := by
    have hresolved : i.address m.advance.labelSlot? = .ok a := haddress
    simp [effect, hresolved]
  rw [heffect]
  simp only [meaning?, haddress, Except.toOption, Option.bind_eq_bind, Option.bind_some]
  have hgo := becomes_onward hrunning
  exact ⟨_, rfl, .update m .., rfl, rfl, rfl, rfl, rfl, fun _ => rfl, hgo.output, hrunning⟩

theorem halt_meaning (i : Instruction ι) (m : Machine ι) :
    ∃ t, halt.meaning? i m = some t ∧ m.Becomes t (halt.effect i m.advance) :=
  ⟨_, rfl, .update m .., rfl, rfl, rfl, rfl, rfl, fun _ => rfl, rfl, rfl⟩

/-- Every operation that passes its checks has the published meaning. -/
theorem effect_meaning (h : m.InOrder) (hrunning : m.running = true) {op : Standard}
    (hpass : op.Passes i m) :
    ∃ t, op.meaning? i m = some t ∧ m.Becomes t (op.effect i m.advance) := by
  cases op with
  | ldc => exact ldc_meaning h hrunning hpass
  | ldo => exact ldo_meaning h hrunning hpass
  | sro => exact sro_meaning h hrunning hpass
  | print => exact print_meaning h hrunning hpass
  | new => exact new_meaning h hrunning hpass
  | enter => exact enter_meaning hrunning hpass
  | ujp => exact ujp_meaning hrunning hpass
  | halt => exact halt_meaning i m

end Standard

namespace Machine

variable [Host ι] {m n : Machine ι}

/-- A step that succeeds does what its instruction is published to do, and no more, on a
machine whose zones are in order. The transfer is computed from the machine before the
step, so overlaps of operands and results are settled by it, and it leads to no other
machine than the one that the step leaves. Except for a jump the counter goes up by one,
and not more than one cell changes. -/
theorem successful_step_has_published_meaning (hrunning : m.running = true) (h : m.InOrder)
    (hstandard : ∀ i, m.current? = some i → i.IsStandard)
    (hstep : Machine.step.run m = .ok () n) :
    ∃ i t, m.current? = some i ∧ i.meaning? m = some t ∧ m.Becomes t n ∧
      (∀ k, m.Becomes t k → k = n) ∧
      (i.operation? ≠ some .ujp →
        n.registers.pc = m.registers.pc + 1 ∧
          (m.store.size < 0x8000000000000000 →
            n.registers.pc.toInt = m.registers.pc.toInt + 1)) ∧
      ∀ j k : Nat, n.memory.cells[j]? ≠ m.memory.cells[j]? →
        n.memory.cells[k]? ≠ m.memory.cells[k]? → j = k := by
  cases hi : m.current? with
  | none => simp [run_step_of_none hrunning hi] at hstep
  | some i =>
      obtain ⟨t, hmeaning, hn⟩ : ∃ t, i.meaning? m = some t ∧ m.Becomes t n := by
        cases hop : i.operation? with
        | none =>
            rw [run_step_of_padding hrunning hi (hstandard i hi) hop] at hstep
            cases hstep
            exact ⟨_, by simp [Instruction.meaning?, hop], becomes_onward hrunning⟩
        | some op =>
            rw [h.run_step_of_operation hrunning hi hop] at hstep
            obtain ⟨hpass, rfl⟩ := Standard.outcome_eq_ok hstep
            rw [Standard.faults_advance] at hpass
            simp only [Instruction.meaning?, hop]
            exact Standard.effect_meaning h hrunning hpass
      refine ⟨i, t, rfl, hmeaning, hn, fun k hk => hk.unique hn, ?_, ?_⟩
      · intro hjump
        have hpc : n.registers.pc = m.registers.pc + 1 := by
          rw [hn.pc]
          exact i.pc_of_meaning? hmeaning hjump
        refine ⟨hpc, fun hsize => ?_⟩
        rw [hpc]
        exact toInt_pc_advance hi hsize
      · intro j k
        exact hn.eq_of_changed

/-- The cell above the top is loaded from itself: the label that an earlier pop has left
in cell one is on the stack again. -/
theorem load_of_cell_above_top :
    let m : Machine Empty :=
      { blank (ι := Empty) ⟨1, 4, 2⟩ with
        store := #[Standard.instruction .ldo (some (.int 1))]
        memory := (Memory.zeros 4).put 1 (.label "left")
        registers := { Registers.initial ⟨1, 4, 2⟩ with sp := 0 } }
    m.running = true ∧ m.InOrder ∧ (∀ i, m.current? = some i → i.IsStandard) ∧
      ∃ n : Machine Empty, Machine.step.run m = .ok () n ∧ n.registers.pc.toInt = 1 ∧
        n.registers.sp.toInt = 1 ∧ n.memory.cells[1]? = some (.label "left") ∧
        n.memory.cells[0]? = m.memory.cells[0]? := by
  intro m
  have horder : m.InOrder := by constructor <;> decide
  have hstandard : ∀ i, m.current? = some i → i.IsStandard := by
    intro i hi
    cases hi
    rfl
  obtain ⟨n, hstep⟩ : ∃ n, Machine.step.run m = .ok () n := ⟨_, rfl⟩
  obtain ⟨i, t, hi, hmeaning, hn, _, hpc, _⟩ :=
    successful_step_has_published_meaning rfl horder hstandard hstep
  cases hi
  cases hmeaning
  obtain ⟨_, hcounter⟩ := hpc (by decide)
  exact ⟨rfl, horder, hstandard, n, hstep, hcounter (by decide), hn.sp, hn.cells 1, hn.cells 0⟩

end Machine

end CellMachine
