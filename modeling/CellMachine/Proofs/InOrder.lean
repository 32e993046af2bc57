import CellMachine.Proofs.Operations

/-!
Machines whose zones are in order: the top of the stack is below the ceiling, the
ceiling not above the heap, and the heap inside memory. There each operation on a
zone has one check of its own and no other way to fail. The cell above the top and
the top cell exist, and the numbers that the operations compute are exact.
-/

namespace CellMachine

variable {ι : Type}

/-- No place of a bank with `size` places has this address. -/
def Word.Outside (a : Word) (size : Nat) : Prop := a.toInt < 0 ∨ (size : Int) ≤ a.toInt

instance (a : Word) (size : Nat) : Decidable (a.Outside size) :=
  inferInstanceAs (Decidable (_ ∨ _))

theorem Word.index?_eq_none_iff {a : Word} {size : Nat} :
    Word.index? a size = none ↔ a.Outside size := by
  unfold Word.index? Word.Outside
  split
  next inside =>
    simp only [reduceCtorEq, false_iff]
    omega
  next outside =>
    simp only [true_iff]
    omega

namespace Memory

/-- The value in the cell at an address. -/
def cell? (m : Memory) (a : Word) : Option Value :=
  (Word.index? a m.cells.size).bind fun i => m.cells[i.val]?

/-- The memory with another value in the cell at an address. -/
def put (m : Memory) (a : Word) (v : Value) : Memory :=
  match Word.index? a m.cells.size with
  | some i => m.set i v
  | none => m

variable {m : Memory} {a : Word}

theorem cell?_eq_none_iff : m.cell? a = none ↔ a.Outside m.size := by
  have hindex : Word.index? a m.cells.size = none ↔ a.Outside m.size :=
    Word.index?_eq_none_iff
  rw [← hindex, cell?]
  cases Word.index? a m.cells.size <;> simp

theorem read_eq (m : Memory) (a : Word) :
    m.read a =
      match m.cell? a with
      | some v => .ok v
      | none => .error (.addressOutOfRange a m.size) := by
  unfold read locate cell?
  cases Word.index? a m.cells.size with
  | none => rfl
  | some i => simp

/-- An address has a cell or is outside memory. -/
theorem locate_cases (m : Memory) (a : Word) :
    a.Outside m.size ∧ m.locate a = .error (.addressOutOfRange a m.size) ∨
      ¬ a.Outside m.size ∧ ∃ i, m.locate a = .ok i ∧ ∀ v, m.put a v = m.set i v := by
  have hindex : Word.index? a m.cells.size = none ↔ a.Outside m.size :=
    Word.index?_eq_none_iff
  rw [← hindex]
  unfold locate put
  cases Word.index? a m.cells.size with
  | none => exact Or.inl ⟨rfl, rfl⟩
  | some i => exact Or.inr ⟨by simp, i, rfl, fun v => rfl⟩

theorem size_put (m : Memory) (a : Word) (v : Value) : (m.put a v).size = m.size := by
  unfold put
  split
  · exact size_set ..
  · rfl

/-- A cell that exists is written, and no other. -/
theorem getElem?_put (h : ¬ a.Outside m.size) (v : Value) (k : Nat) :
    (m.put a v).cells[k]? = if a.toInt = k then some v else m.cells[k]? := by
  unfold put
  cases hindex : Word.index? a m.cells.size with
  | none => exact absurd (Word.index?_eq_none_iff.mp hindex) h
  | some j =>
      have haddress := Word.index?_eq_some_iff.mp hindex
      simp only [set, Array.getElem?_set, haddress, Int.natCast_inj]

end Memory

namespace Machine

theorem run_writeCell_put (a : Word) (v : Value) (m : Machine ι) :
    (writeCell a v).run m =
      if a.Outside m.memory.size then
        .error (.addressOutOfRange a m.memory.size) m
      else
        .ok () { m with memory := m.memory.put a v } := by
  rw [run_writeCell]
  obtain ⟨houtside, hlocate⟩ | ⟨hinside, i, hlocate, hput⟩ := m.memory.locate_cases a
  · rw [hlocate, if_pos houtside]
  · rw [hlocate, if_neg hinside, hput]

theorem run_readCell_of_some {a : Word} {v : Value} {m : Machine ι}
    (h : m.memory.cell? a = some v) : (readCell a).run m = .ok v m := by
  rw [run_readCell, Memory.read_eq, h]

theorem run_readCell_of_none {a : Word} {m : Machine ι} (h : m.memory.cell? a = none) :
    (readCell a).run m = .error (.addressOutOfRange a m.memory.size) m := by
  rw [run_readCell, Memory.read_eq, h]

/-- Stack, free cells and heap follow one another inside memory. -/
structure InOrder (m : Machine ι) : Prop where
  sp_ge : -1 ≤ m.registers.sp.toInt
  sp_lt : m.registers.sp.toInt < m.registers.ep.toInt
  ep_le : m.registers.ep.toInt ≤ m.registers.hp.toInt
  hp_le : m.registers.hp.toInt ≤ m.memory.size

/-- All cells up to the ceiling of the stack exist, and its top is below the ceiling. Where
the heap is does not matter. -/
structure StackFits (m : Machine ι) : Prop where
  sp_ge : -1 ≤ m.registers.sp.toInt
  sp_lt : m.registers.sp.toInt < m.registers.ep.toInt
  ep_le : m.registers.ep.toInt ≤ m.memory.size

theorem InOrder.stackFits {m : Machine ι} (h : m.InOrder) : m.StackFits :=
  ⟨h.sp_ge, h.sp_lt, Int.le_trans h.ep_le h.hp_le⟩

/-- The value on top of the stack. -/
def top? (m : Machine ι) : Option Value := m.memory.cell? m.registers.sp

/-- The machine with one value less on its stack. -/
def popped (m : Machine ι) : Machine ι :=
  { m with registers := { m.registers with sp := m.registers.sp - 1 } }

/-- The machine with one value more on its stack. -/
def pushed (m : Machine ι) (v : Value) : Machine ι :=
  { m with
    memory := m.memory.put (m.registers.sp + 1) v
    registers := { m.registers with sp := m.registers.sp + 1 } }

variable {m : Machine ι}

theorem StackFits.toInt_sp_succ (h : m.StackFits) :
    (m.registers.sp + 1).toInt = m.registers.sp.toInt + 1 := by
  obtain ⟨hlow, hlt, _⟩ := h
  have hceiling := m.registers.ep.fits
  have hone := Word.toInt_one
  unfold Word.Fits at hceiling
  rw [Word.toInt_add, hone]
  unfold Word.Fits
  omega

theorem InOrder.toInt_sp_pred (h : m.InOrder) :
    (m.registers.sp - 1).toInt = m.registers.sp.toInt - 1 := by
  have hlow := h.sp_ge
  have hfits := m.registers.sp.fits
  have hone := Word.toInt_one
  unfold Word.Fits at hfits
  rw [Word.toInt_sub, hone]
  unfold Word.Fits
  omega

/-- A block that does not reach below the ceiling begins at an address. -/
theorem InOrder.toInt_hp_sub (h : m.InOrder) {n : Word} (hn : ¬ n.toInt < 0)
    (hroom : ¬ m.registers.hp.toInt - n.toInt < m.registers.ep.toInt) :
    (m.registers.hp - n).toInt = m.registers.hp.toInt - n.toInt := by
  obtain ⟨hlow, hlt, _, _⟩ := h
  have hhp := m.registers.hp.fits
  unfold Word.Fits at hhp
  apply Word.toInt_sub
  unfold Word.Fits
  omega

theorem InOrder.top?_eq_none_iff (h : m.InOrder) :
    m.top? = none ↔ m.registers.sp.toInt = -1 := by
  obtain ⟨hlow, hlt, hgap, hsize⟩ := h
  rw [top?, Memory.cell?_eq_none_iff]
  unfold Word.Outside
  omega

theorem InOrder.sp_ne_of_some (h : m.InOrder) {v : Value} (htop : m.top? = some v) :
    m.registers.sp.toInt ≠ -1 := by
  intro hempty
  rw [h.top?_eq_none_iff.mpr hempty] at htop
  cases htop

/-- With a value taken from the stack the zones are still in order. -/
theorem InOrder.popped (h : m.InOrder) {v : Value} (htop : m.top? = some v) :
    m.popped.InOrder := by
  have hfilled := h.sp_ne_of_some htop
  have hpred : m.popped.registers.sp.toInt = m.registers.sp.toInt - 1 := h.toInt_sp_pred
  obtain ⟨hlow, hlt, hgap, hsize⟩ := h
  refine ⟨?_, ?_, hgap, hsize⟩
  · omega
  · change m.popped.registers.sp.toInt < m.registers.ep.toInt
    omega

/-- The counter has no part in the order of the zones. -/
theorem InOrder.advance (h : m.InOrder) : m.advance.InOrder :=
  ⟨h.sp_ge, h.sp_lt, h.ep_le, h.hp_le⟩

/-- A push fails only at the ceiling. -/
theorem StackFits.run_push (h : m.StackFits) (v : Value) :
    (push v).run m =
      if m.registers.sp.toInt + 1 = m.registers.ep.toInt then
        .error (.stackOverflow m.registers.sp m.registers.ep m.registers.hp) m
      else
        .ok () (m.pushed v) := by
  have hsucc := h.toInt_sp_succ
  obtain ⟨hlow, hlt, hsize⟩ := h
  have hceiling : m.registers.ep ≤ m.registers.sp + 1 ↔
      m.registers.sp.toInt + 1 = m.registers.ep.toInt := by
    rw [Word.le_iff, hsucc]
    omega
  rw [Machine.run_push]
  by_cases hfull : m.registers.sp.toInt + 1 = m.registers.ep.toInt
  · rw [if_pos (hceiling.mpr hfull), if_pos hfull]
  · rw [if_neg (fun hle => hfull (hceiling.mp hle)), if_neg hfull]
    unfold Memory.locate pushed Memory.put
    cases hindex : Word.index? (m.registers.sp + 1) m.memory.cells.size with
    | none =>
        have houtside := Word.index?_eq_none_iff.mp hindex
        unfold Word.Outside at houtside
        rw [hsucc] at houtside
        change m.registers.ep.toInt ≤ m.memory.cells.size at hsize
        omega
    | some i => rfl

/-- A pop fails on an empty stack. -/
theorem InOrder.run_pop_of_none (h : m.InOrder) (htop : m.top? = none) :
    pop.run m = .error (.stackUnderflow m.registers.sp) m := by
  have hempty := h.top?_eq_none_iff.mp htop
  rw [run_pop, if_pos]
  rw [Word.lt_iff, Word.toInt_zero]
  omega

/-- A pop fails on no other stack. -/
theorem InOrder.run_pop_of_some (h : m.InOrder) {v : Value} (htop : m.top? = some v) :
    pop.run m = .ok v m.popped := by
  have hne := h.sp_ne_of_some htop
  have hlow := h.sp_ge
  have hfilled : ¬ m.registers.sp < 0 := by
    rw [Word.lt_iff, Word.toInt_zero]
    omega
  unfold top? at htop
  rw [run_pop, if_neg hfilled, Memory.read_eq, htop]
  rfl

theorem toInt_sp_seated (m : Machine ι) :
    m.seated.registers.sp.toInt = max m.registers.sp.toInt 0 := by
  unfold seated
  dsimp only
  split
  next hempty =>
    rw [Word.lt_iff, Word.toInt_zero] at hempty
    rw [Word.toInt_zero]
    omega
  next hfilled =>
    rw [Word.lt_iff, Word.toInt_zero] at hfilled
    omega

/-- A frame is refused if it is too small or if it would reach the heap. That it
would reach beyond all addresses is a case of the latter. -/
theorem run_enter_exact (frame : Word) (m : Machine ι) :
    (enter frame).run m =
      if frame.toInt < 1 then
        .error (.invalidFrameSize frame) m
      else if m.registers.hp.toInt ≤ max m.registers.sp.toInt 0 + frame.toInt then
        .error (.stackOverflow m.seated.registers.sp m.registers.ep m.registers.hp) m.seated
      else
        .ok ()
          { m.seated with
            registers := { m.seated.registers with ep := m.seated.registers.sp + frame } } := by
  have hsp := m.toInt_sp_seated
  have hhp := m.registers.hp.fits
  have hfits := frame.fits
  unfold Word.Fits at hhp hfits
  have hsmall : frame < 1 ↔ frame.toInt < 1 := by rw [Word.lt_iff, Word.toInt_one]
  rw [run_enter]
  by_cases hframe : frame.toInt < 1
  · rw [if_pos (hsmall.mpr hframe), if_pos hframe]
  · rw [if_neg (fun hlt => hframe (hsmall.mp hlt)), if_neg hframe]
    cases hceiling : Word.add? m.seated.registers.sp frame with
    | none =>
        have hbeyond := Word.ofInt?_eq_none_iff.mp hceiling
        unfold Word.Fits at hbeyond
        rw [if_pos (by omega)]
    | some ep =>
        have hexact : ep.toInt = m.seated.registers.sp.toInt + frame.toInt :=
          Word.ofInt?_eq_some_iff.mp hceiling
        have hsum : m.seated.registers.sp + frame = ep := by
          apply Word.eq_of_toInt
          rw [Word.toInt_add, hexact]
          rw [← hexact]
          exact ep.fits
        dsimp only
        by_cases hroom : m.registers.hp ≤ ep
        · have hreaches : m.registers.hp.toInt ≤ ep.toInt := hroom
          rw [if_pos hroom, if_pos (by omega)]
        · have hbelow : ¬ m.registers.hp.toInt ≤ ep.toInt := hroom
          rw [if_neg hroom, if_neg (by omega), hsum]

/-- A block is refused only if it would reach below the ceiling, which stands at zero
at least. That there are not so many addresses is a case of this. -/
theorem run_allocate_exact {m : Machine ι} (hep : 0 ≤ m.registers.ep.toInt) (units : Nat) :
    (allocate units).run m =
      if m.registers.hp.toInt - units < m.registers.ep.toInt then
        .error (.outOfMemory units m.registers.ep m.registers.hp) m
      else
        .ok (.ptr (.wrap (m.registers.hp.toInt - units)))
          { m with
            registers := { m.registers with hp := .wrap (m.registers.hp.toInt - units) } } := by
  have hhp := m.registers.hp.fits
  unfold Word.Fits at hhp
  rw [run_allocate]
  by_cases hroom : m.registers.hp.toInt - units < m.registers.ep.toInt
  · rw [if_pos hroom]
    cases hbelow : heapBelow? m.registers.hp units with
    | none => rfl
    | some hp =>
        unfold heapBelow? at hbelow
        obtain ⟨n, hn, hsub⟩ := Option.bind_eq_some_iff.mp hbelow
        have hunits : n.toInt = units := Word.ofInt?_eq_some_iff.mp hn
        have hexact : hp.toInt = m.registers.hp.toInt - n.toInt :=
          Word.ofInt?_eq_some_iff.mp hsub
        dsimp only
        rw [if_pos]
        rw [Word.lt_iff]
        omega
  · rw [if_neg hroom]
    have hfits : Word.Fits (m.registers.hp.toInt - units) := by
      unfold Word.Fits
      omega
    have hexact := Word.toInt_wrap hfits
    have hunits : Word.ofNat? units = some (.wrap units) := by
      apply Word.ofInt?_eq_some_iff.mpr
      exact Word.toInt_wrap_nat (by omega)
    have hbelow : heapBelow? m.registers.hp units =
        some (.wrap (m.registers.hp.toInt - units)) := by
      unfold heapBelow?
      rw [hunits]
      apply Word.ofInt?_eq_some_iff.mpr
      rw [hexact, Word.toInt_wrap_nat (by omega)]
    rw [hbelow]
    dsimp only
    rw [if_neg]
    rw [Word.lt_iff, hexact]
    exact hroom

end Machine

end CellMachine
