import CellMachine.Proofs.Layout

/-!
Whether stack and heap can share a cell. With at least one cell reserved for the
stack they never do. Without any, an empty stack that is seated for a frame takes
cell zero even if the frame is then refused, and the heap may take that cell too.
-/

namespace CellMachine.Machine

variable {ι : Type} {c : Config} {m : Machine ι}

/-- The cells of the stack. -/
def InStack (m : Machine ι) (a : Int) : Prop := 0 ≤ a ∧ a ≤ m.registers.sp.toInt

/-- The cells of the heap. -/
def InHeap (m : Machine ι) (a : Int) : Prop := m.registers.hp.toInt ≤ a ∧ a < m.memory.size

/-- The registers pass the check of the layout, and no cell belongs to both zones. -/
structure ZonesApart (m : Machine ι) : Prop where
  consistent : m.registers.Consistent m.memory.size
  disjoint : ∀ a, ¬ (m.InStack a ∧ m.InHeap a)

/-- A ceiling that once was above cell zero stays above the stack. -/
theorem LaidOut.zonesApart (hc : c.flaw? = none) (h : m.LaidOut c)
    (hreserved : 0 < c.maxStack) : m.ZonesApart := by
  obtain ⟨_, _, hword, _⟩ := c.flaw?_eq_none_iff.mp hc
  obtain ⟨_, htop, _, hgap, hsize, hzero⟩ := h.registers
  have hlt : m.registers.sp.toInt < m.registers.ep.toInt := by
    rcases htop with hbelow | ⟨_, hep⟩
    · exact hbelow
    · have hnone := hzero hep
      omega
  have hinside : m.registers.hp ≤ Word.wrap m.memory.size := by
    rw [Word.le_iff, h.memory_size, Word.toInt_wrap_nat hword]
    exact hsize
  refine ⟨⟨hlt, hgap, hinside⟩, ?_⟩
  rintro a ⟨⟨_, hstack⟩, ⟨hheap, _⟩⟩
  omega

/-- The largest frame never fits, but an empty stack is seated before that shows. -/
theorem state_enter_largest (h : m.LaidOut c) (hc : c.flaw? = none)
    (hempty : m.registers.sp.toInt = -1) {frame : Word}
    (hframe : frame.toInt = 0x7fffffffffffffff) :
    (enter frame).state m = m.seated := by
  obtain ⟨_, _, hword, _⟩ := c.flaw?_eq_none_iff.mp hc
  have hhp := h.registers.hp_le
  have hlarge : ¬ frame < 1 := by
    rw [Word.lt_iff, Word.toInt_one]
    omega
  have hseated : m.seated.registers.sp = 0 := by
    unfold Machine.seated
    dsimp only
    rw [if_pos]
    rw [Word.lt_iff, Word.toInt_zero]
    omega
  have hceiling : Word.add? m.seated.registers.sp frame = some frame := by
    rw [hseated]
    apply Word.ofInt?_eq_some_iff.mpr
    rw [Word.toInt_zero]
    omega
  have hroom : m.registers.hp ≤ frame := by
    rw [Word.le_iff]
    omega
  rw [Attempt.state_eq, run_enter, if_neg hlarge, hceiling]
  dsimp only
  rw [if_pos hroom]

/-- The heap may take every cell down to a ceiling of zero. -/
theorem state_allocate_everything (hc : c.flaw? = none)
    (hep : m.registers.ep.toInt = 0) (hhp : m.registers.hp.toInt = c.memorySize) :
    (allocate c.memorySize).state m =
      { m with registers := { m.registers with hp := 0 } } := by
  obtain ⟨_, _, hword, _⟩ := c.flaw?_eq_none_iff.mp hc
  have hunits : Word.ofNat? c.memorySize = some m.registers.hp := by
    apply Word.ofInt?_eq_some_iff.mpr
    exact hhp
  have hbelow : heapBelow? m.registers.hp c.memorySize = some 0 := by
    unfold heapBelow?
    rw [hunits]
    apply Word.ofInt?_eq_some_iff.mpr
    rw [Word.toInt_zero]
    omega
  have hroom : ¬ (0 : Word) < m.registers.ep := by
    rw [Word.lt_iff, Word.toInt_zero]
    omega
  rw [Attempt.state_eq, run_allocate, hbelow]
  dsimp only
  rw [if_neg hroom]

/-- Without a reserved stack the largest frame seats the stack on cell zero, and
the heap may then take that cell as well. -/
theorem zones_meet_without_stack [Host ι] (hc : c.flaw? = none) (hnone : c.maxStack = 0)
    (h : m.LaidOut c) (hstart : m.registers = .initial c) :
    ∃ frame : Word,
      let n := m.after [.call (.enter frame), .call (.allocate c.memorySize)]
      ¬ n.registers.sp < n.registers.ep ∧ n.InStack 0 ∧ n.InHeap 0 := by
  obtain ⟨_, hmemory, hword, _⟩ := c.flaw?_eq_none_iff.mp hc
  have hsp : m.registers.sp.toInt = -1 := by
    rw [hstart]
    exact Word.toInt_neg_one
  have hep : m.registers.ep.toInt = 0 := by
    rw [hstart]
    exact (Word.toInt_wrap_nat (by omega)).trans (by omega)
  have hhp : m.registers.hp.toInt = c.memorySize := by
    rw [hstart]
    exact Word.toInt_wrap_nat hword
  have hseated : m.seated.registers.sp.toInt = 0 := by
    unfold Machine.seated
    dsimp only
    rw [if_pos (by rw [Word.lt_iff, Word.toInt_zero]; omega)]
    exact Word.toInt_zero
  let frame : Word := ⟨0x7fffffffffffffff, by decide⟩
  have hfirst : (Operation.call (.enter frame)).apply m = m.seated :=
    state_enter_largest h hc hsp rfl
  have hsecond : (Operation.call (.allocate c.memorySize)).apply m.seated =
      { m.seated with registers := { m.seated.registers with hp := 0 } } := by
    change (allocate c.memorySize).state m.seated = _
    exact state_allocate_everything hc hep hhp
  refine ⟨frame, ?_⟩
  rw [after_cons, hfirst, after_cons, hsecond, after_nil]
  refine ⟨?_, ⟨Int.le_refl 0, ?_⟩, ⟨Int.le_of_eq Word.toInt_zero, ?_⟩⟩
  · rw [Word.lt_iff]
    change ¬ m.seated.registers.sp.toInt < m.registers.ep.toInt
    omega
  · exact Int.le_of_eq hseated.symm
  · change (0 : Int) < m.memory.size
    rw [h.memory_size]
    omega

/-- Stack and heap are kept apart exactly where a stack was reserved. In every
history the ceiling is not above the heap, and `sp < ep` can fail at zero only;
with at least one cell reserved it never fails, and with none there is a history
in which it does and one cell belongs to both zones. So the check of the layout
holds throughout exactly where a stack was reserved. -/
theorem zones_apart_iff_stack_reserved [Host ι] (c : Config) (hc : c.flaw? = none) :
    ∃ m : Machine ι, create c = .ok m ∧
      (∀ ops : List (Operation ι), (∀ op ∈ ops, op.Orderly) →
        let r := (m.after ops).registers
        r.ep ≤ r.hp ∧ (r.sp < r.ep ∨ r.sp.toInt = 0 ∧ r.ep.toInt = 0)) ∧
      (0 < c.maxStack ↔
        ∀ ops : List (Operation ι), (∀ op ∈ ops, op.Orderly) → (m.after ops).ZonesApart) ∧
      (0 < c.maxStack ↔
        ∀ ops : List (Operation ι), (∀ op ∈ ops, op.Orderly) →
          (m.after ops).registers.Consistent (m.after ops).memory.size) ∧
      (c.maxStack = 0 ↔
        ∃ ops : List (Operation ι), (∀ op ∈ ops, op.Orderly) ∧
          ∃ a, (m.after ops).InStack a ∧ (m.after ops).InHeap a) := by
  obtain ⟨m, hcreate, hstart, hm, hstandard⟩ := create_laidOut (ι := ι) hc
  have hall := laidOut_after hc hm hstandard
  have hmeet (hnone : c.maxStack = 0) :
      ∃ ops : List (Operation ι), (∀ op ∈ ops, op.Orderly) ∧
        ¬ (m.after ops).registers.sp < (m.after ops).registers.ep ∧
        (m.after ops).InStack 0 ∧ (m.after ops).InHeap 0 := by
    obtain ⟨frame, hfinal⟩ := zones_meet_without_stack hc hnone hm hstart
    refine ⟨_, ?_, hfinal⟩
    intro op member
    simp only [List.mem_cons, List.not_mem_nil, or_false] at member
    rcases member with rfl | rfl <;> trivial
  have hapart (hreserved : 0 < c.maxStack) (ops : List (Operation ι))
      (hops : ∀ op ∈ ops, op.Orderly) : (m.after ops).ZonesApart :=
    (hall ops hops).zonesApart hc hreserved
  have hreserved (hcheck : ∀ ops : List (Operation ι), (∀ op ∈ ops, op.Orderly) →
      (m.after ops).registers.Consistent (m.after ops).memory.size) : 0 < c.maxStack := by
    apply Nat.pos_of_ne_zero
    intro hnone
    obtain ⟨ops, hops, hfail, _⟩ := hmeet hnone
    exact hfail (hcheck ops hops).1
  refine ⟨m, hcreate, ?_, ⟨hapart, ?_⟩, ⟨?_, hreserved⟩, ⟨?_, ?_⟩⟩
  · intro ops hops
    have hn := (hall ops hops).registers
    exact ⟨hn.ep_le, hn.sp_lt⟩
  · intro hall
    exact hreserved fun ops hops => (hall ops hops).consistent
  · intro hpos ops hops
    exact (hapart hpos ops hops).consistent
  · intro hnone
    obtain ⟨ops, hops, _, hshared⟩ := hmeet hnone
    exact ⟨ops, hops, 0, hshared⟩
  · rintro ⟨ops, hops, a, hshared⟩
    rcases Nat.eq_zero_or_pos c.maxStack with hnone | hpos
    · exact hnone
    · exact absurd hshared ((hapart hpos ops hops).disjoint a)

/-- With one cell of memory and no stack, that cell ends up in both zones. -/
theorem zones_meet_on_single_cell :
    (Config.mk 1 1 0).flaw? = none ∧
      ∃ m : Machine Empty, create ⟨1, 1, 0⟩ = .ok m ∧
        ∃ ops : List (Operation Empty), (∀ op ∈ ops, op.Orderly) ∧
          ∃ a, (m.after ops).InStack a ∧ (m.after ops).InHeap a := by
  refine ⟨by decide, ?_⟩
  obtain ⟨m, hcreate, _, _, _, hmeet⟩ := zones_apart_iff_stack_reserved (ι := Empty)
    ⟨1, 1, 0⟩ (by decide)
  exact ⟨m, hcreate, hmeet.mp rfl⟩

end CellMachine.Machine
