import CellMachine.Proofs.ClientHistories
import CellMachine.Snapshot

/-!
The sizes of stack and heap, read off a machine and off its snapshot. Both are computed from
the registers. The two sizes of the heap take different ways where the heap pointer is
negative: the machine shows all of memory, and the snapshot nothing. No operation gets the
pointer there unless registers have been written directly.
-/

namespace CellMachine

variable {ι : Type}

/-- The depth is exact as long as the top has a next address. -/
theorem Registers.stackDepth_eq {r : Registers} (h : r.sp.toInt < 0x7fffffffffffffff) :
    r.stackDepth = (r.sp.toInt + 1).toNat := by
  have hfits := r.sp.fits
  have hnext : (r.sp + 1).toInt = r.sp.toInt + 1 := by
    apply Word.toInt_add
    rw [Word.toInt_one]
    unfold Word.Fits at hfits ⊢
    omega
  rw [stackDepth, hnext]

namespace Machine

variable {m : Machine ι} {c : Config}

theorem heapSize_eq_sub (m : Machine ι) :
    m.heapSize = m.memory.size - m.registers.hp.toInt.toNat := by
  simp [heapSize, heap, Memory.size]

theorem heapSize_of_neg (h : m.registers.hp.toInt < 0) : m.heapSize = m.memory.size := by
  rw [heapSize_eq_sub, Int.toNat_of_nonpos (Int.le_of_lt h), Nat.sub_zero]

theorem heapSize_snapshot_of_neg (h : m.registers.hp.toInt < 0) : m.snapshot.heapSize = 0 :=
  if_pos h

/-- From zero on, beyond the end of memory as well, both sizes are the cells that are left
above the pointer. -/
theorem heapSize_snapshot_of_nonneg (h : 0 ≤ m.registers.hp.toInt) :
    m.snapshot.heapSize = m.heapSize := by
  rw [heapSize_eq_sub]
  exact if_neg (Int.not_lt.mpr h)

theorem heapSize_snapshot_iff (m : Machine ι) :
    m.snapshot.heapSize = m.heapSize ↔ 0 ≤ m.registers.hp.toInt ∨ m.memory.size = 0 := by
  by_cases hneg : m.registers.hp.toInt < 0
  · rw [heapSize_of_neg hneg, heapSize_snapshot_of_neg hneg]
    omega
  · have hnonneg : 0 ≤ m.registers.hp.toInt := Int.not_lt.mp hneg
    exact iff_of_true (heapSize_snapshot_of_nonneg hnonneg) (Or.inl hnonneg)

/-- In a laid out machine the heap has all cells from the pointer to the end. -/
theorem LaidOut.heapSizes (h : m.LaidOut c) :
    m.snapshot.heapSize = m.heapSize ∧
      (m.heapSize : Int) = c.memorySize - m.registers.hp.toInt := by
  have hlow := h.registers.ep_ge
  have hgap := h.registers.ep_le
  have hhigh := h.registers.hp_le
  refine ⟨heapSize_snapshot_of_nonneg (by omega), ?_⟩
  rw [heapSize_eq_sub, h.memory_size]
  omega

variable [ClientHost ι]

/-- A snapshot has the sizes of the machine that it was taken of, with one exception. For
every machine in any state the depths of the stack are the same. The sizes of the heap are the
same exactly if the heap pointer is not negative or memory has no cells; where it is negative,
the machine says that all of memory is heap and the snapshot that there is no heap. A machine
that was made from a configuration has cells, so in all of its histories, with registers
written by the host or by instructions, the sign of the pointer decides. In histories since a
start in which no register is written directly the two sizes always are the same, namely the
number of cells from the heap pointer to the end of memory. -/
theorem heap_sizes_differ_below_zero (m : Machine ι) :
    m.snapshot.stackDepth = m.registers.stackDepth ∧
      (m.registers.sp.toInt < 0x7fffffffffffffff →
        m.snapshot.stackDepth = (m.registers.sp.toInt + 1).toNat) ∧
      (m.snapshot.heapSize = m.heapSize ↔
        0 ≤ m.registers.hp.toInt ∨ m.memory.size = 0) ∧
      (m.registers.hp.toInt < 0 →
        m.heapSize = m.memory.size ∧ m.snapshot.heapSize = 0) ∧
      (∀ c : Config, create c = .ok m → ∀ ops : List (Operation ι),
        let n := m.after ops
        (n.snapshot.heapSize = n.heapSize ↔ 0 ≤ n.registers.hp.toInt)) ∧
      (∀ c : Config, c.flaw? = none → m.Starts c → ClientHost.Indirect ι →
        ∀ ops : List (Operation ι), (∀ op ∈ ops, op.Indirect) →
          let n := m.after ops
          n.snapshot.heapSize = n.heapSize ∧
            (n.heapSize : Int) = c.memorySize - n.registers.hp.toInt) := by
  refine ⟨rfl, Registers.stackDepth_eq, m.heapSize_snapshot_iff,
    fun hneg => ⟨heapSize_of_neg hneg, heapSize_snapshot_of_neg hneg⟩, ?_, ?_⟩
  · intro c hm ops n
    obtain ⟨hc, _⟩ := create_ok_iff.mp hm
    obtain ⟨_, hmemory, _⟩ := sizes_after hc hm ops
    obtain ⟨_, hcells, _⟩ := c.flaw?_eq_none_iff.mp hc
    rw [n.heapSize_snapshot_iff, hmemory]
    omega
  · intro c hc hstarts hhost ops hops n
    have hlaid : n.LaidOut c := by
      refine (laidOut_upheld hc hhost).after ops ?_ m (hstarts.laidOut hc).1
      intro k member
      exact hops (.call k) member
    exact hlaid.heapSizes

/-- After an allocation of two cells both sizes are two. With the pointer below memory the
machine has a heap of four cells, and its snapshot none. -/
theorem snapshot_misses_heap_below_zero :
    let taken : List (Operation Empty) := [.call (.allocate 2)]
    let moved : List (Operation Empty) := [.call (.setRegisters ⟨0, 0, 0, 1, -1⟩)]
    ∃ m : Machine Empty, create ⟨3, 4, 1⟩ = .ok m ∧ m.Starts ⟨3, 4, 1⟩ ∧
      ClientHost.Indirect Empty ∧ (∀ op ∈ taken, op.Indirect) ∧
      (m.after taken).snapshot.heapSize = (m.after taken).heapSize ∧
      (m.after taken).heapSize = 2 ∧
      (m.after moved).registers.hp.toInt < 0 ∧
      (m.after moved).heapSize = 4 ∧ (m.after moved).snapshot.heapSize = 0 ∧
      (m.after moved).snapshot.stackDepth = 1 := by
  intro taken moved
  obtain ⟨m, hm, hhp, hmoved, hsize⟩ : ∃ m : Machine Empty, create ⟨3, 4, 1⟩ = .ok m ∧
      (m.after taken).registers.hp.toInt = 2 ∧
      (m.after moved).registers = ⟨0, 0, 0, 1, -1⟩ ∧ (m.after moved).memory.size = 4 :=
    ⟨_, rfl, rfl, rfl, rfl⟩
  have hstarts := Starts.fresh hm
  have hhost : ClientHost.Indirect Empty := fun op => op.elim
  have htaken : ∀ op ∈ taken, op.Indirect := by
    intro op member
    rw [List.mem_singleton.mp member]
    trivial
  obtain ⟨_, _, _, _, _, hindirect⟩ := heap_sizes_differ_below_zero m
  obtain ⟨hsame, hcells⟩ := hindirect ⟨3, 4, 1⟩ (by decide) hstarts hhost taken htaken
  obtain ⟨_, hdepth, _, hneg, _, _⟩ := heap_sizes_differ_below_zero (m.after moved)
  have htwo : ((m.after taken).heapSize : Int) = 4 - 2 := hhp ▸ hcells
  rw [hmoved] at hdepth hneg
  obtain ⟨hall, hnone⟩ := hneg (by decide)
  exact ⟨m, hm, hstarts, hhost, htaken, hsame, by omega, by rw [hmoved]; decide,
    hall.trans hsize, hnone, hdepth (by decide)⟩

end Machine

end CellMachine
