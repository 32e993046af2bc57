import CellMachine.Proofs.Operations

/-!
The layout of memory over whole histories: the stack from cell zero, above it the
free cells up to the ceiling, above that the heap. The invariant is kept by every
operation that does not write registers directly, whether it succeeds or fails.
A stack for which nothing was reserved is the one exception to `sp < ep`.
-/

namespace CellMachine

variable {ι : Type}

theorem Config.flaw?_eq_none_iff (c : Config) :
    c.flaw? = none ↔
      0 < c.storeSize ∧ 0 < c.memorySize ∧ c.memorySize < 0x8000000000000000 ∧
        c.maxStack ≤ c.memorySize := by
  have haddressable : (Word.ofNat? c.memorySize).isNone = true ↔
      ¬ c.memorySize < 0x8000000000000000 := by
    rw [Option.isNone_iff_eq_none, Word.ofNat?, Word.ofInt?_eq_none_iff]
    unfold Word.Fits
    omega
  -- The checks are made in order, and each has to let the configuration pass.
  have hcheck {p : Prop} [Decidable p] {flaw : Config.Flaw} {rest : Option Config.Flaw} :
      (if p then some flaw else rest) = none ↔ ¬ p ∧ rest = none := by
    by_cases hp : p <;> simp [hp]
  rw [Config.flaw?, hcheck, hcheck, hcheck, hcheck, haddressable]
  simp only [and_true]
  omega

/-- The registers divide a memory of the configured size into stack, free cells
and heap. The ceiling is zero only where no stack was reserved, and only there
can the top cell stand at the ceiling. -/
structure Registers.Divide (r : Registers) (c : Config) : Prop where
  sp_ge : -1 ≤ r.sp.toInt
  sp_lt : r.sp.toInt < r.ep.toInt ∨ r.sp.toInt = 0 ∧ r.ep.toInt = 0
  ep_ge : 0 ≤ r.ep.toInt
  ep_le : r.ep.toInt ≤ r.hp.toInt
  hp_le : r.hp.toInt ≤ c.memorySize
  reserved : r.ep.toInt = 0 → c.maxStack = 0

/-- A machine of this configuration whose registers divide its memory. -/
structure Machine.LaidOut (c : Config) (m : Machine ι) : Prop where
  config : m.config = c
  registers : m.registers.Divide c
  memory_size : m.memory.size = c.memorySize
  store_size : m.store.size = c.storeSize

namespace Registers

variable {c : Config} {r : Registers}

theorem toInt_ep_initial (hc : c.flaw? = none) : (initial c).ep.toInt = c.maxStack := by
  obtain ⟨_, _, hword, hstack⟩ := c.flaw?_eq_none_iff.mp hc
  exact Word.toInt_wrap_nat (by omega)

theorem toInt_hp_initial (hc : c.flaw? = none) : (initial c).hp.toInt = c.memorySize := by
  obtain ⟨_, _, hword, _⟩ := c.flaw?_eq_none_iff.mp hc
  exact Word.toInt_wrap_nat hword

theorem initial_divide (hc : c.flaw? = none) : (initial c).Divide c := by
  obtain ⟨_, _, _, hstack⟩ := c.flaw?_eq_none_iff.mp hc
  have hep := toInt_ep_initial hc
  have hhp := toInt_hp_initial hc
  have hsp : (initial c).sp.toInt = -1 := Word.toInt_neg_one
  constructor <;> omega

/-- The top of the stack has a next cell address, although it may not be free. -/
theorem Divide.toInt_sp_succ (hc : c.flaw? = none) (h : r.Divide c) :
    (r.sp + 1).toInt = r.sp.toInt + 1 := by
  obtain ⟨_, _, hword, _⟩ := c.flaw?_eq_none_iff.mp hc
  have hone := Word.toInt_one
  have hlow := h.sp_ge
  have hhigh := h.sp_lt
  have hep := h.ep_le
  have hhp := h.hp_le
  rw [Word.toInt_add, hone]
  unfold Word.Fits
  rw [hone]
  omega

theorem Divide.toInt_sp_pred (h : r.Divide c) :
    (r.sp - 1).toInt = r.sp.toInt - 1 := by
  have hone := Word.toInt_one
  have hlow := h.sp_ge
  have hfits := r.sp.fits
  rw [Word.toInt_sub, hone]
  unfold Word.Fits at hfits ⊢
  rw [hone]
  omega

theorem Divide.push (hc : c.flaw? = none) (h : r.Divide c)
    (hroom : ¬ r.ep ≤ r.sp + 1) : { r with sp := r.sp + 1 }.Divide c := by
  have hsucc := h.toInt_sp_succ hc
  rw [Word.le_iff] at hroom
  obtain ⟨hlow, _, hep, hgap, hhp, hreserved⟩ := h
  exact ⟨by dsimp only; omega, by dsimp only; omega, hep, hgap, hhp, hreserved⟩

theorem Divide.pop (h : r.Divide c) (hfilled : ¬ r.sp < 0) :
    { r with sp := r.sp - 1 }.Divide c := by
  have hpred := h.toInt_sp_pred
  rw [Word.lt_iff, Word.toInt_zero] at hfilled
  obtain ⟨_, htop, hep, hgap, hhp, hreserved⟩ := h
  exact ⟨by dsimp only; omega, by dsimp only; omega, hep, hgap, hhp, hreserved⟩

theorem Divide.allocate {units : Nat} {hp : Word} (h : r.Divide c)
    (hbelow : Machine.heapBelow? r.hp units = some hp) (hroom : ¬ hp < r.ep) :
    { r with hp }.Divide c := by
  unfold Machine.heapBelow? at hbelow
  obtain ⟨n, hn, hsub⟩ := Option.bind_eq_some_iff.mp hbelow
  have hunits : n.toInt = units := Word.ofInt?_eq_some_iff.mp hn
  have hexact : hp.toInt = r.hp.toInt - n.toInt := Word.ofInt?_eq_some_iff.mp hsub
  rw [Word.lt_iff] at hroom
  obtain ⟨hlow, htop, hep, _, hhp, hreserved⟩ := h
  exact ⟨hlow, htop, hep, by dsimp only; omega, by dsimp only; omega, hreserved⟩

theorem Divide.seat (h : r.Divide c) :
    { r with sp := if r.sp < 0 then 0 else r.sp }.Divide c := by
  obtain ⟨hlow, htop, hep, hgap, hhp, hreserved⟩ := h
  by_cases hempty : r.sp < 0
  · rw [if_pos hempty]
    have hzero := Word.toInt_zero
    exact ⟨by dsimp only; omega, by dsimp only; omega, hep, hgap, hhp, hreserved⟩
  · rw [if_neg hempty]
    exact ⟨hlow, htop, hep, hgap, hhp, hreserved⟩

/-- The new ceiling is above the top because a frame has at least one cell. -/
theorem Divide.enter {frame ep : Word} (h : r.Divide c) (hseated : ¬ r.sp < 0)
    (hframe : ¬ frame < 1) (hep : Word.add? r.sp frame = some ep) (hroom : ¬ r.hp ≤ ep) :
    { r with ep }.Divide c := by
  have hexact : ep.toInt = r.sp.toInt + frame.toInt := Word.ofInt?_eq_some_iff.mp hep
  rw [Word.lt_iff, Word.toInt_zero] at hseated
  rw [Word.lt_iff, Word.toInt_one] at hframe
  rw [Word.le_iff] at hroom
  exact ⟨h.sp_ge, Or.inl (by dsimp only; omega), by dsimp only; omega,
    by dsimp only; omega, h.hp_le, fun hzero => by dsimp only at hzero; omega⟩

end Registers

namespace Memory

open Attempt

theorem write_keeps_size (n : Nat) (address : Word) (v : Value) :
    Preserves (fun m : Memory => m.size = n) (write address v) := by
  intro m hm
  cases hlocate : m.locate address with
  | ok i =>
      have hrun : (write address v).run m = .ok () (m.set i v) := by
        simp only [write, EStateM.run, hlocate]
      rw [state_eq, hrun]
      exact (size_set m i v).trans hm
  | error f =>
      have hrun : (write address v).run m = .error f m := by
        simp only [write, EStateM.run, hlocate]
      rw [state_eq, hrun]
      exact hm

theorem sow_keeps_size (n : Nat) (seeds : List Seed) :
    Preserves (fun m : Memory => m.size = n) (sow seeds) := by
  unfold sow
  induction seeds with
  | nil => exact preserves_pure _ _
  | cons seed rest ih =>
      change Preserves _ (write seed.address seed.value >>= fun _ => _)
      exact Preserves.bind (write_keeps_size n _ _) fun _ => ih

end Memory

namespace Machine

variable {c : Config} {m : Machine ι}

theorem size_restart (m : Machine ι) : m.restart.memory.size = m.memory.size :=
  Memory.sow_keeps_size m.memory.size m.overlay m.memory.clear (Memory.size_clear m.memory)

/-- Everything that starts the machine lays it out, whatever its registers were. -/
theorem laidOut_restart (hc : c.flaw? = none) (hconfig : m.config = c)
    (hmemory : m.memory.size = c.memorySize) (hstore : m.store.size = c.storeSize) :
    m.restart.LaidOut c where
  config := hconfig
  registers := by
    change (Registers.initial m.config).Divide c
    rw [hconfig]
    exact Registers.initial_divide hc
  memory_size := (size_restart m).trans hmemory
  store_size := hstore

theorem create_laidOut (hc : c.flaw? = none) :
    ∃ m : Machine ι, create c = .ok m ∧ m.registers = .initial c ∧ m.LaidOut c ∧
      m.IsStandard := by
  refine ⟨blank c, create_ok_iff.mpr ⟨hc, rfl⟩, rfl,
    laidOut_restart hc rfl (Memory.size_zeros _) (Array.size_replicate ..), ?_⟩
  intro i member
  obtain ⟨_, rfl⟩ := Array.mem_replicate.mp member
  rfl

theorem size_padded {p : Program ι} {capacity : Nat} (h : p.length ≤ capacity) :
    (p.padded capacity).size = capacity := by
  unfold Program.length at h
  simp only [Program.padded, Program.length, List.size_toArray, List.length_append,
    List.length_replicate]
  omega

theorem LaidOut.load (hc : c.flaw? = none) (h : m.LaidOut c) {p : Program ι}
    {n : Machine ι} (hload : m.load p = .ok n) : n.LaidOut c := by
  obtain ⟨hfits, rfl⟩ := load_ok hload
  refine laidOut_restart hc h.config h.memory_size ?_
  rw [← h.config]
  exact size_padded hfits

theorem LaidOut.toggleBreakpoint (h : m.LaidOut c) {slot : Nat} {marked : Bool}
    {n : Machine ι} (htoggle : m.toggleBreakpoint slot = .ok (marked, n)) :
    n.LaidOut c := by
  obtain ⟨i, _, rfl⟩ := toggleBreakpoint_ok htoggle
  exact ⟨h.config, h.registers, h.memory_size,
    (Array.size_setIfInBounds ..).trans h.store_size⟩

theorem LaidOut.setRegisters (h : m.LaidOut c) {r : Registers} (hr : r.Divide c) :
    { m with registers := r }.LaidOut c :=
  ⟨h.config, hr, h.memory_size, h.store_size⟩

theorem LaidOut.setCell (h : m.LaidOut c) (i : Fin m.memory.cells.size) (v : Value) :
    { m with memory := m.memory.set i v }.LaidOut c :=
  ⟨h.config, h.registers, (Memory.size_set m.memory i v).trans h.memory_size, h.store_size⟩

theorem LaidOut.seated (h : m.LaidOut c) : m.seated.LaidOut c :=
  h.setRegisters h.registers.seat

theorem seated_sp_nonneg (m : Machine ι) : ¬ m.seated.registers.sp < 0 := by
  unfold Machine.seated
  dsimp only
  by_cases hempty : m.registers.sp < 0
  · rw [if_pos hempty, Word.lt_iff]
    omega
  · rwa [if_neg hempty]

/-- Every call that writes no register directly keeps the layout, and so does
what is left of it when it fails. -/
theorem LaidOut.call (hc : c.flaw? = none) {k : Call ι} (hk : k.Indirect)
    (h : m.LaidOut c) : (k.apply m).LaidOut c := by
  cases k with
  | load p =>
      obtain hload | ⟨_, _, hsame⟩ := Call.apply_load_cases p m
      · exact h.load hc hload
      · rwa [hsame]
  | toggleBreakpoint slot =>
      obtain ⟨_, htoggle⟩ | ⟨_, _, hsame⟩ := Call.apply_toggleBreakpoint_cases slot m
      · exact h.toggleBreakpoint htoggle
      · rwa [hsame]
  | setRegisters r => exact hk.elim
  | restart => exact laidOut_restart hc h.config h.memory_size h.store_size
  | halt => exact ⟨h.config, h.registers, h.memory_size, h.store_size⟩
  | print v => exact ⟨h.config, h.registers, h.memory_size, h.store_size⟩
  | drain => exact ⟨h.config, h.registers, h.memory_size, h.store_size⟩
  | peek =>
      change (peek.state m).LaidOut c
      rwa [state_peek]
  | readCell address =>
      change ((readCell address).state m).LaidOut c
      rwa [state_readCell]
  | push v =>
      change ((push v).state m).LaidOut c
      obtain hsame | ⟨i, hroom, _, hpushed⟩ := state_push_cases v m
      · rwa [hsame]
      · rw [hpushed]
        exact (h.setCell i v).setRegisters (h.registers.push hc hroom)
  | pop =>
      change (pop.state m).LaidOut c
      obtain hsame | ⟨hfilled, hpopped⟩ := state_pop_cases m
      · rwa [hsame]
      · rw [hpopped]
        exact h.setRegisters (h.registers.pop hfilled)
  | allocate units =>
      change ((allocate units).state m).LaidOut c
      obtain hsame | ⟨hp, hbelow, hroom, htaken⟩ := state_allocate_cases units m
      · rwa [hsame]
      · rw [htaken]
        exact h.setRegisters (h.registers.allocate hbelow hroom)
  | enter frame =>
      change ((enter frame).state m).LaidOut c
      obtain hsame | hseated | ⟨ep, hframe, hep, hroom, hentered⟩ :=
        state_enter_cases frame m
      · rwa [hsame]
      · rw [hseated]
        exact h.seated
      · rw [hentered]
        exact h.seated.setRegisters
          (h.seated.registers.enter (seated_sp_nonneg m) hframe hep hroom)
  | writeCell address v =>
      change ((writeCell address v).state m).LaidOut c
      obtain hsame | ⟨i, _, hwritten⟩ := state_writeCell_cases address v m
      · rwa [hsame]
      · rw [hwritten]
        exact h.setCell i v

theorem laidOut_enduring (hc : c.flaw? = none) :
    Enduring (fun m : Machine ι => m.LaidOut c) where
  call _ hk _ hm := hm.call hc hk.indirect
  jump _ _ hm := hm.setRegisters
    ⟨hm.registers.sp_ge, hm.registers.sp_lt, hm.registers.ep_ge, hm.registers.ep_le,
      hm.registers.hp_le, hm.registers.reserved⟩

/-- The invariant of an orderly history. That the store holds standard
instructions only is part of it, since a step runs what the store holds. -/
theorem laidOut_after [Host ι] (hc : c.flaw? = none) (hm : m.LaidOut c)
    (hstandard : m.IsStandard) (ops : List (Operation ι))
    (hops : ∀ op ∈ ops, op.Orderly) : (m.after ops).LaidOut c := by
  have hboth : (m.after ops).LaidOut c ∧ (m.after ops).IsStandard := by
    refine after_induction (P := fun m => m.LaidOut c ∧ m.IsStandard)
      ?_ ops hops m ⟨hm, hstandard⟩
    rintro op hop n ⟨hn, hns⟩
    refine ⟨?_, isStandard_apply hop hns⟩
    cases op with
    | call k => exact hn.call hc (Call.Orderly.indirect hop)
    | step => exact (laidOut_enduring hc).step hns hn
  exact hboth.1

/-- In every history of a machine without a flaw, stack, free cells and heap lie
in memory in this order, and neither bank changes its size. -/
theorem layout_after_any_history [Host ι] (c : Config) (hc : c.flaw? = none) :
    ∃ m : Machine ι, create c = .ok m ∧
      ∀ ops : List (Operation ι), (∀ op ∈ ops, op.Orderly) →
        let n := m.after ops
        let r := n.registers
        (-1 ≤ r.sp.toInt ∧ r.sp.toInt < c.memorySize) ∧
          (0 ≤ r.ep.toInt ∧ r.ep.toInt ≤ r.hp.toInt ∧ r.hp.toInt ≤ c.memorySize) ∧
          (1 ≤ r.ep.toInt → r.sp.toInt < r.ep.toInt) ∧
          n.memory.size = c.memorySize ∧ n.store.size = c.storeSize := by
  obtain ⟨m, hcreate, _, hm, hstandard⟩ := create_laidOut (ι := ι) hc
  obtain ⟨_, hmemory, _, _⟩ := c.flaw?_eq_none_iff.mp hc
  refine ⟨m, hcreate, ?_⟩
  intro ops hops
  have hn := laidOut_after hc hm hstandard ops hops
  obtain ⟨hlow, htop, hep, hgap, hhp, _⟩ := hn.registers
  dsimp only
  refine ⟨⟨hlow, ?_⟩, ⟨hep, hgap, hhp⟩, ?_, hn.memory_size, hn.store_size⟩
  · omega
  · omega

/-- A machine with no stack reserved, after a frame that does not fit, a block
that takes all of memory, a push and a step. -/
theorem layout_after_refused_frame :
    (Config.mk 2 4 0).flaw? = none ∧
      ∃ m : Machine Empty, create ⟨2, 4, 0⟩ = .ok m ∧
        let n := m.after
          [.call (.enter 9), .call (.allocate 4), .call (.push .zero), .step]
        n.registers.sp.toInt < 4 ∧ n.registers.ep.toInt ≤ n.registers.hp.toInt ∧
          n.memory.size = 4 ∧ n.store.size = 2 := by
  refine ⟨by decide, ?_⟩
  obtain ⟨m, hcreate, hall⟩ := layout_after_any_history (ι := Empty) ⟨2, 4, 0⟩ (by decide)
  refine ⟨m, hcreate, ?_⟩
  have hn := hall [.call (.enter 9), .call (.allocate 4), .call (.push .zero), .step]
    (by
      intro op member
      simp only [List.mem_cons, List.not_mem_nil, or_false] at member
      rcases member with rfl | rfl | rfl | rfl <;> trivial)
  exact ⟨hn.1.2, hn.2.1.2.1, hn.2.2.2⟩

end Machine

end CellMachine
