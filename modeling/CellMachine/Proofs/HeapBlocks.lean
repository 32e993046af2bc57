import CellMachine.Proofs.ClientHistories
import CellMachine.Proofs.InOrder
import CellMachine.StandardSet

/-!
The blocks that the heap has handed out since the machine was started. Each begins
where the next older one ends, so together they are the heap without a gap and without
an overlap. A ledger keeps them beside the machine; it does not change what the
machine does.
-/

namespace CellMachine

variable {ι : Type}

/-- A block as it was handed out: the address in the pointer, and the size asked for. -/
structure Block where
  address : Word
  units : Nat
deriving DecidableEq, Repr

namespace Block

/-- The cells of the block. -/
def Has (b : Block) (a : Int) : Prop :=
  b.address.toInt ≤ a ∧ a < b.address.toInt + b.units

/-- The number of cells of all blocks together. -/
def total : List Block → Nat
  | [] => 0
  | b :: rest => b.units + total rest

/-- The blocks fill the cells from `bottom` up to `top`, the first one on top and each
further one directly below the one before it. -/
def Tile : Int → List Block → Int → Prop
  | top, [], bottom => top = bottom
  | top, b :: rest, bottom => b.address.toInt = top - b.units ∧ Tile b.address.toInt rest bottom

variable {top bottom : Int} {blocks : List Block}

theorem Tile.nil : Tile top [] top := rfl

/-- A further block below the others. -/
theorem Tile.append_singleton (h : Tile top blocks bottom) {b : Block}
    (hb : b.address.toInt = bottom - b.units) :
    Tile top (blocks ++ [b]) b.address.toInt := by
  induction blocks generalizing top with
  | nil =>
      cases h
      exact ⟨hb, rfl⟩
  | cons first rest ih => exact ⟨h.1, ih h.2⟩

theorem Tile.bottom_eq (h : Tile top blocks bottom) : bottom = top - total blocks := by
  induction blocks generalizing top with
  | nil =>
      cases h
      simp [total]
  | cons b rest ih =>
      have hrest := ih h.2
      have hfirst := h.1
      simp only [total]
      omega

/-- Every block begins below the top by its own size and the sizes of the older ones. -/
theorem Tile.address_eq (h : Tile top blocks bottom) {j : Nat} {b : Block}
    (hb : blocks[j]? = some b) : b.address.toInt = top - total (blocks.take (j + 1)) := by
  induction blocks generalizing top j with
  | nil => simp at hb
  | cons first rest ih =>
      cases j with
      | zero =>
          simp only [List.getElem?_cons_zero, Option.some.injEq] at hb
          subst hb
          simpa [total] using h.1
      | succ j =>
          have hrest := ih h.2 (by simpa using hb)
          have hfirst := h.1
          simp only [List.take_succ_cons, total]
          omega

/-- A cell is in the tiled area if and only if it is in one of the blocks. -/
theorem Tile.has_iff (h : Tile top blocks bottom) (a : Int) :
    (∃ b ∈ blocks, b.Has a) ↔ bottom ≤ a ∧ a < top := by
  induction blocks generalizing top with
  | nil =>
      cases h
      simp
  | cons b rest ih =>
      have hbelow := h.2.bottom_eq
      have hfirst := h.1
      simp only [List.mem_cons, exists_eq_or_imp]
      rw [ih h.2, Has]
      omega

/-- Any two blocks are disjoint, since the younger one is all below the older one. -/
theorem Tile.pairwise_disjoint (h : Tile top blocks bottom) :
    blocks.Pairwise fun b c => ∀ a, ¬ (b.Has a ∧ c.Has a) := by
  induction blocks generalizing top with
  | nil => exact .nil
  | cons b rest ih =>
      refine .cons ?_ (ih h.2)
      rintro c member a ⟨hb, hc⟩
      have harea := (h.2.has_iff a).mp ⟨c, member, hc⟩
      have hlow := hb.1
      omega

theorem Tile.bottom_eq_last (h : Tile top blocks bottom) :
    bottom = (blocks.getLast?.map fun b => b.address.toInt).getD top := by
  induction blocks generalizing top with
  | nil =>
      cases h
      rfl
  | cons b rest ih =>
      rw [ih h.2, List.getLast?_cons]
      cases rest.getLast? <;> rfl

end Block

/-- The block that the answer to a request for `units` cells points to, if it is a pointer. -/
def Block.ofAnswer? (units : Nat) : Except Fault Value → Option Block
  | .ok (.ptr address) => some ⟨address, units⟩
  | _ => none

/-- The block that an allocation hands out, if it succeeds. -/
def Machine.grant? (m : Machine ι) (units : Nat) : Option Block :=
  Block.ofAnswer? units ((allocate units).result m)

/-- The calls that have nothing to do with the heap. -/
def Call.KeepsHeap : Call ι → Prop
  | .allocate _ | .restart | .load _ | .setRegisters _ => False
  | _ => True

/-- The blocks that the heap has handed out since the last start, after a call. `blocks`
are those before the call. -/
def Call.blocks (m : Machine ι) (blocks : List Block) : Call ι → List Block
  | .allocate units => blocks ++ (m.grant? units).toList
  | .restart => []
  | .load p =>
      match m.load p with
      | .ok _ => []
      | .error _ => blocks
  | _ => blocks

theorem Call.blocks_of_keepsHeap {k : Call ι} (hk : k.KeepsHeap) (m : Machine ι)
    (blocks : List Block) : k.blocks m blocks = blocks := by
  cases k with
  | load | restart | allocate | setRegisters => exact hk.elim
  | _ => rfl

/-- Besides allocations only a new start has to do with the heap. -/
theorem Call.Indirect.keepsHeap_or {k : Call ι} (hk : k.Indirect) :
    k.KeepsHeap ∨ (∃ units, k = .allocate units) ∨ k = .restart ∨ ∃ p, k = .load p := by
  cases k with
  | load p => exact Or.inr (Or.inr (Or.inr ⟨p, rfl⟩))
  | restart => exact Or.inr (Or.inr (Or.inl rfl))
  | allocate units => exact Or.inr (Or.inl ⟨units, rfl⟩)
  | setRegisters r => exact hk.elim
  | _ => exact Or.inl trivial

/-- An instruction of the host has no standard operation. -/
theorem Instruction.operation?_of_host {i : Instruction ι} {op : ι} (h : i.host? = some op) :
    i.operation? = none := by
  unfold host? at h
  unfold operation?
  split at h
  next => cases h
  next d hd =>
    split at h
    next => cases h
    next => simp

/-- The blocks that an operation is handed out. It is `new` only that allocates, with the
size that it has popped, and it keeps the block if it fails later. -/
def Standard.grants (op : Standard) (i : Instruction ι) (m : Machine ι) : List Block :=
  match op with
  | .new =>
      match (popSize i).run m with
      | .ok units rest => (rest.grant? units).toList
      | .error .. => []
  | _ => []

/-- The blocks that the standard instruction of the next step is handed out. -/
def Machine.stepGrants (m : Machine ι) : List Block :=
  match m.running, m.current? with
  | true, some i =>
      match i.operation? with
      | some op => op.grants i m.advance
      | none => []
  | _, _ => []

/-- A machine with the blocks that its heap has handed out since the last start, in the
order in which they were handed out. -/
structure Ledger (ι : Type) where
  machine : Machine ι
  blocks : List Block

namespace Ledger

def call (s : Ledger ι) (k : Call ι) : Ledger ι :=
  ⟨k.apply s.machine, k.blocks s.machine s.blocks⟩

def calls (s : Ledger ι) (ks : List (Call ι)) : Ledger ι := ks.foldl call s

variable [ClientHost ι]

def step (s : Ledger ι) : Ledger ι where
  machine := Machine.step.state s.machine
  blocks :=
    (calls { s with machine := s.machine.advance } s.machine.hostCalls).blocks ++
      s.machine.stepGrants

def operate (s : Ledger ι) : Operation ι → Ledger ι
  | .call k => s.call k
  | .step => s.step

def after (s : Ledger ι) (ops : List (Operation ι)) : Ledger ι := ops.foldl operate s

/-- The ledger does not change what the machine does. -/
theorem machine_after (s : Ledger ι) (ops : List (Operation ι)) :
    (s.after ops).machine = s.machine.after ops := by
  induction ops generalizing s with
  | nil => rfl
  | cons op rest ih =>
      cases op with
      | call k => exact ih (s.call k)
      | step => exact ih s.step

end Ledger

namespace Machine

variable {c : Config} {m : Machine ι}

theorem LaidOut.run_allocate_cases (h : m.LaidOut c) (units : Nat) :
    (∃ p : Word, p.toInt = m.registers.hp.toInt - units ∧
        (allocate units).run m =
          .ok (.ptr p) { m with registers := { m.registers with hp := p } }) ∨
      ∃ f, (allocate units).run m = .error f m := by
  have hep := h.registers.ep_ge
  have hrun := run_allocate_exact hep units
  by_cases hroom : m.registers.hp.toInt - units < m.registers.ep.toInt
  · rw [if_pos hroom] at hrun
    exact Or.inr ⟨_, hrun⟩
  · rw [if_neg hroom] at hrun
    refine Or.inl ⟨_, ?_, hrun⟩
    have hhp := m.registers.hp.fits
    apply Word.toInt_wrap
    unfold Word.Fits at hhp ⊢
    omega

/-- An allocation puts its block below the others, or it fails and moves nothing. -/
theorem LaidOut.tile_allocate (h : m.LaidOut c) {top : Int} {blocks : List Block}
    (htile : Block.Tile top blocks m.registers.hp.toInt) (units : Nat) :
    Block.Tile top (blocks ++ (m.grant? units).toList)
      ((allocate units).state m).registers.hp.toInt := by
  obtain ⟨p, hp, hrun⟩ | ⟨f, hrun⟩ := h.run_allocate_cases units
  · rw [grant?, Attempt.result_of_ok hrun, Attempt.state_of_ok hrun]
    exact htile.append_singleton hp
  · rw [grant?, Attempt.result_of_error hrun, Attempt.state_of_error hrun]
    simpa [Block.ofAnswer?] using htile

theorem hp_call {k : Call ι} (hk : k.KeepsHeap) (m : Machine ι) :
    (k.apply m).registers.hp = m.registers.hp := by
  cases k with
  | load p | restart | allocate units | setRegisters r => exact hk.elim
  | halt => rfl
  | print v => rfl
  | drain => rfl
  | peek => exact congrArg (fun n => n.registers.hp) (state_peek m)
  | readCell address => exact congrArg (fun n => n.registers.hp) (state_readCell address m)
  | toggleBreakpoint slot =>
      obtain ⟨_, htoggle⟩ | ⟨_, _, hsame⟩ := Call.apply_toggleBreakpoint_cases slot m
      · obtain ⟨i, _, hn⟩ := toggleBreakpoint_ok htoggle
        rw [hn]
      · rw [hsame]
  | push v =>
      change ((push v).state m).registers.hp = _
      obtain h | ⟨_, _, _, h⟩ := state_push_cases v m <;> rw [h]
  | pop =>
      change (pop.state m).registers.hp = _
      obtain h | ⟨_, h⟩ := state_pop_cases m <;> rw [h]
  | enter frame =>
      change ((enter frame).state m).registers.hp = _
      obtain h | h | ⟨_, _, _, _, h⟩ := state_enter_cases frame m <;> rw [h] <;> rfl
  | writeCell address v =>
      change ((writeCell address v).state m).registers.hp = _
      obtain h | ⟨_, _, h⟩ := state_writeCell_cases address v m <;> rw [h]

/-- If the second part of a sequence leaves the heap, it is where the first has put it. -/
theorem hp_bind {α β : Type} {f : α → Exec ι β}
    (hf : ∀ a n, ((f a).state n).registers.hp = n.registers.hp) (x : Exec ι α)
    (m : Machine ι) : ((x >>= f).state m).registers.hp = (x.state m).registers.hp := by
  cases hrun : x.run m with
  | ok a t => rw [Attempt.state_bind_of_ok hrun, Attempt.state_of_ok hrun, hf]
  | error e t => rw [Attempt.state_bind_of_error hrun, Attempt.state_of_error hrun]

/-- A machine that starts has no heap. -/
theorem hp_restart (hc : c.flaw? = none) (hm : m.config = c) :
    m.restart.registers.hp.toInt = c.memorySize := by
  rw [← hm] at hc ⊢
  exact Registers.toInt_hp_initial hc

theorem hp_load (hc : c.flaw? = none) (hm : m.config = c) {p : Program ι} {n : Machine ι}
    (hload : m.load p = .ok n) : n.registers.hp.toInt = c.memorySize := by
  obtain ⟨_, rfl⟩ := load_ok hload
  exact hp_restart hc hm

end Machine

namespace Standard

open Machine

variable {c : Config} {m : Machine ι}

theorem Makes.keepsHeap {op : Standard} {k : Call ι} (h : op.Makes k) (hop : op ≠ .new) :
    k.KeepsHeap := by
  cases k with
  | allocate units =>
      cases op with
      | new => exact hop rfl
      | _ => exact h.elim
  | halt | push | pop | enter | writeCell | print => trivial
  | _ => exact h.isElementary.elim

/-- Only an allocation moves the heap, so an operation without one leaves it. -/
theorem hp_perform {op : Standard} (hop : op ≠ .new) (i : Instruction ι) (m : Machine ι) :
    ((op.perform i).state m).registers.hp = m.registers.hp := by
  have hkept : Attempt.Preserves (fun n => n.registers.hp = m.registers.hp)
      (op.perform i) := by
    refine perform_preserves_of_makes ?_ (fun _ _ _ hn => hn) i
    intro k hk n hn
    exact (hp_call (hk.keepsHeap hop) n).trans hn
  exact hkept m rfl

/-- What a standard operation is handed out goes below the other blocks. For `new` that
holds between the pop of the size and the push of the pointer, and neither moves the
heap. -/
theorem tile_perform (hc : c.flaw? = none) (h : m.LaidOut c) {top : Int}
    {blocks : List Block} (htile : Block.Tile top blocks m.registers.hp.toInt)
    (op : Standard) (i : Instruction ι) :
    Block.Tile top (blocks ++ op.grants i m)
      ((op.perform i).state m).registers.hp.toInt := by
  by_cases hop : op = .new
  · subst hop
    have hpop (n : Machine ι) : (pop.state n).registers.hp = n.registers.hp :=
      hp_call (k := .pop) trivial n
    have hsized : Attempt.Preserves
        (fun n : Machine ι => n.LaidOut c ∧ n.registers.hp = m.registers.hp) (popSize i) := by
      apply popSize_preserves
      rintro n ⟨hn, hhp⟩
      exact ⟨hn.call hc (k := .pop) trivial, (hpop n).trans hhp⟩
    unfold perform grants
    cases hrun : (popSize i).run m with
    | error f t =>
        have hpopped := hsized m ⟨h, rfl⟩
        rw [Attempt.state_of_error hrun] at hpopped
        rw [Attempt.state_bind_of_error hrun, hpopped.2]
        simpa using htile
    | ok units t =>
        have hpopped := hsized m ⟨h, rfl⟩
        rw [Attempt.state_of_ok hrun] at hpopped
        rw [← hpopped.2] at htile
        have hpush (v : Value) (n : Machine ι) :
            ((push v).state n).registers.hp = n.registers.hp :=
          hp_call (k := .push v) trivial n
        rw [Attempt.state_bind_of_ok hrun, hp_bind hpush]
        exact hpopped.1.tile_allocate htile units
  · have hnone : op.grants i m = [] := by
      cases op with
      | new => exact absurd rfl hop
      | _ => rfl
    rw [hnone, List.append_nil, hp_perform hop]
    exact htile

end Standard

namespace Ledger

variable {c : Config} {s : Ledger ι}

/-- The machine is laid out, and its heap consists of the blocks in the ledger. -/
structure Sound (c : Config) (s : Ledger ι) : Prop where
  laidOut : s.machine.LaidOut c
  tile : Block.Tile c.memorySize s.blocks s.machine.registers.hp.toInt

theorem Sound.call (hc : c.flaw? = none) (h : s.Sound c) {k : Call ι} (hk : k.Indirect) :
    (s.call k).Sound c := by
  refine ⟨h.laidOut.call hc hk, ?_⟩
  simp only [Ledger.call]
  obtain hkeeps | ⟨units, rfl⟩ | rfl | ⟨p, rfl⟩ := hk.keepsHeap_or
  · rw [Call.blocks_of_keepsHeap hkeeps, Machine.hp_call hkeeps]
    exact h.tile
  · rw [Call.blocks, Call.apply]
    exact h.laidOut.tile_allocate h.tile units
  · rw [Call.blocks, Call.apply, Machine.hp_restart hc h.laidOut.config]
    exact .nil
  · rw [Call.blocks]
    obtain hload | ⟨e, hrefused, hsame⟩ := Call.apply_load_cases p s.machine
    · rw [hload, Machine.hp_load hc h.laidOut.config hload]
      exact .nil
    · rw [hrefused, hsame]
      exact h.tile

theorem Sound.calls (hc : c.flaw? = none) (h : s.Sound c) (ks : List (Call ι))
    (hks : ∀ k ∈ ks, k.Indirect) : (s.calls ks).Sound c := by
  induction ks generalizing s with
  | nil => exact h
  | cons k rest ih =>
      apply ih (h.call hc (hks k (by simp)))
      intro next member
      exact hks next (by simp [member])

theorem machine_calls (s : Ledger ι) (ks : List (Call ι)) :
    (s.calls ks).machine = s.machine.afterCalls ks := by
  induction ks generalizing s with
  | nil => rfl
  | cons k rest ih => exact ih (s.call k)

variable [ClientHost ι]

/-- A step moves the heap as a standard operation does, or as the calls of the host do. -/
theorem Sound.step (hc : c.flaw? = none) (hhost : ClientHost.Indirect ι) (h : s.Sound c) :
    s.step.Sound c := by
  refine ⟨(Machine.laidOut_upheld hc hhost).step h.laidOut, ?_⟩
  have hadvance : Sound c { s with machine := s.machine.advance } :=
    ⟨(Machine.laidOut_enduring hc).jump _ _ h.laidOut, h.tile⟩
  simp only [Ledger.step, Machine.hostCalls, Machine.stepGrants]
  rw [Attempt.state_eq, Machine.run_step]
  cases s.machine.running with
  | false => simpa [Ledger.calls] using h.tile
  | true =>
      rw [if_pos rfl]
      cases s.machine.current? with
      | none => simpa [Ledger.calls] using h.tile
      | some i =>
          dsimp only
          rw [← Attempt.state_eq]
          cases hhosted : i.host? with
          | some op =>
              have hcalls := hadvance.calls hc _ (hhost op i s.machine.advance)
              have htile := hcalls.tile
              rw [machine_calls, ← ClientHost.state_perform] at htile
              rw [Instruction.perform_of_host hhosted, i.operation?_of_host hhosted]
              simpa using htile
          | none =>
              cases hop : i.operation? with
              | none =>
                  rw [Instruction.IsStandard.perform_of_none hhosted hop]
                  simpa [Ledger.calls] using hadvance.tile
              | some op =>
                  rw [Instruction.perform_of_operation hop]
                  exact Standard.tile_perform hc hadvance.laidOut h.tile op i

theorem Sound.after (hc : c.flaw? = none) (hhost : ClientHost.Indirect ι) (h : s.Sound c)
    (ops : List (Operation ι)) (hops : ∀ op ∈ ops, op.Indirect) : (s.after ops).Sound c := by
  induction ops generalizing s with
  | nil => exact h
  | cons op rest ih =>
      have hrest : ∀ next ∈ rest, next.Indirect := fun next member => hops next (by simp [member])
      cases op with
      | call k => exact ih (h.call hc (hops (.call k) (by simp))) hrest
      | step => exact ih (h.step hc hhost) hrest

end Ledger

namespace Machine

variable {c : Config} {m : Machine ι}

theorem LaidOut.heapSize_eq (h : m.LaidOut c) {blocks : List Block}
    (htile : Block.Tile c.memorySize blocks m.registers.hp.toInt) :
    m.heapSize = Block.total blocks := by
  have hbottom := htile.bottom_eq
  have hsize : m.memory.cells.size = c.memorySize := h.memory_size
  have hlow := h.registers.ep_ge
  have hgap := h.registers.ep_le
  simp only [heapSize, heap, List.length_drop, Array.length_toList, hsize]
  omega

variable [ClientHost ι]

/-- The blocks that the heap of a machine has handed out since the last start of a
history. -/
def blocksAfter (m : Machine ι) (ops : List (Operation ι)) : List Block :=
  (Ledger.after ⟨m, []⟩ ops).blocks

/-- The blocks of the heap, after any history since a start in which no register is
written directly. The history may have instructions of the host, refused loads and failed
allocations, and allocations that a later fault follows in the same step. Each block
begins below the end of memory by the sizes of all blocks up to it; no two of them share
a cell; together they have exactly the cells of the heap; the heap begins where the last
one begins; and its size is the sum of theirs. An operation that adds no block leaves the
heap as it is. -/
theorem blocks_tile_heap (hhost : ClientHost.Indirect ι) (c : Config)
    (hc : c.flaw? = none) :
    (∃ m : Machine ι, create c = .ok m) ∧
      ∀ start : Machine ι, start.Starts c →
        ∀ ops : List (Operation ι), (∀ op ∈ ops, op.Indirect) →
          let n := start.after ops
          let blocks := start.blocksAfter ops
          (∀ j b, blocks[j]? = some b →
            b.address.toInt = (c.memorySize : Int) - Block.total (blocks.take (j + 1))) ∧
            blocks.Pairwise (fun b d => ∀ a, ¬ (b.Has a ∧ d.Has a)) ∧
            (∀ a, (∃ b ∈ blocks, b.Has a) ↔ n.registers.hp.toInt ≤ a ∧ a < c.memorySize) ∧
            n.registers.hp.toInt =
              (blocks.getLast?.map fun b => b.address.toInt).getD (c.memorySize : Int) ∧
            n.heapSize = Block.total blocks ∧
            ∀ op : Operation ι, op.Indirect → start.blocksAfter (ops ++ [op]) = blocks →
              (start.after (ops ++ [op])).registers.hp = n.registers.hp := by
  obtain ⟨m, hcreate, _⟩ := create_laidOut (ι := ι) hc
  refine ⟨⟨m, hcreate⟩, ?_⟩
  intro start hstart
  have hempty : Ledger.Sound c ⟨start, []⟩ := by
    obtain ⟨hlaid, hinitial⟩ := hstart.laidOut hc
    refine ⟨hlaid, ?_⟩
    rw [hinitial, Registers.toInt_hp_initial hc]
    exact .nil
  have hsound (ops : List (Operation ι)) (hops : ∀ op ∈ ops, op.Indirect) :
      (start.after ops).LaidOut c ∧
        Block.Tile c.memorySize (start.blocksAfter ops)
          (start.after ops).registers.hp.toInt := by
    have hafter := hempty.after hc hhost ops hops
    have hmachine := Ledger.machine_after ⟨start, []⟩ ops
    exact ⟨hmachine ▸ hafter.laidOut, hmachine ▸ hafter.tile⟩
  intro ops hops
  obtain ⟨hlaid, htile⟩ := hsound ops hops
  refine ⟨fun j b => htile.address_eq, htile.pairwise_disjoint, htile.has_iff,
    htile.bottom_eq_last, hlaid.heapSize_eq htile, ?_⟩
  intro op hop hsame
  have hlast : ∀ next ∈ ops ++ [op], next.Indirect := by
    intro next member
    rcases List.mem_append.mp member with old | new
    · exact hops next old
    · rwa [List.mem_singleton.mp new]
  have hnext := (hsound (ops ++ [op]) hlast).2
  rw [hsame] at hnext
  exact Word.eq_of_toInt (hnext.bottom_eq.trans htile.bottom_eq.symm)

/-- A host whose only instruction takes one cell of the heap. -/
@[reducible] def cellHost : ClientHost Unit where
  perform _ _ := (fun _ => ()) <$> allocate 1
  calls _ _ _ := [.allocate 1]
  state_perform _ _ m := Attempt.state_map _ _ m

/-- A block of two cells is taken by the program, an empty one by a call and one of one
cell by the host; two more cells are refused. -/
def fourRequests : List (Operation Unit) :=
  [.call (.load
      { instructions :=
          [Standard.instruction .ldc (some (.int 2)), Standard.instruction .new,
            { opcode := .defined ⟨⟨"cell", "cell", "", ""⟩, .host ()⟩ }] }),
    .step, .step, .call (.allocate 0), .step, .call (.push .zero), .call (.allocate 2)]

/-- That the registers had been written before the restart makes no difference. -/
theorem three_of_six_cells_are_heap :
    let _ := cellHost
    ClientHost.Indirect Unit ∧ (Config.mk 3 6 2).flaw? = none ∧
      (∀ op ∈ fourRequests, op.Indirect) ∧
      ∃ start : Machine Unit, start.Starts ⟨3, 6, 2⟩ ∧
        start.blocksAfter fourRequests = [⟨4, 2⟩, ⟨4, 0⟩, ⟨3, 1⟩] ∧
        (start.after fourRequests).registers.hp.toInt = 3 ∧
        (start.after fourRequests).heapSize = 3 := by
  let _ := cellHost
  have hhost : ClientHost.Indirect Unit := by
    intro _ _ _ k member
    rw [List.mem_singleton.mp member]
    trivial
  have hops : ∀ op ∈ fourRequests, op.Indirect := by
    intro op member
    simp only [fourRequests, List.mem_cons, List.not_mem_nil, or_false] at member
    rcases member with rfl | rfl | rfl | rfl | rfl | rfl | rfl <;> trivial
  obtain ⟨⟨m, hcreate⟩, hall⟩ := blocks_tile_heap hhost ⟨3, 6, 2⟩ (by decide)
  let strayed : List (Operation Unit) := [.call (.setRegisters ⟨9, 9, 9, -9, -9⟩)]
  have hstart := Starts.restarted strayed hcreate
  obtain ⟨_, _, _, hbottom, hsize, _⟩ := hall _ hstart fourRequests hops
  have hblocks : (m.after strayed).restart.blocksAfter fourRequests =
      [⟨4, 2⟩, ⟨4, 0⟩, ⟨3, 1⟩] := by
    obtain ⟨_, rfl⟩ := create_ok_iff.mp hcreate
    clear hcreate hall hstart hbottom hsize
    decide +kernel
  rw [hblocks] at hbottom hsize
  exact ⟨hhost, by decide, hops, _, hstart, hblocks, hbottom, hsize⟩

end Machine

end CellMachine
