import CellMachine.Proofs.HeapFrame

/-!
The operand stack is a bounded list. Its cells share one memory with the heap, a pop
leaves its cell as it is, and the ceiling moves both ways; yet a client that asks only
for pushes, pops, looks at the top, blocks and frames cannot tell the machine from a
list with a capacity. The list remembers one thing besides: the content of cell zero,
on which `enter` seats an empty stack.
-/

namespace CellMachine

variable {ι : Type}

/-- What can be asked of stack and heap without naming a cell or a register. -/
inductive Request where
  | push (v : Value)
  | pop
  | peek
  | allocate (units : Nat)
  | enter (frame : Word)
deriving DecidableEq, Repr

/-- The request as a computation of a machine. A push and a frame answer with no value. -/
def Request.perform : Request → Exec ι (Option Value)
  | .push v => (fun _ => none) <$> Machine.push v
  | .pop => some <$> Machine.pop
  | .peek => some <$> Machine.peek
  | .allocate units => some <$> Machine.allocate units
  | .enter frame => (fun _ => none) <$> Machine.enter frame

/-- A list that can grow up to a capacity, and the place where the heap begins. -/
structure BoundedStack where
  /-- The values, bottom first. -/
  items : List Value
  capacity : Nat
  heap : Nat
  /-- What the lowest place holds, also while the list is empty. -/
  ground : Value
deriving DecidableEq, Repr

namespace BoundedStack

/-- The list is empty, and nothing is taken from the heap. -/
def initial (c : Config) (ground : Value) : BoundedStack where
  items := []
  capacity := c.maxStack
  heap := c.memorySize
  ground := ground

def overflow (s : BoundedStack) : Fault :=
  .stackOverflow (.wrap ((s.items.length : Int) - 1)) (.wrap s.capacity) (.wrap s.heap)

def push (v : Value) : Attempt Fault BoundedStack Unit := fun s =>
  if s.items.length < s.capacity then
    .ok () { s with items := s.items ++ [v], ground := s.items.headD v }
  else
    .error s.overflow s

def peek : Attempt Fault BoundedStack Value := fun s =>
  match s.items.getLast? with
  | some v => .ok v s
  | none => .error (.stackUnderflow (-1)) s

def pop : Attempt Fault BoundedStack Value := fun s =>
  match s.items.getLast? with
  | some v => .ok v { s with items := s.items.dropLast }
  | none => .error (.stackUnderflow (-1)) s

def allocate (units : Nat) : Attempt Fault BoundedStack Value := fun s =>
  if s.capacity + units ≤ s.heap then
    .ok (.ptr (.wrap ((s.heap : Int) - units))) { s with heap := s.heap - units }
  else
    .error (.outOfMemory units (.wrap s.capacity) (.wrap s.heap)) s

/-- An empty list gets what the lowest place still holds. -/
def seated (s : BoundedStack) : BoundedStack :=
  { s with items := if s.items.isEmpty then [s.ground] else s.items }

/-- The list is seated even if there is no room for the frame. -/
def enter (frame : Word) : Attempt Fault BoundedStack Unit := fun s =>
  if frame.toInt < 1 then
    .error (.invalidFrameSize frame) s
  else
    let capacity := s.seated.items.length - 1 + frame.toInt.toNat
    if capacity < s.heap then
      .ok () { s.seated with capacity }
    else
      .error s.seated.overflow s.seated

end BoundedStack

/-- The request as a computation of a bounded stack. -/
def Request.expect : Request → Attempt Fault BoundedStack (Option Value)
  | .push v => (fun _ => none) <$> BoundedStack.push v
  | .pop => some <$> BoundedStack.pop
  | .peek => some <$> BoundedStack.peek
  | .allocate units => some <$> BoundedStack.allocate units
  | .enter frame => (fun _ => none) <$> BoundedStack.enter frame

namespace Machine

variable {c : Config} {m : Machine ι} {s : BoundedStack}

/-- The machine shows the list as its stack. -/
structure Represents (c : Config) (m : Machine ι) (s : BoundedStack) : Prop where
  laidOut : m.LaidOut c
  items : m.stack? = some s.items
  capacity : m.registers.ep.toInt = s.capacity
  heap : m.registers.hp.toInt = s.heap
  ground : m.memory.cells[0]? = some s.ground

theorem LaidOut.sp_lt_size (hc : c.flaw? = none) (h : m.LaidOut c) :
    m.registers.sp.toInt < m.memory.size := by
  obtain ⟨_, hmemory, _, _⟩ := c.flaw?_eq_none_iff.mp hc
  obtain ⟨_, htop, _, hgap, hhp, _⟩ := h.registers
  rw [h.memory_size]
  omega

theorem LaidOut.sp_eq_neg_one (h : m.LaidOut c) (hempty : m.registers.sp < 0) :
    m.registers.sp = -1 := by
  have hlow := h.registers.sp_ge
  rw [Word.lt_iff, Word.toInt_zero] at hempty
  apply Word.eq_of_toInt
  rw [Word.toInt_neg_one]
  omega

/-- The stack consists of the cells up to the top. -/
theorem LaidOut.stack?_eq (hc : c.flaw? = none) (h : m.LaidOut c) {n : Nat}
    (hn : m.registers.sp.toInt + 1 = n) : m.stack? = some (m.memory.cells.toList.take n) := by
  have hsize := h.sp_lt_size hc
  rw [stack?, Registers.stackDepth, h.registers.toInt_sp_succ hc, hn, Int.toNat_natCast, if_pos]
  omega

/-- The cells of the stack are cells of memory. -/
theorem LaidOut.exists_stack (hc : c.flaw? = none) (h : m.LaidOut c) :
    ∃ items, m.stack? = some items ∧ (items.length : Int) = m.registers.sp.toInt + 1 := by
  have hlow := h.registers.sp_ge
  have hsize := h.sp_lt_size hc
  unfold Memory.size at hsize
  refine ⟨_, h.stack?_eq hc (Int.toNat_of_nonneg (by omega)).symm, ?_⟩
  rw [List.length_take, Array.length_toList]
  omega

namespace Represents

theorem items_eq (hc : c.flaw? = none) (h : m.Represents c s) :
    s.items = m.memory.cells.toList.take (m.registers.sp.toInt + 1).toNat := by
  have hlow := h.laidOut.registers.sp_ge
  have hstack := h.laidOut.stack?_eq hc (Int.toNat_of_nonneg (by omega)).symm
  exact Option.some.inj (h.items.symm.trans hstack)

theorem length_eq (hc : c.flaw? = none) (h : m.Represents c s) :
    (s.items.length : Int) = m.registers.sp.toInt + 1 := by
  have hlow := h.laidOut.registers.sp_ge
  have hsize := h.laidOut.sp_lt_size hc
  unfold Memory.size at hsize
  rw [h.items_eq hc, List.length_take, Array.length_toList]
  omega

theorem overflow_eq (hc : c.flaw? = none) (h : m.Represents c s) :
    s.overflow = .stackOverflow m.registers.sp m.registers.ep m.registers.hp := by
  have hsp : (s.items.length : Int) - 1 = m.registers.sp.toInt := by
    rw [h.length_eq hc]
    omega
  rw [BoundedStack.overflow, hsp, ← h.capacity, ← h.heap, Word.wrap_toInt, Word.wrap_toInt,
    Word.wrap_toInt]

theorem sp_neg_iff (hc : c.flaw? = none) (h : m.Represents c s) :
    m.registers.sp < 0 ↔ s.items.getLast? = none := by
  have hlength := h.length_eq hc
  rw [Word.lt_iff, Word.toInt_zero, List.getLast?_eq_none_iff, ← List.length_eq_zero_iff]
  omega

/-- The items are the contents of the lowest cells. -/
theorem getElem?_items (hc : c.flaw? = none) (h : m.Represents c s) {k : Nat}
    (hk : k < s.items.length) : s.items[k]? = m.memory.cells[k]? := by
  have hlength := h.length_eq hc
  rw [h.items_eq hc, List.getElem?_take_of_lt (by omega), Array.getElem?_toList]

theorem read_top (hc : c.flaw? = none) (h : m.Represents c s) {v : Value}
    (hlast : s.items.getLast? = some v) : m.memory.read m.registers.sp = .ok v := by
  have hlength := h.length_eq hc
  have hfilled : s.items.length ≠ 0 := by
    intro hzero
    simp [List.eq_nil_of_length_eq_zero hzero] at hlast
  have htop : s.items.length - 1 = m.registers.sp.toInt.toNat := by omega
  rw [List.getLast?_eq_getElem?, h.getElem?_items hc (by omega), htop] at hlast
  rw [Memory.read_eq, Memory.cell?_eq_getElem?, if_pos (by omega), hlast]

end Represents

open Attempt

theorem peek_simulates (hc : c.flaw? = none) :
    Simulates (Represents c) (peek : Exec ι Value) BoundedStack.peek := by
  intro m s h
  cases hlast : s.items.getLast? with
  | none =>
      have hempty := (h.sp_neg_iff hc).mpr hlast
      have hmachine : peek.run m = .error (.stackUnderflow (-1)) m := by
        rw [run_peek, if_pos hempty, h.laidOut.sp_eq_neg_one hempty]
      have hlist : BoundedStack.peek.run s = .error (.stackUnderflow (-1)) s := by
        simp only [BoundedStack.peek, EStateM.run, hlast]
      exact alike_of_error hmachine hlist h
  | some v =>
      have hfilled : ¬ m.registers.sp < 0 := by simp [h.sp_neg_iff hc, hlast]
      have hmachine : peek.run m = .ok v m := by
        rw [run_peek, if_neg hfilled, h.read_top hc hlast]
      have hlist : BoundedStack.peek.run s = .ok v s := by
        simp only [BoundedStack.peek, EStateM.run, hlast]
      exact alike_of_ok hmachine hlist h

theorem Represents.popped (hc : c.flaw? = none) (h : m.Represents c s)
    (hfilled : ¬ m.registers.sp < 0) :
    m.popped.Represents c { s with items := s.items.dropLast } := by
  have hpred := h.laidOut.registers.toInt_sp_pred
  have hlaid : m.popped.LaidOut c :=
    h.laidOut.setRegisters (h.laidOut.registers.pop hfilled)
  have hn : (m.registers.sp - 1).toInt + 1 = m.registers.sp.toInt.toNat := by
    rw [Word.lt_iff, Word.toInt_zero] at hfilled
    omega
  refine ⟨hlaid, ?_, h.capacity, h.heap, h.ground⟩
  have hlength := h.length_eq hc
  have hshorter : s.items.length - 1 = m.registers.sp.toInt.toNat := by omega
  rw [hlaid.stack?_eq hc hn, List.dropLast_eq_take, hshorter, h.items_eq hc, List.take_take,
    Nat.min_eq_left (by omega)]
  rfl

theorem pop_simulates (hc : c.flaw? = none) :
    Simulates (Represents c) (pop : Exec ι Value) BoundedStack.pop := by
  intro m s h
  cases hlast : s.items.getLast? with
  | none =>
      have hempty := (h.sp_neg_iff hc).mpr hlast
      have hmachine : pop.run m = .error (.stackUnderflow (-1)) m := by
        rw [run_pop, if_pos hempty, h.laidOut.sp_eq_neg_one hempty]
      have hlist : BoundedStack.pop.run s = .error (.stackUnderflow (-1)) s := by
        simp only [BoundedStack.pop, EStateM.run, hlast]
      exact alike_of_error hmachine hlist h
  | some v =>
      have hfilled : ¬ m.registers.sp < 0 := by simp [h.sp_neg_iff hc, hlast]
      have hmachine : pop.run m = .ok v m.popped := by
        rw [run_pop, if_neg hfilled, h.read_top hc hlast]
        rfl
      have hlist : BoundedStack.pop.run s =
          .ok v { s with items := s.items.dropLast } := by
        simp only [BoundedStack.pop, EStateM.run, hlast]
      exact alike_of_ok hmachine hlist (h.popped hc hfilled)

theorem LaidOut.inOrder (h : m.LaidOut c) (hsp : m.registers.sp.toInt < m.registers.ep.toInt) :
    m.InOrder where
  sp_ge := h.registers.sp_ge
  sp_lt := hsp
  ep_le := h.registers.ep_le
  hp_le := by
    rw [h.memory_size]
    exact h.registers.hp_le

/-- The new value is in the cell above the others, which keep theirs. -/
theorem Represents.getElem?_pushed (hc : c.flaw? = none) (h : m.Represents c s)
    (hroom : s.items.length < s.capacity) (v : Value) (k : Nat) :
    (m.pushed v).memory.cells[k]? =
      if k = s.items.length then some v else m.memory.cells[k]? := by
  have hlength := h.length_eq hc
  have hcapacity := h.capacity
  have hsucc := h.laidOut.registers.toInt_sp_succ hc
  have hinside : ¬ (m.registers.sp + 1).Outside m.memory.size := by
    have hgap := h.laidOut.registers.ep_le
    have hhp := h.laidOut.registers.hp_le
    rw [Word.Outside, hsucc, h.laidOut.memory_size]
    omega
  have haddress : (m.registers.sp + 1).toInt = k ↔ k = s.items.length := by omega
  rw [Machine.pushed, Memory.getElem?_put hinside]
  simp only [haddress]

theorem Represents.pushed (hc : c.flaw? = none) (h : m.Represents c s)
    (hroom : s.items.length < s.capacity) {v : Value} (hlaid : (m.pushed v).LaidOut c) :
    (m.pushed v).Represents c
      { s with items := s.items ++ [v], ground := s.items.headD v } := by
  have hlength := h.length_eq hc
  have hsucc := h.laidOut.registers.toInt_sp_succ hc
  have hn : (m.registers.sp + 1).toInt + 1 = (s.items.length + 1 : Nat) := by omega
  refine ⟨hlaid, ?_, h.capacity, h.heap, ?_⟩
  · rw [hlaid.stack?_eq hc hn, Option.some.injEq]
    apply List.ext_getElem?
    intro k
    rw [List.getElem?_take, Array.getElem?_toList, h.getElem?_pushed hc hroom]
    rcases Nat.lt_trichotomy k s.items.length with hk | rfl | hk
    · rw [if_pos (by omega), if_neg (by omega), List.getElem?_append_left hk,
        h.getElem?_items hc hk]
    · simp
    · simp [Nat.not_lt.mpr hk]
  · -- Cell zero gets the value if the list was empty, and is its bottom otherwise.
    rw [h.getElem?_pushed hc hroom]
    cases hitems : s.items with
    | nil => simp
    | cons bottom rest =>
        have hbottom := h.getElem?_items hc (k := 0) (by simp [hitems])
        rw [hitems] at hbottom
        simpa using hbottom.symm

theorem push_simulates (hc : c.flaw? = none) (v : Value) :
    Simulates (Represents c) (push v : Exec ι Unit) (BoundedStack.push v) := by
  intro m s h
  have hlength := h.length_eq hc
  have hcapacity := h.capacity
  by_cases hroom : s.items.length < s.capacity
  · have hmachine : (push v).run m = .ok () (m.pushed v) := by
      rw [(h.laidOut.inOrder (by omega)).stackFits.run_push, if_neg (by omega)]
    have hlist : (BoundedStack.push v).run s =
        .ok () { s with items := s.items ++ [v], ground := s.items.headD v } := by
      simp only [BoundedStack.push, EStateM.run, if_pos hroom]
    have hlaid := h.laidOut.call hc (k := .push v) trivial
    rw [Call.apply, state_of_ok hmachine] at hlaid
    exact alike_of_ok hmachine hlist (h.pushed hc hroom hlaid)
  · have hfull : m.registers.ep ≤ m.registers.sp + 1 := by
      rw [Word.le_iff, h.laidOut.registers.toInt_sp_succ hc]
      omega
    have hmachine : (push v).run m = .error s.overflow m := by
      rw [run_push, if_pos hfull, ← h.overflow_eq hc]
    have hlist : (BoundedStack.push v).run s = .error s.overflow s := by
      simp only [BoundedStack.push, EStateM.run, if_neg hroom]
    exact alike_of_error hmachine hlist h

/-- Neither the list nor the capacity notices that the heap grows. -/
theorem allocate_simulates (hc : c.flaw? = none) (units : Nat) :
    Simulates (Represents c) (allocate units : Exec ι Value) (BoundedStack.allocate units) := by
  intro m s h
  have hcapacity := h.capacity
  have hheap := h.heap
  have hmachine := run_allocate_exact h.laidOut.registers.ep_ge units
  by_cases hroom : s.capacity + units ≤ s.heap
  · rw [if_neg (by omega), hheap] at hmachine
    have hlist : (BoundedStack.allocate units).run s =
        .ok (.ptr (.wrap ((s.heap : Int) - units))) { s with heap := s.heap - units } := by
      simp only [BoundedStack.allocate, EStateM.run, if_pos hroom]
    have hlaid := h.laidOut.call hc (k := .allocate units) trivial
    rw [Call.apply, state_of_ok hmachine] at hlaid
    have hbelow : (Word.wrap ((s.heap : Int) - units)).toInt = (s.heap - units : Nat) := by
      have hfits : Word.Fits ((s.heap : Int) - units) := by
        have hhp := m.registers.hp.fits
        unfold Word.Fits at hhp ⊢
        omega
      rw [Word.toInt_wrap hfits]
      omega
    exact alike_of_ok hmachine hlist ⟨hlaid, h.items, hcapacity, hbelow, h.ground⟩
  · rw [if_pos (by omega)] at hmachine
    have hlist : (BoundedStack.allocate units).run s =
        .error (.outOfMemory units m.registers.ep m.registers.hp) s := by
      simp only [BoundedStack.allocate, EStateM.run, if_neg hroom, ← hcapacity, ← hheap,
        Word.wrap_toInt]
    exact alike_of_error hmachine hlist h

/-- Cell zero has kept its content while the stack was empty. -/
theorem Represents.seated (hc : c.flaw? = none) (h : m.Represents c s) :
    m.seated.Represents c s.seated := by
  have hlength := h.length_eq hc
  refine ⟨h.laidOut.seated, ?_, h.capacity, h.heap, h.ground⟩
  cases hitems : s.items with
  | nil =>
      have hn : m.seated.registers.sp.toInt + 1 = (1 : Nat) := by
        rw [hitems, List.length_nil] at hlength
        rw [toInt_sp_seated]
        omega
      have hbottom : m.memory.cells.toList.take 1 = [s.ground] := by
        rw [List.take_one, List.head?_eq_getElem?, Array.getElem?_toList, h.ground]
        rfl
      rw [h.laidOut.seated.stack?_eq hc hn]
      simp [BoundedStack.seated, hitems, Machine.seated, hbottom]
  | cons bottom rest =>
      have hfilled : ¬ m.registers.sp < 0 := by simp [h.sp_neg_iff hc, hitems]
      have hsame : s.seated.items = s.items := by simp [BoundedStack.seated, hitems]
      rw [hsame, ← h.items, Machine.seated, if_neg hfilled]

theorem enter_simulates (hc : c.flaw? = none) (frame : Word) :
    Simulates (Represents c) (enter frame : Exec ι Unit) (BoundedStack.enter frame) := by
  intro m s h
  have hseated := h.seated hc
  have hlength := hseated.length_eq hc
  have hheap := h.heap
  have hsp := m.toInt_sp_seated
  have hmachine := run_enter_exact frame m
  by_cases hframe : frame.toInt < 1
  · rw [if_pos hframe] at hmachine
    have hlist : (BoundedStack.enter frame).run s = .error (.invalidFrameSize frame) s := by
      simp only [BoundedStack.enter, EStateM.run, if_pos hframe]
    exact alike_of_error hmachine hlist h
  · -- From here on it is the seated stack that counts, also if the frame is refused.
    rw [if_neg hframe] at hmachine
    by_cases hroom : s.seated.items.length - 1 + frame.toInt.toNat < s.heap
    · rw [if_neg (by omega)] at hmachine
      have hlist : (BoundedStack.enter frame).run s =
          .ok () { s.seated with
            capacity := s.seated.items.length - 1 + frame.toInt.toNat } := by
        simp only [BoundedStack.enter, EStateM.run, if_neg hframe, if_pos hroom]
      have hlaid := h.laidOut.call hc (k := .enter frame) trivial
      rw [Call.apply, state_of_ok hmachine] at hlaid
      have hceiling : (m.seated.registers.sp + frame).toInt =
          (s.seated.items.length - 1 + frame.toInt.toNat : Nat) := by
        have hfits : Word.Fits (m.seated.registers.sp.toInt + frame.toInt) := by
          have hhp := m.registers.hp.fits
          unfold Word.Fits at hhp ⊢
          omega
        rw [Word.toInt_add hfits]
        omega
      exact alike_of_ok hmachine hlist
        ⟨hlaid, hseated.items, hceiling, hseated.heap, hseated.ground⟩
    · rw [if_pos (by omega)] at hmachine
      have hlist : (BoundedStack.enter frame).run s = .error s.seated.overflow s.seated := by
        simp only [BoundedStack.enter, EStateM.run, if_neg hframe, if_neg hroom]
      rw [hseated.overflow_eq hc] at hlist
      exact alike_of_error hmachine hlist hseated

theorem request_simulates (hc : c.flaw? = none) (k : Request) :
    Simulates (Represents c) (k.perform : Exec ι (Option Value)) k.expect := by
  cases k with
  | push v => exact (push_simulates hc v).map _
  | pop => exact (pop_simulates hc).map _
  | peek => exact (peek_simulates hc).map _
  | allocate units => exact (allocate_simulates hc units).map _
  | enter frame => exact (enter_simulates hc frame).map _

/-- A machine that starts has an empty list. -/
theorem represents_initial (hc : c.flaw? = none) (h : m.LaidOut c)
    (hinitial : m.registers = .initial c) :
    ∃ ground, m.memory.cells[0]? = some ground ∧ m.Represents c (.initial c ground) := by
  obtain ⟨_, hpositive, _, _⟩ := c.flaw?_eq_none_iff.mp hc
  have hsize : 0 < m.memory.cells.size := by
    have hcells := h.memory_size
    unfold Memory.size at hcells
    omega
  have hsp : m.registers.sp.toInt + 1 = (0 : Nat) := by
    rw [hinitial]
    rfl
  have hep : m.registers.ep.toInt = c.maxStack := by
    rw [hinitial, Registers.toInt_ep_initial hc]
  have hhp : m.registers.hp.toInt = c.memorySize := by
    rw [hinitial, Registers.toInt_hp_initial hc]
  have hground := Array.getElem?_eq_getElem hsize
  refine ⟨_, hground, h, ?_, hep, hhp, hground⟩
  rw [h.stack?_eq hc hsp]
  rfl

variable [ClientHost ι]

/-- The operand stack refines a bounded list. A machine that starts, and a list that is
empty and has the configured capacity, give the same answers to every sequence of
requests, the faults and what they report included; and afterwards the list is the
stack of the machine, bottom first, its capacity is the ceiling, and its heap begins
where that of the machine does. -/
theorem operand_stack_refines_bounded_list (c : Config) (hc : c.flaw? = none) :
    (∃ m : Machine ι, create c = .ok m) ∧
      ∀ start : Machine ι, start.Starts c →
        ∃ ground, start.memory.cells[0]? = some ground ∧
          ∀ requests : List Request,
            let list := BoundedStack.initial c ground
            let n := stateAfter Request.perform requests start
            let s := stateAfter Request.expect requests list
            answers Request.perform requests start = answers Request.expect requests list ∧
              n.stack? = some s.items ∧ n.registers.ep.toInt = s.capacity ∧
              n.registers.hp.toInt = s.heap ∧ n.memory.cells[0]? = some s.ground := by
  obtain ⟨m, hcreate, _⟩ := create_laidOut (ι := ι) hc
  refine ⟨⟨m, hcreate⟩, ?_⟩
  intro start hstart
  obtain ⟨hlaid, hinitial⟩ := hstart.laidOut hc
  obtain ⟨ground, hground, hlist⟩ := represents_initial hc hlaid hinitial
  refine ⟨ground, hground, ?_⟩
  intro requests
  obtain ⟨hanswers, hend⟩ := Simulates.sequence (request_simulates hc) requests hlist
  exact ⟨hanswers, hend.items, hend.capacity, hend.heap, hend.ground⟩

/-- A program that does no more than to seed cell zero. -/
def seededProgram : Program Empty where
  instructions := []
  overlay := [⟨0, .int 7⟩]

/-- A frame that is refused seats the stack, and so does the last one, on the value that
was pushed to the bottom since. -/
def seatedTwice : List Request :=
  [.push .zero, .enter 9, .peek, .push .zero, .pop, .pop, .enter 2, .push (.int 5),
    .push .zero, .allocate 1, .allocate 1, .pop, .pop, .push (.int 8), .pop, .enter 1]

theorem stack_is_seated_on_last_bottom :
    (Config.mk 1 3 0).flaw? = none ∧
      ∃ start : Machine Empty, start.Starts ⟨1, 3, 0⟩ ∧
        answers Request.perform seatedTwice start =
          [.error (.stackOverflow (-1) 0 3), .error (.stackOverflow 0 0 3), .ok (some (.int 7)),
            .error (.stackOverflow 0 0 3), .ok (some (.int 7)), .error (.stackUnderflow (-1)),
            .ok none, .ok none, .error (.stackOverflow 1 2 3), .ok (some (.ptr 2)),
            .error (.outOfMemory 1 2 2), .ok (some (.int 5)), .ok (some (.int 7)), .ok none,
            .ok (some (.int 8)), .ok none] ∧
        (stateAfter Request.perform seatedTwice start).stack? = some [.int 8] := by
  obtain ⟨⟨m, hcreate⟩, hall⟩ :=
    operand_stack_refines_bounded_list (ι := Empty) ⟨1, 3, 0⟩ (by decide)
  let strayed : List (Operation Empty) := [.call (.setRegisters ⟨9, 9, 9, -9, -9⟩)]
  obtain ⟨start, hload, hcell⟩ : ∃ start : Machine Empty,
      (m.after strayed).load seededProgram = .ok start ∧
        start.memory.cells[0]? = some (.int 7) := by
    obtain ⟨_, rfl⟩ := create_ok_iff.mp hcreate
    exact ⟨_, rfl, by decide +kernel⟩
  have hstart : start.Starts ⟨1, 3, 0⟩ := .loaded strayed seededProgram hcreate hload
  obtain ⟨ground, hground, hlist⟩ := hall start hstart
  cases hground.symm.trans hcell
  obtain ⟨hanswers, hstack, _⟩ := hlist seatedTwice
  refine ⟨by decide, start, hstart, hanswers.trans ?_, hstack.trans ?_⟩
  · rfl
  · decide +kernel

end Machine

end CellMachine
