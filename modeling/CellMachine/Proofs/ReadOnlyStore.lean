import CellMachine.Proofs.Restarting

/-!
The program store is read-only but for its breakpoints. Between two loads a slot keeps the
instruction that the program has for it, with the breakpoint that the program gave it, set
or removed once for each time that somebody asked for it.
-/

namespace CellMachine

variable {ι : Type}

/-- The instruction after its breakpoint was set or removed `times` times. -/
def Instruction.flipped (times : Nat) (i : Instruction ι) : Instruction ι :=
  { i with breakpoint := i.breakpoint ^^ decide (times % 2 = 1) }

theorem Instruction.flipped_zero (i : Instruction ι) : i.flipped 0 = i := by
  simp [flipped]

theorem Instruction.breakpoint_flipped_succ (times : Nat) (i : Instruction ι) :
    (i.flipped (times + 1)).breakpoint = !(i.flipped times).breakpoint := by
  have hparity : decide ((times + 1) % 2 = 1) = !decide (times % 2 = 1) := by
    rw [← decide_not, decide_eq_decide]
    omega
  simp only [flipped, hparity, Bool.xor_not]

/-- One more change turns the breakpoint and nothing else. -/
theorem Instruction.flipped_succ (times : Nat) (i : Instruction ι) :
    i.flipped (times + 1) =
      { i.flipped times with breakpoint := !(i.flipped times).breakpoint } := by
  rw [← breakpoint_flipped_succ]
  rfl

/-- The instruction that a program has for a slot, padding where it has none. -/
def Program.slot (p : Program ι) (slot : Nat) : Instruction ι :=
  p.instructions[slot]?.getD .padding

theorem Program.getElem?_padded {p : Program ι} {capacity : Nat} (h : p.length ≤ capacity)
    (slot : Nat) :
    (p.padded capacity)[slot]? = if slot < capacity then some (p.slot slot) else none := by
  unfold Program.length at h
  simp only [padded, Program.length, Program.slot, List.getElem?_toArray, List.getElem?_append,
    List.getElem?_replicate]
  by_cases hgiven : slot < p.instructions.length
  · have hslot : slot < capacity := by omega
    simp [hgiven, hslot]
  · have hfiller : slot - p.instructions.length < capacity - p.instructions.length ↔
        slot < capacity := by omega
    simp [hgiven, hfiller]

/-- The call sets or removes the breakpoint of this slot. -/
def Call.flips (slot : Nat) : Call ι → Bool
  | .toggleBreakpoint other => other == slot
  | _ => false

theorem Call.flips_of_ne {k : Call ι} (hk : ∀ other, k ≠ .toggleBreakpoint other)
    (slot : Nat) : k.flips slot = false := by
  cases k with
  | toggleBreakpoint other => exact absurd rfl (hk other)
  | _ => rfl

namespace Machine

/-- The store has `capacity` slots with the instructions of the program, and the breakpoint
of each was changed as often as `times` says. -/
def Shows (capacity : Nat) (p : Program ι) (times : Nat → Nat) (m : Machine ι) : Prop :=
  ∀ slot, m.store[slot]? =
    if slot < capacity then some ((p.slot slot).flipped (times slot)) else none

variable {capacity : Nat} {p : Program ι} {times : Nat → Nat} {m n : Machine ι}

theorem Shows.of_store (h : m.Shows capacity p times) (hstore : n.store = m.store) :
    n.Shows capacity p times := by
  intro slot
  rw [hstore]
  exact h slot

theorem Shows.size (h : m.Shows capacity p times) : m.store.size = capacity := by
  have hlast := h m.store.size
  have hcapacity := h capacity
  rw [if_neg (Nat.lt_irrefl _), Array.getElem?_eq_none_iff] at hcapacity
  rw [Array.getElem?_size] at hlast
  split at hlast
  next => cases hlast
  next hbeyond => omega

/-- A program that has just been loaded is shown as it was written. -/
theorem shows_load (hload : m.load p = .ok n) :
    n.Shows m.config.storeSize p (fun _ => 0) := by
  obtain ⟨hfits, rfl⟩ := load_ok hload
  intro slot
  rw [Instruction.flipped_zero]
  exact Program.getElem?_padded hfits slot

/-- What a request for a breakpoint answers, and the machine that it leaves. -/
theorem Shows.toggleBreakpoint_eq (h : m.Shows capacity p times) (slot : Nat) :
    m.toggleBreakpoint slot =
      if slot < capacity then
        .ok (((p.slot slot).flipped (times slot + 1)).breakpoint,
          { m with
            store := m.store.setIfInBounds slot ((p.slot slot).flipped (times slot + 1)) })
      else
        .error (.instructionIndexOutOfRange slot capacity) := by
  unfold toggleBreakpoint
  rw [h slot, h.size]
  by_cases hslot : slot < capacity
  · rw [if_pos hslot, if_pos hslot, Instruction.flipped_succ]
  · rw [if_neg hslot, if_neg hslot]

theorem Shows.toggleBreakpoint (h : m.Shows capacity p times) (slot : Nat) :
    ((Call.toggleBreakpoint slot).apply m).Shows capacity p
      fun other => times other + if slot = other then 1 else 0 := by
  rw [Call.apply, h.toggleBreakpoint_eq]
  intro other
  by_cases hslot : slot < capacity
  · rw [if_pos hslot]
    change (m.store.setIfInBounds slot _)[other]? = _
    rw [Array.getElem?_setIfInBounds, h.size, h other]
    by_cases hsame : slot = other
    · subst hsame
      simp only [if_pos hslot, if_true]
    · simp only [if_neg hsame, Nat.add_zero]
  · -- Refused: the count goes up for a slot beyond the store, which shows nowhere.
    rw [if_neg hslot]
    refine (h other).trans ?_
    by_cases hother : other < capacity
    · have hne : slot ≠ other := by omega
      simp only [if_pos hother, if_neg hne, Nat.add_zero]
    · simp only [if_neg hother]

/-- Every call that loads nothing leaves the instructions, and counts where it is a request
for a breakpoint. -/
theorem Shows.call (h : m.Shows capacity p times) {k : Call ι} (hk : k.LoadsNothing m) :
    (k.apply m).Shows capacity p fun slot => times slot + [k].countP (Call.flips slot) := by
  obtain hkeeps | ⟨q, rfl⟩ | ⟨slot, rfl⟩ := k.keepsProgram_or
  · have hnone (slot : Nat) : k.flips slot = false :=
      Call.flips_of_ne (by rintro other rfl; exact hkeeps) slot
    simp only [List.countP_singleton, hnone, Bool.false_eq_true, if_false, Nat.add_zero]
    exact h.of_store (sameProgram_call hkeeps m).store
  · obtain ⟨e, hrefused⟩ := hk
    rw [Call.apply, hrefused]
    exact h
  · simp only [List.countP_singleton, Call.flips, beq_iff_eq]
    exact h.toggleBreakpoint slot

/-- Counts of calls one after the other add up. -/
theorem Shows.countP_append {ks rest : List (Call ι)}
    (h : m.Shows capacity p fun slot =>
      times slot + ks.countP (Call.flips slot) + rest.countP (Call.flips slot)) :
    m.Shows capacity p fun slot => times slot + (ks ++ rest).countP (Call.flips slot) := by
  simp only [Nat.add_assoc, ← List.countP_append] at h
  exact h

theorem Shows.calls (h : m.Shows capacity p times) {ks : List (Call ι)}
    (hks : m.CallsLoadNothing ks) :
    (m.afterCalls ks).Shows capacity p fun slot => times slot + ks.countP (Call.flips slot) := by
  induction ks generalizing m times with
  | nil => exact h
  | cons k rest ih =>
      exact (ih (h.call hks.1) hks.2).countP_append

variable [ClientHost ι]

/-- All calls of a history in their order, with those that the host's instructions make in
a step. -/
def callsMade (m : Machine ι) : List (Operation ι) → List (Call ι)
  | [] => []
  | .call k :: rest => k :: (k.apply m).callsMade rest
  | .step :: rest => m.hostCalls ++ (Machine.step.state m).callsMade rest

theorem Shows.step (h : m.Shows capacity p times)
    (hcalls : m.advance.CallsLoadNothing m.hostCalls) :
    (Machine.step.state m).Shows capacity p
      fun slot => times slot + m.hostCalls.countP (Call.flips slot) := by
  obtain ⟨hsame, hnone⟩ | hmade := m.state_step_cases
  · rw [hnone]
    exact h.of_store hsame.store
  · rw [hmade]
    have hadvance : m.advance.Shows capacity p times := h.of_store rfl
    exact hadvance.calls hcalls

theorem Shows.after (h : m.Shows capacity p times) {ops : List (Operation ι)}
    (hops : m.LoadsNothing ops) :
    (m.after ops).Shows capacity p
      fun slot => times slot + (m.callsMade ops).countP (Call.flips slot) := by
  induction ops generalizing m times with
  | nil => exact h
  | cons op rest ih =>
      cases op with
      | call k => exact (ih (h.call hops.1) hops.2).countP_append
      | step => exact (ih (h.step hops.1) hops.2).countP_append

/-- The program store is read-only apart from its breakpoints. After a machine has accepted
a program, and after every further history in which no other is accepted, one with faults,
restarts, refused loads and direct writes of cells and registers included, each slot holds
the instruction of the program, or padding, and only its breakpoint may differ: it was
changed once for each request since the load that names this slot. A request for a slot of
the store answers with the breakpoint as it is then, and a request for any other slot is
refused and changes nothing. -/
theorem store_changes_by_breakpoints_only {m loaded : Machine ι} {p : Program ι}
    (hload : m.load p = .ok loaded) (later : List (Operation ι))
    (hlater : loaded.LoadsNothing later) :
    let last := loaded.after later
    let times (slot : Nat) := (loaded.callsMade later).countP (Call.flips slot)
    last.store.size = m.config.storeSize ∧
      (∀ slot < m.config.storeSize,
        last.store[slot]? = some ((p.slot slot).flipped (times slot))) ∧
      (∀ slot < m.config.storeSize,
        last.toggleBreakpoint slot =
          .ok (((p.slot slot).flipped (times slot + 1)).breakpoint,
            (Call.toggleBreakpoint slot).apply last)) ∧
      ∀ slot, m.config.storeSize ≤ slot →
        last.toggleBreakpoint slot =
            .error (.instructionIndexOutOfRange slot m.config.storeSize) ∧
          (Call.toggleBreakpoint slot).apply last = last := by
  intro last times
  have hshows : last.Shows m.config.storeSize p times := by
    have hlast := (shows_load hload).after hlater
    simp only [Nat.zero_add] at hlast
    exact hlast
  refine ⟨hshows.size, ?_, ?_, ?_⟩
  · intro slot hslot
    rw [hshows slot, if_pos hslot]
  · intro slot hslot
    rw [Call.apply, hshows.toggleBreakpoint_eq, if_pos hslot]
  · intro slot hslot
    rw [Call.apply, hshows.toggleBreakpoint_eq, if_neg (Nat.not_lt.mpr hslot)]
    exact ⟨rfl, rfl⟩

/-- One of the two instructions has a breakpoint from the beginning. -/
def oneMarked : Program Empty where
  instructions :=
    [{ Standard.instruction .print with breakpoint := true },
      { Standard.instruction .halt with label := Remark.ofString? "end" }]

/-- Two breakpoints are changed, one of them in the padding, before and after a fault, a
restart and a refused load. Slot 3 does not exist. -/
def markings : List (Operation Empty) :=
  [.call (.toggleBreakpoint 0), .call (.toggleBreakpoint 2), .step,
    .call (.setRegisters ⟨5, 0, 0, 0, 0⟩), .call .restart, .call (.toggleBreakpoint 3),
    .call (.load { instructions := [], overlay := [⟨7, .zero⟩] }),
    .call (.toggleBreakpoint 0), .call (.toggleBreakpoint 0)]

theorem padding_keeps_its_breakpoint_through_restart :
    ∃ m loaded : Machine Empty, create ⟨3, 2, 1⟩ = .ok m ∧ m.load oneMarked = .ok loaded ∧
      loaded.LoadsNothing markings ∧
      (loaded.after markings).store[0]? = some (Standard.instruction .print) ∧
      (loaded.after markings).store[2]? =
        some { opcode := .padding, breakpoint := true } ∧
      (loaded.after markings).toggleBreakpoint 3 =
        .error (.instructionIndexOutOfRange 3 3) := by
  obtain ⟨m, hcreate, _⟩ := create_laidOut (ι := Empty) (c := ⟨3, 2, 1⟩) (by decide)
  obtain ⟨_, rfl⟩ := create_ok_iff.mp hcreate
  obtain ⟨loaded, hload⟩ : ∃ loaded,
      (blank ⟨3, 2, 1⟩ : Machine Empty).load oneMarked = .ok loaded := ⟨_, rfl⟩
  have hnothing : loaded.LoadsNothing markings := by
    cases hload
    exact ⟨trivial, trivial, trivial, trivial, trivial, trivial, ⟨_, rfl⟩, trivial, trivial,
      trivial⟩
  obtain ⟨_, hslots, _, hbeyond⟩ := store_changes_by_breakpoints_only hload markings hnothing
  refine ⟨_, loaded, hcreate, hload, hnothing, ?_, ?_, (hbeyond 3 (by decide)).1⟩
  · refine (hslots 0 (by decide)).trans ?_
    cases hload
    decide +kernel
  · refine (hslots 2 (by decide)).trans ?_
    cases hload
    decide +kernel

end Machine

end CellMachine
