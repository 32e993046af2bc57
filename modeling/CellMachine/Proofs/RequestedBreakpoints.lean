import CellMachine.CommandLine.Session
import CellMachine.Proofs.Acceptance
import CellMachine.Proofs.ReadOnlyStore

/-!
The breakpoints that the command line asks for. A session turns the breakpoint of a slot once
for each time that the slot is asked for, so it is set where that is an odd number of times,
and asking for a slot again takes it away. Nothing else of the loaded demo changes.
-/

namespace CellMachine

/-- A machine of this configuration can be made, and it has room for the demo and its seeds. -/
structure Demo.Fits (d : Demo) (c : Config) : Prop where
  flaw : c.flaw? = none
  length : d.program.length ≤ c.storeSize
  seeds : ∀ s ∈ d.program.overlay, ¬ s.Outside c.memorySize

/-- No demo comes with a breakpoint. -/
theorem Demo.breakpoint_slot (d : Demo) (slot : Nat) :
    (d.program.slot slot).breakpoint = false := by
  have hall : ∀ i ∈ d.program.instructions, i.breakpoint = false := by
    cases d <;> decide +kernel
  unfold Program.slot
  cases hslot : d.program.instructions[slot]? with
  | none => rfl
  | some i => exact hall i (List.mem_of_getElem? hslot)

section Shown

variable {d : Demo} {capacity : Nat} {times : Nat → Nat} {m : Machine Empty}

/-- A demo whose breakpoints were changed has them where the number of changes is odd. -/
theorem Machine.Shows.getElem?_demo (h : m.Shows capacity d.program times) (slot : Nat) :
    m.store[slot]? =
      if slot < capacity then
        some { d.program.slot slot with breakpoint := decide (times slot % 2 = 1) }
      else none := by
  rw [h slot, Instruction.flipped, d.breakpoint_slot, Bool.false_xor]

theorem Machine.Shows.breakpoint_demo_iff (h : m.Shows capacity d.program times)
    {asked : Nat → Prop} :
    (∀ (slot : Nat) i, m.store[slot]? = some i → (i.breakpoint = true ↔ asked slot)) ↔
      ∀ slot < capacity, times slot % 2 = 1 ↔ asked slot := by
  constructor
  · intro hset slot hslot
    have hthere := hset slot _ ((h.getElem?_demo slot).trans (if_pos hslot))
    rwa [decide_eq_true_iff] at hthere
  · intro hodd slot i hi
    rw [h.getElem?_demo slot] at hi
    split at hi
    next hslot =>
      cases hi
      rw [decide_eq_true_iff]
      exact hodd slot hslot
    next => cases hi

end Shown

namespace CommandLine

open Machine

section Marking

variable {capacity : Nat} {p : Program Empty} {times : Nat → Nat} {m : Machine Empty}

theorem markAll_cons (slot : Nat) (rest : List Nat) (m : Machine Empty) :
    markAll (slot :: rest) m =
      (m.toggleBreakpoint slot).bind fun answer => markAll rest answer.2 := by
  unfold markAll
  rw [List.foldlM_cons]
  cases m.toggleBreakpoint slot <;> rfl

/-- The first slot of the list is turned, and the others follow on the machine that this
leaves. -/
theorem markAll_cons_of_lt (h : m.Shows capacity p times) {slot : Nat} (hslot : slot < capacity)
    (rest : List Nat) :
    markAll (slot :: rest) m = markAll rest ((Call.toggleBreakpoint slot).apply m) := by
  rw [markAll_cons, Call.apply, h.toggleBreakpoint_eq, if_pos hslot]
  rfl

/-- Setting or removing a breakpoint replaces the store and nothing else. -/
theorem apply_toggleBreakpoint_eq (h : m.Shows capacity p times) (slot : Nat) :
    (Call.toggleBreakpoint slot).apply m =
      { m with store := ((Call.toggleBreakpoint slot).apply m).store } := by
  rw [Call.apply, h.toggleBreakpoint_eq]
  by_cases hslot : slot < capacity
  · rw [if_pos hslot]
  · rw [if_neg hslot]

/-- Slots of the store are all turned, each as often as the list has it. -/
theorem markAll_of_inside (h : m.Shows capacity p times) {slots : List Nat}
    (hinside : ∀ slot ∈ slots, slot < capacity) :
    ∃ marked, markAll slots m = .ok marked ∧
      marked.Shows capacity p (fun slot => times slot + slots.count slot) ∧
      marked = { m with store := marked.store } := by
  induction slots generalizing m times with
  | nil => exact ⟨m, rfl, h, rfl⟩
  | cons slot rest ih =>
      obtain ⟨hslot, hrest⟩ := List.forall_mem_cons.mp hinside
      obtain ⟨marked, hmarked, hshows, hkept⟩ := ih (h.toggleBreakpoint slot) hrest
      refine ⟨marked, (markAll_cons_of_lt h hslot rest).trans hmarked, ?_, ?_⟩
      · have hcount (other : Nat) : (times other + if slot = other then 1 else 0) +
            rest.count other = times other + (slot :: rest).count other := by
          rw [List.count_cons]
          simp only [beq_iff_eq]
          omega
        simp only [hcount] at hshows
        exact hshows
      · rw [apply_toggleBreakpoint_eq h slot] at hkept
        exact hkept

/-- The first slot outside the store is refused, whatever follows it. -/
theorem markAll_of_outside (h : m.Shows capacity p times) {before : List Nat} {slot : Nat}
    (hbefore : ∀ other ∈ before, other < capacity) (hslot : capacity ≤ slot)
    (rest : List Nat) :
    markAll (before ++ slot :: rest) m =
      .error (.instructionIndexOutOfRange slot capacity) := by
  induction before generalizing m times with
  | nil =>
      rw [List.nil_append, markAll_cons, h.toggleBreakpoint_eq, if_neg (Nat.not_lt.mpr hslot)]
      rfl
  | cons other before ih =>
      obtain ⟨hother, hbefore⟩ := List.forall_mem_cons.mp hbefore
      rw [List.cons_append, markAll_cons_of_lt h hother]
      exact ih (h.toggleBreakpoint other) hbefore

end Marking

/-- Where the demo fits, a session marks the machine that has just loaded it. -/
theorem exists_setup_eq {o : Options} (hfits : o.demo.Fits o.config) :
    ∃ loaded, (blank o.config).load o.demo.program = .ok loaded ∧
      (setup o).2 = markAll o.breakAt loaded := by
  have hcreate : create o.config = .ok (blank o.config : Machine Empty) :=
    create_ok_iff.mpr ⟨hfits.flaw, rfl⟩
  have hload : (blank o.config : Machine Empty).load o.demo.program = .ok _ :=
    load_eq_ok_iff.mpr ⟨hfits.length, hfits.seeds, rfl⟩
  refine ⟨_, hload, ?_⟩
  unfold setup
  rw [hcreate]
  simp only [hload]

/-- The slots that are asked for an odd number of times are all that are asked for exactly
if each of those is. -/
theorem odd_count_iff_mem_iff {slots : List Nat} {capacity : Nat}
    (hinside : ∀ slot ∈ slots, slot < capacity) :
    (∀ slot < capacity, slots.count slot % 2 = 1 ↔ slot ∈ slots) ↔
      ∀ slot ∈ slots, slots.count slot % 2 = 1 := by
  constructor
  · intro h slot hmem
    exact (h slot (hinside slot hmem)).mpr hmem
  · intro h slot _
    refine ⟨fun hodd => ?_, h slot⟩
    rw [← List.count_pos_iff]
    omega

/-- The breakpoints of a session are those that are asked for an odd number of times. For
every demo that fits its configuration and every list of slots of the store, in any order and
with any repetitions, the session is set up: it has the freshly loaded demo in all its parts
but the store, and there each instruction as it was loaded, with its breakpoint set exactly if
the list has its slot an odd number of times. So the breakpoints are those of the slots in the
list exactly if none of these stands in it an even number of times. The first slot outside the
store, if there is one, is refused by its number. -/
theorem breakpoints_set_by_odd_requests (o : Options) (hfits : o.demo.Fits o.config) :
    let capacity := o.config.storeSize
    ∃ fresh loaded, create o.config = .ok fresh ∧ fresh.load o.demo.program = .ok loaded ∧
      ((∀ slot ∈ o.breakAt, slot < capacity) →
        ∃ marked, (setup o).2 = .ok marked ∧
          marked = { loaded with store := marked.store } ∧
          (∀ slot : Nat, marked.store[slot]? = loaded.store[slot]?.map fun i : Instruction Empty =>
            { i with breakpoint := decide (o.breakAt.count slot % 2 = 1) }) ∧
          ((∀ (slot : Nat) i, marked.store[slot]? = some i →
              (i.breakpoint = true ↔ slot ∈ o.breakAt)) ↔
            ∀ slot ∈ o.breakAt, o.breakAt.count slot % 2 = 1)) ∧
      ∀ before slot rest, o.breakAt = before ++ slot :: rest →
        (∀ other ∈ before, other < capacity) → capacity ≤ slot →
          (setup o).2 = .error (.instructionIndexOutOfRange slot capacity) := by
  intro capacity
  obtain ⟨loaded, hload, hsetup⟩ := exists_setup_eq hfits
  have hfresh : loaded.Shows capacity o.demo.program (fun _ => 0) := shows_load hload
  refine ⟨_, loaded, create_ok_iff.mpr ⟨hfits.flaw, rfl⟩, hload, ?_, ?_⟩
  · intro hinside
    obtain ⟨marked, hmarked, hshows, hkept⟩ := markAll_of_inside hfresh hinside
    simp only [Nat.zero_add] at hshows
    refine ⟨marked, hsetup.trans hmarked, hkept, ?_, ?_⟩
    · intro slot
      rw [hshows.getElem?_demo, hfresh slot, Instruction.flipped_zero]
      by_cases hslot : slot < capacity
      · rw [if_pos hslot, if_pos hslot, Option.map_some]
      · rw [if_neg hslot, if_neg hslot, Option.map_none]
    · rw [hshows.breakpoint_demo_iff]
      exact odd_count_iff_mem_iff hinside
  · intro before slot rest hsplit hbefore hslot
    rw [hsetup, hsplit]
    exact markAll_of_outside hfresh hbefore hslot rest

/-- Slot 2 is asked for twice and slot 4 once, in a store that the demo fills. -/
def repeatedRequest : Options :=
  { demo := .globals, config := ⟨5, 21, 1⟩, breakAt := [2, 4, 2] }

theorem second_request_removes_breakpoint :
    repeatedRequest.demo.Fits repeatedRequest.config ∧
      (∀ slot ∈ repeatedRequest.breakAt, slot < repeatedRequest.config.storeSize) ∧
      ∃ marked, (setup repeatedRequest).2 = .ok marked ∧
        (marked.store[2]?.map Instruction.breakpoint = some false) ∧
        (marked.store[4]?.map Instruction.breakpoint = some true) ∧
        ¬ ∀ (slot : Nat) i, marked.store[slot]? = some i →
          (i.breakpoint = true ↔ slot ∈ repeatedRequest.breakAt) := by
  have hfits : repeatedRequest.demo.Fits repeatedRequest.config :=
    ⟨by decide, by decide, by decide⟩
  have hinside : ∀ slot ∈ repeatedRequest.breakAt, slot < repeatedRequest.config.storeSize := by
    decide
  obtain ⟨fresh, loaded, hcreate, hload, hset, _⟩ :=
    breakpoints_set_by_odd_requests repeatedRequest hfits
  obtain ⟨marked, hsetup, _, hslots, hiff⟩ := hset hinside
  have hloaded := shows_load hload
  obtain ⟨_, rfl⟩ := create_ok_iff.mp hcreate
  refine ⟨hfits, hinside, marked, hsetup, ?_, ?_, ?_⟩
  · rw [hslots, hloaded 2]
    decide +kernel
  · rw [hslots, hloaded 4]
    decide +kernel
  · rw [hiff]
    decide

end CommandLine

end CellMachine
