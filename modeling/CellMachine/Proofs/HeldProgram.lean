import CellMachine.Proofs.LabelIndex
import CellMachine.Proofs.Operations

/-!
Which program a machine holds. It is the last one that a load has accepted: the
store is that program with padding after it, up to breakpoints, and the label
index has the labels of that program. Registers may be written in any way
meanwhile, and a host may have instructions of its own as long as they act on the
machine through calls.
-/

namespace CellMachine

variable {ι : Type}

/-- The instruction without its breakpoint. -/
def Instruction.unmarked (i : Instruction ι) : Instruction ι := { i with breakpoint := false }

/-- The machine holds a program: the store is the program and padding, up to
breakpoints, and the index has the labels of the program. -/
structure Machine.Holds (c : Config) (p : Program ι) (m : Machine ι) : Prop where
  config : m.config = c
  fits : p.length ≤ c.storeSize
  store : m.store.map Instruction.unmarked = (p.padded c.storeSize).map Instruction.unmarked
  labels : ∀ l, m.labelSlot? l = p.instructions.findIdx? (·.hasLabel l)

/-- An element is replaced by one that `f` does not tell from it. -/
theorem map_setIfInBounds_of_eq {α β : Type} {f : α → β} {xs : Array α} {slot : Nat}
    {x y : α} (hx : xs[slot]? = some x) (hxy : f y = f x) :
    (xs.setIfInBounds slot y).map f = xs.map f := by
  rw [Array.map_setIfInBounds, hxy]
  apply Array.ext_getElem?
  intro other
  rw [Array.getElem?_setIfInBounds]
  split
  next hsame =>
    subst hsame
    obtain ⟨hslot, _⟩ := Array.getElem?_eq_some_iff.mp hx
    rw [Array.size_map, if_pos hslot, Array.getElem?_map, hx]
    rfl
  next => rfl

namespace Machine

variable {c : Config} {p : Program ι} {m n : Machine ι}

theorem Holds.of_sameProgram (h : m.Holds c p) (hsame : m.SameProgram n) : n.Holds c p where
  config := hsame.config.trans h.config
  fits := h.fits
  store := by
    rw [hsame.store]
    exact h.store
  labels l := by
    rw [labelSlot?, hsame.labels]
    exact h.labels l

/-- A new machine holds the empty program. -/
theorem create_holds (hm : create c = .ok m) : m.Holds c { instructions := [] } := by
  obtain ⟨_, rfl⟩ := create_ok_iff.mp hm
  refine ⟨rfl, Nat.zero_le _, ?_, ?_⟩
  · change (Array.replicate c.storeSize Instruction.padding).map _ = _
    simp [Program.padded, Program.length]
  · intro l
    simp [labelSlot?, blank, restart]

theorem Holds.load (h : m.Holds c p) {q : Program ι} (hload : m.load q = .ok n) :
    n.Holds c q := by
  obtain ⟨hfits, rfl⟩ := load_ok hload
  rw [h.config] at hfits
  refine ⟨h.config, hfits, ?_, ?_⟩
  · change (q.padded m.config.storeSize).map _ = _
    rw [h.config]
  · intro l
    change (LabelIndex.ofStore (q.padded m.config.storeSize))[l]? = _
    rw [LabelIndex.getElem?_ofStore, Program.findIdx?_padded]

theorem Holds.toggleBreakpoint (h : m.Holds c p) {slot : Nat} {marked : Bool}
    (htoggle : m.toggleBreakpoint slot = .ok (marked, n)) : n.Holds c p := by
  obtain ⟨i, hi, rfl⟩ := toggleBreakpoint_ok htoggle
  refine ⟨h.config, h.fits, ?_, h.labels⟩
  refine (map_setIfInBounds_of_eq hi ?_).trans h.store
  rfl

/-- Where a program is held, a search through the store finds what the index has. -/
theorem Holds.searchLabel?_eq (h : m.Holds c p) (l : String) :
    m.searchLabel? l = m.labelSlot? l := by
  have hunmarked (store : Array (Instruction ι)) :
      store.findIdx? (·.hasLabel l) =
        (store.map Instruction.unmarked).findIdx? (·.hasLabel l) := by
    rw [Array.findIdx?_map]
    rfl
  rw [searchLabel?, hunmarked, h.store, ← hunmarked, Program.findIdx?_padded, h.labels]

/-- The index has for every label what a search through the store finds. -/
def IsIndexed (m : Machine ι) : Prop := ∀ l, m.labelSlot? l = m.searchLabel? l

theorem Holds.isIndexed (h : m.Holds c p) : m.IsIndexed :=
  fun l => (h.searchLabel?_eq l).symm

end Machine

/-- The last program that a machine has accepted after a call, where `p` was the
last one before. -/
def Call.accepted (m : Machine ι) (p : Program ι) : Call ι → Program ι
  | .load q =>
      match m.load q with
      | .ok _ => q
      | .error _ => p
  | _ => p

theorem Call.accepted_of_keepsProgram {k : Call ι} (hk : k.KeepsProgram) (m : Machine ι)
    (p : Program ι) : k.accepted m p = p := by
  cases k with
  | load q => exact hk.elim
  | _ => rfl

/-- After a call a machine holds the last program that it has accepted. -/
theorem Machine.Holds.call {c : Config} {p : Program ι} {m : Machine ι} (h : m.Holds c p)
    (k : Call ι) : (k.apply m).Holds c (k.accepted m p) := by
  obtain hkeeps | ⟨q, rfl⟩ | ⟨slot, rfl⟩ := k.keepsProgram_or
  · rw [Call.accepted_of_keepsProgram hkeeps]
    exact h.of_sameProgram (sameProgram_call hkeeps m)
  · rw [Call.accepted]
    obtain hload | ⟨e, hrefused, hsame⟩ := Call.apply_load_cases q m
    · rw [hload]
      exact h.load hload
    · rw [hrefused, hsame]
      exact h
  · have hnote : (Call.toggleBreakpoint slot).accepted m p = p := rfl
    rw [hnote]
    obtain ⟨_, htoggle⟩ | ⟨_, _, hsame⟩ := Call.apply_toggleBreakpoint_cases slot m
    · exact h.toggleBreakpoint htoggle
    · rw [hsame]
      exact h

/-- A machine with a note of the last program that it has accepted. -/
structure Loaded (ι : Type) where
  machine : Machine ι
  program : Program ι

namespace Loaded

/-- The note is true. -/
def Holds (c : Config) (s : Loaded ι) : Prop := s.machine.Holds c s.program

def call (s : Loaded ι) (k : Call ι) : Loaded ι :=
  ⟨k.apply s.machine, k.accepted s.machine s.program⟩

theorem Holds.call {c : Config} {s : Loaded ι} (h : s.Holds c) (k : Call ι) :
    (s.call k).Holds c :=
  Machine.Holds.call h k

def calls (s : Loaded ι) (ks : List (Call ι)) : Loaded ι := ks.foldl call s

theorem Holds.calls {c : Config} {s : Loaded ι} (h : s.Holds c) (ks : List (Call ι)) :
    (s.calls ks).Holds c := by
  induction ks generalizing s with
  | nil => exact h
  | cons k rest ih => exact ih (h.call k)

end Loaded

/-- The machine after a sequence of calls, none of which need succeed. -/
def Machine.afterCalls (m : Machine ι) (ks : List (Call ι)) : Machine ι :=
  ks.foldl (fun m k => k.apply m) m

theorem Loaded.machine_calls (s : Loaded ι) (ks : List (Call ι)) :
    (s.calls ks).machine = s.machine.afterCalls ks := by
  induction ks generalizing s with
  | nil => rfl
  | cons k rest ih => exact ih (s.call k)

/-- A host whose operations act on the machine through calls only. The calls may
depend on the machine, and the operation may fail after any of them. -/
class ClientHost (ι : Type) extends Host ι where
  calls : ι → Instruction ι → Machine ι → List (Call ι)
  state_perform : ∀ (op : ι) (i : Instruction ι) (m : Machine ι),
    (Host.perform op i).state m = m.afterCalls (calls op i m)

instance : ClientHost Empty where
  calls op := nomatch op
  state_perform op := nomatch op

variable [ClientHost ι]

/-- The calls that the next step makes for an operation of the host. -/
def Machine.hostCalls (m : Machine ι) : List (Call ι) :=
  match m.running, m.current? with
  | true, some i =>
      match i.host? with
      | some op => ClientHost.calls op i m.advance
      | none => []
  | _, _ => []

/-- A step leaves the program as it is, or the host's calls are all that it does
after the counter has moved. -/
theorem Machine.state_step_cases (m : Machine ι) :
    m.SameProgram (Machine.step.state m) ∧ m.hostCalls = [] ∨
      Machine.step.state m = m.advance.afterCalls m.hostCalls := by
  rw [Attempt.state_eq, run_step]
  unfold hostCalls
  cases m.running with
  | false => exact Or.inl ⟨.of_eq rfl, rfl⟩
  | true =>
      rw [if_pos rfl]
      cases m.current? with
      | none => exact Or.inl ⟨.of_eq rfl, rfl⟩
      | some i =>
          dsimp only
          cases hhost : i.host? with
          | none =>
              have hadvance : m.SameProgram m.advance := .update ..
              exact Or.inl
                ⟨(sameProgram_enduring m).perform hhost m.advance hadvance, rfl⟩
          | some op =>
              right
              rw [Instruction.perform_of_host hhost]
              exact ClientHost.state_perform op i m.advance

namespace Loaded

def step (s : Loaded ι) : Loaded ι where
  machine := Machine.step.state s.machine
  program := (calls { s with machine := s.machine.advance } s.machine.hostCalls).program

theorem Holds.step {c : Config} {s : Loaded ι} (h : s.Holds c) : s.step.Holds c := by
  obtain ⟨hsame, hnone⟩ | hcalls := s.machine.state_step_cases
  · unfold Loaded.Holds Loaded.step
    rw [hnone]
    exact Machine.Holds.of_sameProgram h hsame
  · let advanced : Loaded ι := { s with machine := s.machine.advance }
    have hadvanced : advanced.Holds c :=
      Machine.Holds.of_sameProgram h (.update ..)
    have hfinal := hadvanced.calls s.machine.hostCalls
    unfold Loaded.Holds at hfinal
    rw [machine_calls] at hfinal
    unfold Loaded.Holds Loaded.step
    rw [hcalls]
    exact hfinal

def operate (s : Loaded ι) : Operation ι → Loaded ι
  | .call k => s.call k
  | .step => s.step

def after (s : Loaded ι) (ops : List (Operation ι)) : Loaded ι := ops.foldl operate s

/-- The note is true after every history. -/
theorem Holds.after {c : Config} {s : Loaded ι} (h : s.Holds c)
    (ops : List (Operation ι)) : (s.after ops).Holds c := by
  induction ops generalizing s with
  | nil => exact h
  | cons op rest ih =>
      cases op with
      | call k => exact ih (h.call k)
      | step => exact ih h.step

/-- The note does not change what the machine does. -/
theorem machine_after (s : Loaded ι) (ops : List (Operation ι)) :
    (s.after ops).machine = s.machine.after ops := by
  induction ops generalizing s with
  | nil => rfl
  | cons op rest ih =>
      cases op with
      | call k => exact ih (s.call k)
      | step => exact ih s.step

end Loaded

/-- The last program that was accepted in a history, and the empty one if none was. -/
def Machine.lastAccepted (m : Machine ι) (ops : List (Operation ι)) : Program ι :=
  (Loaded.after { machine := m, program := { instructions := [] } } ops).program

theorem Machine.holds_lastAccepted {c : Config} {m : Machine ι} (hm : create c = .ok m)
    (ops : List (Operation ι)) : (m.after ops).Holds c (m.lastAccepted ops) := by
  have hstart : Loaded.Holds c { machine := m, program := { instructions := [] } } :=
    create_holds hm
  have hfinal := hstart.after ops
  unfold Loaded.Holds at hfinal
  rw [Loaded.machine_after] at hfinal
  exact hfinal

end CellMachine
