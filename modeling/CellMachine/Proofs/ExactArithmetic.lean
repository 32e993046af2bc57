import CellMachine.Proofs.BoundedStack

/-!
Word arithmetic never wraps and no cell of the stack is ever missing. A careful machine
looks, before each computation that could go wrong, whether it will: whether the number
fits a word, whether the cell exists. In every history without direct writes of
registers it finds nothing, so it takes the same steps as the machine that does not look.
-/

namespace CellMachine

variable {ι α β : Type}

/-- What ends a computation of a careful machine. -/
inductive Trap where
  /-- A fault, which the machine reports. -/
  | fault (f : Fault)
  /-- A number that fits no word, or a cell that does not exist. -/
  | slip
deriving DecidableEq, Repr

namespace Careful

open Machine

/-- The computation as it is, with nothing to look for. -/
def lift (x : Exec ι α) : Attempt Trap (Machine ι) α := fun m =>
  match x.run m with
  | .ok a next => .ok a next
  | .error f next => .error (.fault f) next

/-- The computation, unless it is going to slip. -/
def guarded (slips : Machine ι → Bool) (x : Exec ι α) : Attempt Trap (Machine ι) α := fun m =>
  if slips m then .error .slip m else (lift x).run m

/-- A push computes the address above the top, and needs that cell if it is below the
ceiling. -/
def pushSlips (m : Machine ι) : Bool :=
  decide (¬ Word.Fits (m.registers.sp.toInt + 1)) ||
    decide (m.registers.sp + 1 < m.registers.ep ∧
      (m.registers.sp + 1).Outside m.memory.size)

/-- A pop from a filled stack needs the top cell and computes the address below it. -/
def popSlips (m : Machine ι) : Bool :=
  decide (¬ m.registers.sp < 0 ∧
    (m.registers.sp.Outside m.memory.size ∨ ¬ Word.Fits (m.registers.sp.toInt - 1)))

/-- The number of the slot that a label stands for has to be an address. -/
def targetSlips (i : Instruction ι) (m : Machine ι) : Bool :=
  (i.first.bind Value.label?).any fun l =>
    (m.labelSlot? l).any fun (slot : Nat) => decide (¬ Word.Fits slot)

/-- A fetch computes the number of the next slot. -/
def fetchSlips (m : Machine ι) : Bool :=
  m.current?.isSome && decide (¬ Word.Fits (m.registers.pc.toInt + 1))

/-- A start computes the first ceiling of the stack and the end of the heap from the
configured sizes. -/
def restartSlips (m : Machine ι) : Bool :=
  decide (¬ (Word.Fits m.config.maxStack ∧ Word.Fits m.config.memorySize))

/-- A look at the top needs no more than a pop. What `allocate` and `enter` compute, they
check themselves, as `readCell` and `writeCell` check the address. -/
def callSlips : Call ι → Machine ι → Bool
  | .load _, m | .restart, m => restartSlips m
  | .push _, m => pushSlips m
  | .pop, m | .peek, m => popSlips m
  | _, _ => false

/-- One of the calls slips in the machine that it meets. -/
def callsSlip : List (Call ι) → Machine ι → Bool
  | [], _ => false
  | k :: rest, m => callSlips k m || callsSlip rest (k.apply m)

def push (v : Value) : Attempt Trap (Machine ι) Unit := guarded pushSlips (Machine.push v)

def pop : Attempt Trap (Machine ι) Value := guarded popSlips Machine.pop

def target (i : Instruction ι) : Attempt Trap (Machine ι) Word :=
  guarded (targetSlips i) (Machine.target i)

def fetch : Attempt Trap (Machine ι) (Instruction ι) := guarded fetchSlips Machine.fetch

def popSize (i : Instruction ι) : Attempt Trap (Machine ι) Nat := do
  let size ← pop
  let n ← lift (Attempt.ofExcept (i.wordOf size))
  if n < 0 then
    throw (.fault (.invalidAllocationSize i.name n))
  return n.toInt.toNat

/-- The operations on a careful machine. -/
def perform (op : Standard) (i : Instruction ι) : Attempt Trap (Machine ι) Unit :=
  match op with
  | .ldc => do
      let v ← lift (Attempt.ofExcept (i.argument .first))
      push v
  | .ldo => do
      let address ← target i
      let v ← lift (readCell address)
      push v
  | .sro => do
      let address ← target i
      let v ← pop
      lift (writeCell address v)
  | .print => do
      let v ← pop
      lift (modify (Machine.print · v))
  | .new => do
      let units ← popSize i
      let block ← lift (allocate units)
      push block
  | .enter => do
      let frame ← lift (Attempt.ofExcept (i.wordArgument .first))
      lift (Machine.enter frame)
  | .ujp => do
      let address ← target i
      lift (modifyRegisters fun r => { r with pc := address })
  | .halt => lift (modify Machine.halt)

/-- An instruction of the host makes each of its calls with care. -/
def performInstruction [ClientHost ι] (i : Instruction ι) : Attempt Trap (Machine ι) Unit :=
  match i.opcode with
  | .padding => pure ()
  | .defined d =>
      match d.action with
      | .standard op => perform op i
      | .host op =>
          guarded (fun m => callsSlip (ClientHost.calls op i m) m) (Host.perform op i)

/-- Executes the next instruction with care. -/
def step [ClientHost ι] : Attempt Trap (Machine ι) Unit := do
  if (← get).running then
    let i ← fetch
    performInstruction i

/-- Where `P` holds, the careful computation does what the other does, and `P` holds
again when it ends, also after a fault. -/
def Follows (P : Machine ι → Prop) (x : Exec ι α) (y : Attempt Trap (Machine ι) α) : Prop :=
  ∀ m, P m → y.run m = (lift x).run m ∧ P (x.state m)

variable {P : Machine ι → Prop}

theorem follows_lift {x : Exec ι α} (h : Attempt.Preserves P x) : Follows P x (lift x) :=
  fun m hm => ⟨rfl, h m hm⟩

theorem follows_guarded {slips : Machine ι → Bool} {x : Exec ι α}
    (hsafe : ∀ m, P m → slips m = false) (h : Attempt.Preserves P x) :
    Follows P x (guarded slips x) := by
  intro m hm
  refine ⟨?_, h m hm⟩
  change (if slips m then _ else _) = _
  rw [hsafe m hm]
  rfl

theorem run_lift_of_ok {x : Exec ι α} {m n : Machine ι} {a : α} (h : x.run m = .ok a n) :
    (lift x).run m = .ok a n := by
  simp only [lift, EStateM.run] at h ⊢
  rw [h]

theorem run_lift_of_error {x : Exec ι α} {m n : Machine ι} {f : Fault}
    (h : x.run m = .error f n) : (lift x).run m = .error (.fault f) n := by
  simp only [lift, EStateM.run] at h ⊢
  rw [h]

theorem Follows.bind {x : Exec ι α} {y : Attempt Trap (Machine ι) α} {f : α → Exec ι β}
    {g : α → Attempt Trap (Machine ι) β} (hx : Follows P x y)
    (hf : ∀ a, Follows P (f a) (g a)) : Follows P (x >>= f) (y >>= g) := by
  intro m hm
  obtain ⟨hfirst, hnext⟩ := hx m hm
  cases hrun : x.run m with
  | ok a next =>
      rw [run_lift_of_ok hrun] at hfirst
      rw [Attempt.state_of_ok hrun] at hnext
      obtain ⟨hrest, hend⟩ := hf a next hnext
      rw [Attempt.run_bind_of_ok hfirst, hrest, Attempt.state_bind_of_ok hrun]
      refine ⟨?_, hend⟩
      have hboth := Attempt.run_bind_of_ok hrun f
      simp only [lift, EStateM.run] at hboth ⊢
      rw [hboth]
  | error e next =>
      rw [run_lift_of_error hrun] at hfirst
      rw [Attempt.state_of_error hrun] at hnext
      rw [Attempt.run_bind_of_error hfirst, Attempt.state_bind_of_error hrun]
      exact ⟨(run_lift_of_error (Attempt.run_bind_of_error hrun f)).symm, hnext⟩

/-- Both look at the same condition before they fail or go on. -/
theorem Follows.guard {p : Prop} [Decidable p] {f : Fault} {x : Exec ι α}
    {y : Attempt Trap (Machine ι) α} (h : Follows P x y) :
    Follows P
      (do
        if p then
          throw f
        x)
      (do
        if p then
          throw (.fault f)
        y) := by
  by_cases hp : p
  · simp only [if_pos hp]
    intro m hm
    exact ⟨rfl, hm⟩
  · simp only [if_neg hp]
    exact h

end Careful

namespace Machine

variable {c : Config} {m : Machine ι}

/-- The machine is laid out, and its labels are those of a program in its store. -/
structure InBounds (c : Config) (m : Machine ι) : Prop where
  laidOut : m.LaidOut c
  holds : ∃ p, m.Holds c p

theorem InBounds.call (hc : c.flaw? = none) {k : Call ι} (hk : k.Indirect)
    (h : m.InBounds c) : (k.apply m).InBounds c := by
  obtain ⟨p, hp⟩ := h.holds
  exact ⟨h.laidOut.call hc hk, _, hp.call k⟩

theorem InBounds.jump (hc : c.flaw? = none) (h : m.InBounds c) (pc : Word) :
    (m.jump pc).InBounds c := by
  obtain ⟨p, hp⟩ := h.holds
  exact ⟨(laidOut_enduring hc).jump m pc h.laidOut, p, hp.of_sameProgram (.update ..)⟩

theorem inBounds_upheld [ClientHost ι] (hc : c.flaw? = none) (hhost : ClientHost.Indirect ι) :
    Upheld Call.Indirect (fun m : Machine ι => m.InBounds c) where
  elementary _ hk := hk.indirect
  host := hhost
  call _ hk _ hm := hm.call hc hk
  jump _ pc hm := hm.jump hc pc

theorem Starts.inBounds [ClientHost ι] (hc : c.flaw? = none) (h : m.Starts c) :
    m.InBounds c := by
  refine ⟨(h.laidOut hc).1, ?_⟩
  cases h with
  | fresh hm => exact ⟨_, create_holds hm⟩
  | restarted ops hm => exact ⟨_, (holds_lastAccepted hm ops).call .restart⟩
  | loaded ops p hm hload =>
      have hholds := (holds_lastAccepted hm ops).call (.load p)
      rw [Call.apply, hload] at hholds
      exact ⟨_, hholds⟩

open Careful

theorem LaidOut.pushSlips_eq_false (hc : c.flaw? = none) (h : m.LaidOut c) :
    pushSlips m = false := by
  obtain ⟨_, _, hword, _⟩ := c.flaw?_eq_none_iff.mp hc
  have hsucc := h.registers.toInt_sp_succ hc
  have hfits := (m.registers.sp + 1).fits
  obtain ⟨hlow, _, _, hgap, hhp, _⟩ := h.registers
  simp only [pushSlips, Word.lt_iff, Word.Outside, h.memory_size]
  rw [hsucc] at hfits ⊢
  simp only [hfits, not_true_eq_false, decide_false, Bool.false_or, decide_eq_false_iff_not]
  omega

theorem LaidOut.popSlips_eq_false (hc : c.flaw? = none) (h : m.LaidOut c) :
    popSlips m = false := by
  have hpred := h.registers.toInt_sp_pred
  have hfits := (m.registers.sp - 1).fits
  have hsize := h.sp_lt_size hc
  rw [hpred] at hfits
  simp only [popSlips, Word.lt_iff, Word.toInt_zero, Word.Outside, hfits, not_true_eq_false,
    or_false, decide_eq_false_iff_not]
  omega

theorem LaidOut.restartSlips_eq_false (hc : c.flaw? = none) (h : m.LaidOut c) :
    restartSlips m = false := by
  obtain ⟨_, _, hword, hstack⟩ := c.flaw?_eq_none_iff.mp hc
  simp only [restartSlips, h.config, Word.Fits, decide_eq_false_iff_not]
  omega

theorem LaidOut.callSlips_eq_false (hc : c.flaw? = none) (h : m.LaidOut c) (k : Call ι) :
    callSlips k m = false := by
  cases k with
  | load p => exact h.restartSlips_eq_false hc
  | restart => exact h.restartSlips_eq_false hc
  | push v => exact h.pushSlips_eq_false hc
  | pop => exact h.popSlips_eq_false hc
  | peek => exact h.popSlips_eq_false hc
  | _ => rfl

theorem LaidOut.callsSlip_eq_false (hc : c.flaw? = none) (ks : List (Call ι))
    (hks : ∀ k ∈ ks, k.Indirect) (h : m.LaidOut c) : callsSlip ks m = false := by
  induction ks generalizing m with
  | nil => rfl
  | cons k rest ih =>
      have hnext := h.call hc (hks k (by simp))
      have hrest := ih (fun next member => hks next (by simp [member])) hnext
      simp [callsSlip, h.callSlips_eq_false hc k, hrest]

/-- The slot of a label is one of the program's, so a word can hold its number. -/
theorem InBounds.fits_labelSlot (hstore : c.storeSize < 0x8000000000000000)
    (h : m.InBounds c) {l : String} {slot : Nat} (hslot : m.labelSlot? l = some slot) :
    Word.Fits slot := by
  obtain ⟨p, hp⟩ := h.holds
  have hfits := hp.fits
  rw [hp.labels] at hslot
  obtain ⟨hlt, _⟩ := List.findIdx?_eq_some_iff_getElem.mp hslot
  unfold Program.length at hfits
  unfold Word.Fits
  omega

theorem InBounds.targetSlips_eq_false (hstore : c.storeSize < 0x8000000000000000)
    (h : m.InBounds c) (i : Instruction ι) : targetSlips i m = false := by
  unfold targetSlips
  cases i.first.bind Value.label? with
  | none => rfl
  | some l =>
      rw [Option.any_some]
      cases hslot : m.labelSlot? l with
      | none => rfl
      | some slot =>
          rw [Option.any_some, decide_eq_false_iff_not]
          exact fun hslips => hslips (h.fits_labelSlot hstore hslot)

/-- The counter stands on a slot, so the number of the next one is at most their number. -/
theorem LaidOut.fits_pc_succ (hstore : c.storeSize < 0x8000000000000000) (h : m.LaidOut c)
    {i : Instruction ι} (hi : m.current? = some i) :
    Word.Fits (m.registers.pc.toInt + 1) := by
  unfold current? instructionAt? at hi
  obtain ⟨slot, hslot, _⟩ := Option.map_eq_some_iff.mp hi
  have hpc := Word.index?_eq_some_iff.mp hslot
  have hlt := slot.isLt
  have hsize := h.store_size
  unfold Word.Fits
  omega

theorem LaidOut.fetchSlips_eq_false (hstore : c.storeSize < 0x8000000000000000)
    (h : m.LaidOut c) : fetchSlips m = false := by
  unfold fetchSlips
  cases hi : m.current? with
  | none => rfl
  | some i => simp [h.fits_pc_succ hstore hi]

/-- A push that does not slip finds its cell. -/
theorem result_push_ne {v : Value} (h : pushSlips m = false) (a : Word) (size : Nat) :
    (push v).result m ≠ .error (.addressOutOfRange a size) := by
  simp only [pushSlips, Bool.or_eq_false_iff, decide_eq_false_iff_not, not_and] at h
  rw [Attempt.result, run_push]
  by_cases hfull : m.registers.ep ≤ m.registers.sp + 1
  · rw [if_pos hfull]
    simp
  · have hbelow : m.registers.sp + 1 < m.registers.ep := by
      rw [Word.le_iff] at hfull
      rw [Word.lt_iff]
      omega
    rw [if_neg hfull]
    obtain ⟨houtside, _⟩ | ⟨_, i, hlocate, _⟩ := m.memory.locate_cases (m.registers.sp + 1)
    · exact absurd houtside (h.2 hbelow)
    · rw [hlocate]
      simp

theorem result_peek_ne (h : popSlips m = false) (a : Word) (size : Nat) :
    peek.result m ≠ .error (.addressOutOfRange a size) := by
  simp only [popSlips, decide_eq_false_iff_not, not_and, not_or] at h
  rw [Attempt.result, run_peek]
  by_cases hempty : m.registers.sp < 0
  · rw [if_pos hempty]
    simp
  · rw [if_neg hempty, Memory.read_eq]
    cases hcell : m.memory.cell? m.registers.sp with
    | none => exact absurd (Memory.cell?_eq_none_iff.mp hcell) (h hempty).1
    | some v => simp

/-- A pop fails as a look at the top does. -/
theorem result_pop (m : Machine ι) : pop.result m = peek.result m := by
  unfold pop
  rw [Attempt.result_bind, Attempt.result]
  cases peek.run m <;> rfl

end Machine

namespace Careful

open Machine

variable {c : Config}

theorem push_follows (hc : c.flaw? = none) (v : Value) :
    Follows (fun m : Machine ι => m.InBounds c) (Machine.push v) (push v) :=
  follows_guarded (fun _ hm => hm.laidOut.pushSlips_eq_false hc)
    fun _ hm => hm.call hc (k := .push v) trivial

theorem pop_follows (hc : c.flaw? = none) :
    Follows (fun m : Machine ι => m.InBounds c) Machine.pop pop :=
  follows_guarded (fun _ hm => hm.laidOut.popSlips_eq_false hc)
    fun _ hm => hm.call hc (k := .pop) trivial

theorem target_follows (hstore : c.storeSize < 0x8000000000000000) (i : Instruction ι) :
    Follows (fun m => m.InBounds c) (Machine.target i) (target i) :=
  follows_guarded (fun _ hm => hm.targetSlips_eq_false hstore i)
    (Standard.target_preserves _ i)

theorem fetch_follows (hc : c.flaw? = none) (hstore : c.storeSize < 0x8000000000000000) :
    Follows (fun m : Machine ι => m.InBounds c) Machine.fetch fetch := by
  apply follows_guarded (fun _ hm => hm.laidOut.fetchSlips_eq_false hstore)
  intro m hm
  rw [Attempt.state_eq, run_fetch]
  cases m.current? with
  | none => exact hm
  | some i => exact hm.jump hc _

theorem popSize_follows (hc : c.flaw? = none) (i : Instruction ι) :
    Follows (fun m => m.InBounds c) (Standard.popSize i) (popSize i) := by
  refine Follows.bind (pop_follows hc) fun size => ?_
  refine Follows.bind (follows_lift (Attempt.preserves_ofExcept _ _)) fun n => ?_
  exact Follows.guard fun m hm => ⟨rfl, hm⟩

/-- One operation after the other: whatever it computes, it computes in bounds. -/
theorem perform_follows (hc : c.flaw? = none) (hstore : c.storeSize < 0x8000000000000000)
    (op : Standard) (i : Instruction ι) :
    Follows (fun m => m.InBounds c) (op.perform i) (perform op i) := by
  have hcall (k : Call ι) (hk : k.Indirect) (m : Machine ι) (hm : m.InBounds c) :
      (k.apply m).InBounds c := hm.call hc hk
  have hargument {α : Type} (r : Except Fault α) :
      Follows (fun m : Machine ι => m.InBounds c) (Attempt.ofExcept r)
        (lift (Attempt.ofExcept r)) := follows_lift (Attempt.preserves_ofExcept _ r)
  cases op with
  | ldc => exact Follows.bind (hargument _) fun v => push_follows hc v
  | ldo =>
      refine Follows.bind (target_follows hstore i) fun address => ?_
      refine Follows.bind (follows_lift ?_) fun v => push_follows hc v
      exact hcall (.readCell address) trivial
  | sro =>
      refine Follows.bind (target_follows hstore i) fun address => ?_
      refine Follows.bind (pop_follows hc) fun v => follows_lift ?_
      exact hcall (.writeCell address v) trivial
  | print =>
      refine Follows.bind (pop_follows hc) fun v => follows_lift ?_
      exact Attempt.preserves_modify _ _ (hcall (.print v) trivial)
  | new =>
      refine Follows.bind (popSize_follows hc i) fun units => ?_
      refine Follows.bind (follows_lift ?_) fun block => push_follows hc block
      exact hcall (.allocate units) trivial
  | enter =>
      refine Follows.bind (hargument _) fun frame => follows_lift ?_
      exact hcall (.enter frame) trivial
  | ujp =>
      refine Follows.bind (target_follows hstore i) fun address => follows_lift ?_
      intro m hm
      exact hm.jump hc address
  | halt => exact follows_lift (Attempt.preserves_modify _ _ (hcall .halt trivial))

variable [ClientHost ι]

theorem performInstruction_follows (hc : c.flaw? = none)
    (hstore : c.storeSize < 0x8000000000000000) (hhost : ClientHost.Indirect ι)
    (i : Instruction ι) :
    Follows (fun m => m.InBounds c) i.perform (performInstruction i) := by
  unfold Instruction.perform performInstruction
  cases i.opcode with
  | padding => exact fun m hm => ⟨rfl, hm⟩
  | defined d =>
      dsimp only
      cases d.action with
      | standard op => exact perform_follows hc hstore op i
      | host op =>
          apply follows_guarded
          · exact fun m hm => hm.laidOut.callsSlip_eq_false hc _ (hhost op i m)
          intro m hm
          rw [ClientHost.state_perform]
          exact afterCalls_induction (inBounds_upheld hc hhost).call _ (hhost op i m) m hm

/-- A careful machine takes the same steps. -/
theorem step_follows (hc : c.flaw? = none) (hstore : c.storeSize < 0x8000000000000000)
    (hhost : ClientHost.Indirect ι) :
    Follows (fun m : Machine ι => m.InBounds c) Machine.step step := by
  unfold Machine.step step
  refine Follows.bind (fun m hm => ⟨rfl, hm⟩) fun m => ?_
  cases m.running with
  | false => exact fun m hm => ⟨rfl, hm⟩
  | true =>
      exact Follows.bind (fetch_follows hc hstore) fun i =>
        performInstruction_follows hc hstore hhost i

end Careful

namespace Machine

variable [ClientHost ι] {c : Config}

/-- A machine with at most `2 ^ 63 - 1` slots is at its start, and operations follow, none
of which writes a register directly. What the operations are given does not matter. Then
the addresses beside the top of the stack are exact, and so are the number of the slot
after the one that is fetched, the slot that a label stands for and the registers of the
next start; the stack is a part of memory; no push, pop or peek misses a cell. A careful
machine finds nothing in any call, and takes the next step as this one does. -/
theorem no_operation_slips (hhost : ClientHost.Indirect ι) (c : Config)
    (hc : c.flaw? = none) (hstore : c.storeSize < 0x8000000000000000) :
    (∃ m : Machine ι, create c = .ok m) ∧
      ∀ start : Machine ι, start.Starts c →
        ∀ ops : List (Operation ι), (∀ op ∈ ops, op.Indirect) →
          let n := start.after ops
          (∀ address size,
            (∀ v, (push v).result n ≠ .error (.addressOutOfRange address size)) ∧
              pop.result n ≠ .error (.addressOutOfRange address size) ∧
              peek.result n ≠ .error (.addressOutOfRange address size)) ∧
            (∃ items, n.stack? = some items ∧
              (items.length : Int) = n.registers.sp.toInt + 1) ∧
            (Registers.initial n.config).ep.toInt = c.maxStack ∧
            (Registers.initial n.config).hp.toInt = c.memorySize ∧
            (∀ name l slot, n.labelSlot? l = some slot →
              ∃ address, n.resolve name (.label l) = .ok address ∧ address.toInt = slot) ∧
            (n.registers.sp + 1).toInt = n.registers.sp.toInt + 1 ∧
            (n.registers.sp - 1).toInt = n.registers.sp.toInt - 1 ∧
            (∀ i, n.current? = some i →
              (n.registers.pc + 1).toInt = n.registers.pc.toInt + 1) ∧
            (∀ k, Careful.callSlips k n = false) ∧
            Careful.step.run n = (Careful.lift Machine.step).run n := by
  obtain ⟨m, hcreate, _⟩ := create_laidOut (ι := ι) hc
  refine ⟨⟨m, hcreate⟩, ?_⟩
  intro start hstart ops hops n
  have hn : n.InBounds c := (inBounds_upheld hc hhost).after ops
    (fun k member => hops (.call k) member) start (hstart.inBounds hc)
  have hlaid := hn.laidOut
  have hpush := hlaid.pushSlips_eq_false hc
  have hpop := hlaid.popSlips_eq_false hc
  refine ⟨?_, hlaid.exists_stack hc, ?_, ?_, ?_, hlaid.registers.toInt_sp_succ hc,
    hlaid.registers.toInt_sp_pred, ?_, hlaid.callSlips_eq_false hc,
    (Careful.step_follows hc hstore hhost n hn).1⟩
  · intro address size
    rw [result_pop]
    exact ⟨fun v => result_push_ne hpush address size, result_peek_ne hpop address size,
      result_peek_ne hpop address size⟩
  · rw [hlaid.config]
    exact Registers.toInt_ep_initial hc
  · rw [hlaid.config]
    exact Registers.toInt_hp_initial hc
  · intro name l slot hslot
    refine ⟨Word.wrap slot, ?_, Word.toInt_wrap (hn.fits_labelSlot hstore hslot)⟩
    rw [resolve, hslot]
  · intro i hi
    have hone := Word.toInt_one
    rw [Word.toInt_add, hone]
    rw [hone]
    exact hlaid.fits_pc_succ hstore hi

/-- Frame, block, jump and value are the largest that there are, or the smallest. -/
def extremes : List (Operation Empty) :=
  [.call (.load
      { instructions :=
          [Standard.instruction .ldc (some (.int 0x7fffffffffffffff)),
            Standard.instruction .enter (some (.int 0x7fffffffffffffff)),
            Standard.instruction .new,
            Standard.instruction .ujp (some (.int 0x7fffffffffffffff))] }),
    .call (.allocate 0xffffffffffffffff), .call (.enter (-0x8000000000000000)), .step,
    .call (.push .zero), .step, .call .pop, .step, .step]

theorem counter_stands_on_last_word :
    ClientHost.Indirect Empty ∧ (Config.mk 4 2 1).flaw? = none ∧
      (∀ op ∈ extremes, op.Indirect) ∧
      ∃ start : Machine Empty, start.Starts ⟨4, 2, 1⟩ ∧
        (start.after extremes).registers.pc.toInt = 0x7fffffffffffffff ∧
        Careful.step.run (start.after extremes) =
          (Careful.lift Machine.step).run (start.after extremes) := by
  have hhost : ClientHost.Indirect Empty := fun op => op.elim
  have hops : ∀ op ∈ extremes, op.Indirect := by
    intro op member
    simp only [extremes, List.mem_cons, List.not_mem_nil, or_false] at member
    rcases member with rfl | rfl | rfl | rfl | rfl | rfl | rfl | rfl | rfl <;> trivial
  obtain ⟨⟨m, hcreate⟩, hall⟩ := no_operation_slips hhost ⟨4, 2, 1⟩ (by decide) (by decide)
  have hstart := Starts.fresh hcreate
  obtain ⟨_, _, _, _, _, _, _, _, _, hstep⟩ := hall m hstart extremes hops
  refine ⟨hhost, by decide, hops, m, hstart, ?_, hstep⟩
  obtain ⟨_, rfl⟩ := create_ok_iff.mp hcreate
  clear hcreate hall hstart hstep
  decide +kernel

end Machine

end CellMachine
