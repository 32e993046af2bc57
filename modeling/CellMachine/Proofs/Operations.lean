import CellMachine.Machine.Step
import CellMachine.Proofs.Attempt
import CellMachine.Proofs.Primitives

/-!
What can be done to a machine from outside, one operation after another. A call
is any operation but a step; each has a state that it leaves, whether it succeeds
or fails. A step of a standard instruction is made of a few elementary calls and
changes of the program counter, so a property that these keep is kept by the step.
-/

namespace CellMachine

variable {ι : Type}

/-- The host operation that an instruction performs, if it is not a standard one. -/
def Instruction.host? (i : Instruction ι) : Option ι :=
  match i.opcode with
  | .padding => none
  | .defined d =>
      match d.action with
      | .standard _ => none
      | .host op => some op

/-- The standard operation that an instruction performs, if it is one. -/
def Instruction.operation? (i : Instruction ι) : Option Standard :=
  match i.opcode with
  | .padding => none
  | .defined d =>
      match d.action with
      | .standard op => some op
      | .host _ => none

/-- Padding, or an instruction with a standard operation. -/
def Instruction.IsStandard (i : Instruction ι) : Prop := i.host? = none

instance (i : Instruction ι) : Decidable i.IsStandard :=
  decidable_of_iff (i.host?.isNone = true) Option.isNone_iff_eq_none

def Program.IsStandard (p : Program ι) : Prop := ∀ i ∈ p.instructions, i.IsStandard

/-- The store holds nothing but standard instructions and padding. -/
def Machine.IsStandard (m : Machine ι) : Prop := ∀ i ∈ m.store, i.IsStandard

/-- Without a host there are no other instructions. -/
theorem Machine.isStandard_empty (m : Machine Empty) : m.IsStandard := by
  intro i _
  cases hhost : i.host? with
  | none => exact hhost
  | some op => exact op.elim

/-- What a host may ask of a machine besides a step. -/
inductive Call (ι : Type) where
  | load (p : Program ι)
  | restart
  | halt
  | push (v : Value)
  | pop
  | peek
  | allocate (units : Nat)
  | enter (frame : Word)
  | readCell (address : Word)
  | writeCell (address : Word) (v : Value)
  | print (v : Value)
  | drain
  | toggleBreakpoint (slot : Nat)
  /-- Writes any of the registers directly. -/
  | setRegisters (r : Registers)

namespace Call

/-- The machine after a call, which may have failed. -/
def apply : Call ι → Machine ι → Machine ι
  | .load p, m =>
      match m.load p with
      | .ok loaded => loaded
      | .error _ => m
  | .restart, m => m.restart
  | .halt, m => m.halt
  | .push v, m => (Machine.push v).state m
  | .pop, m => Machine.pop.state m
  | .peek, m => Machine.peek.state m
  | .allocate units, m => (Machine.allocate units).state m
  | .enter frame, m => (Machine.enter frame).state m
  | .readCell address, m => (Machine.readCell address).state m
  | .writeCell address v, m => (Machine.writeCell address v).state m
  | .print v, m => m.print v
  | .drain, m => m.drain.2
  | .toggleBreakpoint slot, m =>
      match m.toggleBreakpoint slot with
      | .ok (_, marked) => marked
      | .error _ => m
  | .setRegisters r, m => { m with registers := r }

theorem apply_load_cases (p : Program ι) (m : Machine ι) :
    m.load p = .ok ((Call.load p).apply m) ∨
      ∃ e, m.load p = .error e ∧ (Call.load p).apply m = m := by
  simp only [apply]
  cases m.load p with
  | ok loaded => exact Or.inl rfl
  | error e => exact Or.inr ⟨e, rfl, rfl⟩

theorem apply_toggleBreakpoint_cases (slot : Nat) (m : Machine ι) :
    (∃ marked, m.toggleBreakpoint slot =
      .ok (marked, (Call.toggleBreakpoint slot).apply m)) ∨
      ∃ e, m.toggleBreakpoint slot = .error e ∧
        (Call.toggleBreakpoint slot).apply m = m := by
  simp only [apply]
  cases m.toggleBreakpoint slot with
  | ok result => exact Or.inl ⟨result.1, rfl⟩
  | error e => exact Or.inr ⟨e, rfl, rfl⟩

/-- The calls that standard instructions are made of. -/
def IsElementary : Call ι → Prop
  | .halt | .push _ | .pop | .allocate _ | .enter _ | .writeCell .. | .print _ => True
  | _ => False

/-- The calls that leave store, labels and seeds as they are. -/
def KeepsProgram : Call ι → Prop
  | .load _ | .toggleBreakpoint _ => False
  | _ => True

/-- Only a load and a breakpoint can change the program. -/
theorem keepsProgram_or (c : Call ι) :
    c.KeepsProgram ∨ (∃ p, c = .load p) ∨ ∃ slot, c = .toggleBreakpoint slot := by
  cases c with
  | load p => exact Or.inr (Or.inl ⟨p, rfl⟩)
  | toggleBreakpoint slot => exact Or.inr (Or.inr ⟨slot, rfl⟩)
  | _ => exact Or.inl trivial

theorem IsElementary.keepsProgram {c : Call ι} (h : c.IsElementary) : c.KeepsProgram := by
  cases c <;> trivial

/-- The calls that write no register directly. -/
def Indirect : Call ι → Prop
  | .setRegisters _ => False
  | _ => True

theorem IsElementary.indirect {c : Call ι} (h : c.IsElementary) : c.Indirect := by
  cases c <;> trivial

/-- The calls of a host that writes no register directly and loads programs of
standard instructions only. -/
def Orderly : Call ι → Prop
  | .load p => p.IsStandard
  | .setRegisters _ => False
  | _ => True

theorem Orderly.indirect {c : Call ι} (h : c.Orderly) : c.Indirect := by
  cases c <;> trivial

end Call

/-- What a host may ask of a machine. -/
inductive Operation (ι : Type) where
  | call (c : Call ι)
  | step

/-- The machine after an operation, which may have failed. -/
def Operation.apply [Host ι] : Operation ι → Machine ι → Machine ι
  | .call c, m => c.apply m
  | .step, m => Machine.step.state m

def Operation.Orderly : Operation ι → Prop
  | .call c => c.Orderly
  | .step => True

/-- The machine after a sequence of operations, none of which need succeed. -/
def Machine.after [Host ι] (m : Machine ι) (ops : List (Operation ι)) : Machine ι :=
  ops.foldl (fun m op => op.apply m) m

theorem Machine.after_nil [Host ι] (m : Machine ι) : m.after [] = m := rfl

theorem Machine.after_cons [Host ι] (m : Machine ι) (op : Operation ι)
    (ops : List (Operation ι)) : m.after (op :: ops) = (op.apply m).after ops := rfl

/-- What every admitted operation keeps, every sequence of them keeps. -/
theorem Machine.after_induction [Host ι] {P : Machine ι → Prop}
    {admitted : Operation ι → Prop}
    (hstep : ∀ op, admitted op → ∀ m, P m → P (op.apply m))
    (ops : List (Operation ι)) (hops : ∀ op ∈ ops, admitted op)
    (m : Machine ι) (hm : P m) : P (m.after ops) := by
  induction ops generalizing m with
  | nil => exact hm
  | cons op rest ih =>
      have hhead := hstep op (hops op (by simp)) m hm
      exact ih (fun next member => hops next (by simp [member])) (op.apply m) hhead

namespace Machine

/-- The machine with another program counter. -/
def jump (m : Machine ι) (pc : Word) : Machine ι :=
  { m with registers := { m.registers with pc } }

/-- A property of machines that elementary calls and changes of the program
counter keep. -/
structure Enduring (P : Machine ι → Prop) : Prop where
  call : ∀ c : Call ι, c.IsElementary → ∀ m, P m → P (c.apply m)
  jump : ∀ m pc, P m → P (m.jump pc)

end Machine

namespace Standard

open Machine Attempt

/-- The calls that an operation is made of. -/
def Makes : Standard → Call ι → Prop
  | .ldc, .push _ | .ldo, .push _ | .new, .push _ => True
  | .sro, .pop | .print, .pop | .new, .pop => True
  | .sro, .writeCell .. => True
  | .print, .print _ => True
  | .new, .allocate _ => True
  | .enter, .enter _ => True
  | .halt, .halt => True
  | _, _ => False

theorem Makes.isElementary {op : Standard} {c : Call ι} (h : op.Makes c) :
    c.IsElementary := by
  cases c with
  | halt | push | pop | allocate | enter | writeCell | print => trivial
  | _ => cases op <;> exact h.elim

variable {P : Machine ι → Prop}

theorem popSize_preserves (h : Preserves P (pop : Exec ι Value)) (i : Instruction ι) :
    Preserves P (popSize i) := by
  unfold popSize
  refine Preserves.bind h fun size => ?_
  refine Preserves.bind (preserves_ofExcept P _) fun n => ?_
  exact Preserves.guard (preserves_pure P _)

theorem target_preserves (P : Machine ι → Prop) (i : Instruction ι) :
    Preserves P (target i) := by
  intro m hm
  rwa [state_target]

/-- What is kept by the calls that an operation is made of, and by a jump if it is
one, survives the operation, also where it faults in the middle. -/
theorem perform_preserves_of_makes {op : Standard}
    (hcall : ∀ c : Call ι, op.Makes c → ∀ m, P m → P (c.apply m))
    (hjump : op = .ujp → ∀ m pc, P m → P (m.jump pc)) (i : Instruction ι) :
    Preserves P (op.perform i) := by
  cases op with
  | ldc =>
      exact Preserves.bind (preserves_ofExcept P _) fun v => hcall (.push v) trivial
  | ldo =>
      refine Preserves.bind (target_preserves P i) fun address => ?_
      refine Preserves.bind ?_ fun v => hcall (.push v) trivial
      intro m hm
      rwa [state_readCell]
  | sro =>
      refine Preserves.bind (target_preserves P i) fun address => ?_
      exact Preserves.bind (hcall .pop trivial) fun v =>
        hcall (.writeCell address v) trivial
  | print =>
      exact Preserves.bind (hcall .pop trivial) fun v =>
        preserves_modify P _ (hcall (.print v) trivial)
  | new =>
      refine Preserves.bind (popSize_preserves (hcall .pop trivial) i) fun units => ?_
      exact Preserves.bind (hcall (.allocate units) trivial) fun block =>
        hcall (.push block) trivial
  | enter =>
      exact Preserves.bind (preserves_ofExcept P _) fun frame =>
        hcall (.enter frame) trivial
  | ujp =>
      refine Preserves.bind (target_preserves P i) fun address => ?_
      intro m hm
      exact hjump rfl m address hm
  | halt => exact preserves_modify P _ (hcall .halt trivial)

theorem perform_preserves (h : Enduring P) (op : Standard) (i : Instruction ι) :
    Preserves P (op.perform i) :=
  perform_preserves_of_makes (fun c hc => h.call c hc.isElementary) (fun _ => h.jump) i

end Standard

theorem Instruction.perform_of_operation [Host ι] {i : Instruction ι} {op : Standard}
    (h : i.operation? = some op) : i.perform = op.perform i := by
  unfold operation? at h
  unfold Instruction.perform
  cases hop : i.opcode with
  | padding =>
      rw [hop] at h
      cases h
  | defined d =>
      rw [hop] at h
      dsimp only at h ⊢
      cases haction : d.action with
      | standard op =>
          rw [haction] at h
          cases h
          rfl
      | host op =>
          rw [haction] at h
          cases h

/-- A standard instruction without an operation is padding. -/
theorem Instruction.IsStandard.perform_of_none [Host ι] {i : Instruction ι}
    (hi : i.IsStandard) (h : i.operation? = none) : i.perform = pure () := by
  unfold IsStandard host? at hi
  unfold operation? at h
  unfold Instruction.perform
  cases hop : i.opcode with
  | padding => rfl
  | defined d =>
      rw [hop] at hi h
      dsimp only at hi h
      cases haction : d.action with
      | standard op =>
          rw [haction] at h
          cases h
      | host op =>
          rw [haction] at hi
          cases hi

/-- A standard instruction does nothing or performs one of the standard operations. -/
theorem Instruction.IsStandard.perform_eq [Host ι] {i : Instruction ι} (hi : i.IsStandard) :
    i.perform = pure () ∨ ∃ op : Standard, i.perform = op.perform i := by
  cases hop : i.operation? with
  | none => exact Or.inl (hi.perform_of_none hop)
  | some op => exact Or.inr ⟨op, perform_of_operation hop⟩

theorem Instruction.perform_of_host [Host ι] {i : Instruction ι} {op : ι}
    (h : i.host? = some op) : i.perform = Host.perform op i := by
  unfold host? at h
  unfold Instruction.perform
  cases hop : i.opcode with
  | padding =>
      rw [hop] at h
      cases h
  | defined d =>
      rw [hop] at h
      dsimp only at h ⊢
      cases haction : d.action with
      | standard op =>
          rw [haction] at h
          cases h
      | host op =>
          rw [haction] at h
          cases h
          rfl

namespace Machine

/-- The machine with its counter on the next slot. -/
def advance (m : Machine ι) : Machine ι := m.jump (m.registers.pc + 1)

theorem run_fetch (m : Machine ι) :
    fetch.run m =
      match m.current? with
      | some i => .ok i m.advance
      | none => .error (.programCounterOutOfRange m.registers.pc m.store.size) m := by
  unfold fetch current? EStateM.run
  dsimp only
  cases m.instructionAt? m.registers.pc with
  | none => rfl
  | some i => rfl

/-- A step in full: a halted machine stays, a counter outside the store faults,
and any instruction sees the counter already moved. -/
theorem run_step [Host ι] (m : Machine ι) :
    Machine.step.run m =
      if m.running then
        match m.current? with
        | some i => i.perform.run m.advance
        | none => .error (.programCounterOutOfRange m.registers.pc m.store.size) m
      else .ok () m := by
  unfold Machine.step
  rw [EStateM.run_bind]
  change (if m.running = true then (do let i ← fetch; i.perform) else pure ()).run m = _
  cases m.running with
  | false => rfl
  | true =>
      rw [if_pos rfl, if_pos rfl, EStateM.run_bind, run_fetch]
      cases m.current? with
      | none => rfl
      | some i => rfl

theorem run_step_of_halted [Host ι] {m : Machine ι} (h : m.running = false) :
    Machine.step.run m = .ok () m := by
  rw [run_step, h]
  rfl

theorem run_step_of_none [Host ι] {m : Machine ι} (hrunning : m.running = true)
    (h : m.current? = none) :
    Machine.step.run m =
      .error (.programCounterOutOfRange m.registers.pc m.store.size) m := by
  rw [run_step, if_pos hrunning, h]

theorem run_step_of_current [Host ι] {m : Machine ι} {i : Instruction ι}
    (hrunning : m.running = true) (hi : m.current? = some i) :
    Machine.step.run m = i.perform.run m.advance := by
  rw [run_step, if_pos hrunning, hi]

theorem current?_mem {m : Machine ι} {i : Instruction ι} (h : m.current? = some i) :
    i ∈ m.store := by
  unfold current? instructionAt? at h
  obtain ⟨slot, _, rfl⟩ := Option.map_eq_some_iff.mp h
  exact Array.getElem_mem slot.isLt

/-- An enduring property survives every standard instruction. -/
theorem Enduring.perform [Host ι] {P : Machine ι → Prop} (h : Enduring P)
    {i : Instruction ι} (hi : i.IsStandard) : Attempt.Preserves P i.perform := by
  obtain hnothing | ⟨op, hop⟩ := hi.perform_eq
  · rw [hnothing]
    exact Attempt.preserves_pure P ()
  · rw [hop]
    exact Standard.perform_preserves h op i

/-- An enduring property survives a step of a standard machine. -/
theorem Enduring.step [Host ι] {P : Machine ι → Prop} (h : Enduring P) {m : Machine ι}
    (hstandard : m.IsStandard) (hm : P m) : P (Machine.step.state m) := by
  rw [Attempt.state_eq, run_step]
  cases m.running with
  | false => exact hm
  | true =>
      rw [if_pos rfl]
      cases hcurrent : m.current? with
      | none => exact hm
      | some i =>
          have hi := hstandard i (current?_mem hcurrent)
          exact h.perform hi m.advance (h.jump m _ hm)

/-- Two machines agree in all that only a load or a breakpoint changes. -/
structure SameProgram (m n : Machine ι) : Prop where
  config : n.config = m.config
  store : n.store = m.store
  labels : n.labels = m.labels
  overlay : n.overlay = m.overlay

theorem SameProgram.of_eq {m n : Machine ι} (h : n = m) : m.SameProgram n := by
  subst h
  exact ⟨rfl, rfl, rfl, rfl⟩

/-- All else may change. -/
theorem SameProgram.update (m : Machine ι) (registers : Registers) (memory : Memory)
    (output : Transcript) (running : Bool) :
    m.SameProgram { m with registers, memory, output, running } :=
  ⟨rfl, rfl, rfl, rfl⟩

theorem SameProgram.trans {m n k : Machine ι} (first : m.SameProgram n)
    (second : n.SameProgram k) : m.SameProgram k :=
  ⟨second.config.trans first.config, second.store.trans first.store,
    second.labels.trans first.labels, second.overlay.trans first.overlay⟩

theorem sameProgram_call {c : Call ι} (hc : c.KeepsProgram) (m : Machine ι) :
    m.SameProgram (c.apply m) := by
  cases c with
  | load p => exact hc.elim
  | toggleBreakpoint slot => exact hc.elim
  | restart => exact .update m ..
  | halt => exact .update m ..
  | print v => exact .update m ..
  | drain => exact .update m ..
  | setRegisters r => exact .update m ..
  | peek => exact .of_eq (state_peek m)
  | readCell address => exact .of_eq (state_readCell address m)
  | push v =>
      change m.SameProgram ((push v).state m)
      obtain h | ⟨_, _, _, h⟩ := state_push_cases v m
      · exact .of_eq h
      · rw [h]
        exact .update m ..
  | pop =>
      change m.SameProgram (pop.state m)
      obtain h | ⟨_, h⟩ := state_pop_cases m
      · exact .of_eq h
      · rw [h]
        exact .update m ..
  | allocate units =>
      change m.SameProgram ((allocate units).state m)
      obtain h | ⟨_, _, _, h⟩ := state_allocate_cases units m
      · exact .of_eq h
      · rw [h]
        exact .update m ..
  | enter frame =>
      change m.SameProgram ((enter frame).state m)
      obtain h | h | ⟨_, _, _, _, h⟩ := state_enter_cases frame m
      · exact .of_eq h
      · rw [h]
        exact .update m ..
      · rw [h]
        exact .update m ..
  | writeCell address v =>
      change m.SameProgram ((writeCell address v).state m)
      obtain h | ⟨_, _, h⟩ := state_writeCell_cases address v m
      · exact .of_eq h
      · rw [h]
        exact .update m ..

theorem sameProgram_enduring (m : Machine ι) : Enduring m.SameProgram where
  call _ hc n hn := hn.trans (sameProgram_call hc.keepsProgram n)
  jump _ _ hn := hn.trans (.update ..)

/-- A step of standard instructions changes no program. -/
theorem sameProgram_step [Host ι] {m : Machine ι} (hm : m.IsStandard) :
    m.SameProgram (Machine.step.state m) :=
  (sameProgram_enduring m).step hm (.of_eq rfl)

theorem SameProgram.isStandard {m n : Machine ι} (h : m.SameProgram n)
    (hm : m.IsStandard) : n.IsStandard := by
  intro i member
  rw [h.store] at member
  exact hm i member

theorem padded_isStandard {p : Program ι} (hp : p.IsStandard) (capacity : Nat) :
    ∀ i ∈ p.padded capacity, i.IsStandard := by
  intro i member
  simp only [Program.padded, List.mem_toArray, List.mem_append] at member
  rcases member with given | filler
  · exact hp i given
  · obtain ⟨_, rfl⟩ := List.mem_replicate.mp filler
    rfl

/-- A new machine: nothing but padding in the store, no seeds, and started. -/
def blank (c : Config) : Machine ι :=
  restart
    { config := c
      registers := .initial c
      memory := .zeros c.memorySize
      store := Array.replicate c.storeSize .padding
      labels := ∅
      overlay := []
      output := .empty
      running := false }

/-- Exactly the configurations without a flaw have a machine, and it is blank. -/
theorem create_ok_iff {c : Config} {m : Machine ι} :
    create c = .ok m ↔ c.flaw? = none ∧ m = blank c := by
  unfold create
  cases c.flaw? with
  | some flaw => simp
  | none =>
      constructor
      · intro h
        cases h
        exact ⟨rfl, rfl⟩
      · rintro ⟨_, rfl⟩
        rfl

/-- What a load that succeeds has found and what it leaves. -/
theorem load_ok {m n : Machine ι} {p : Program ι} (h : m.load p = .ok n) :
    p.length ≤ m.config.storeSize ∧
      n = restart
        { m with
          store := p.padded m.config.storeSize
          labels := .ofStore (p.padded m.config.storeSize)
          overlay := p.overlay } := by
  unfold load at h
  split at h
  next => cases h
  next hfits =>
    split at h
    next => cases h
    next =>
      cases h
      exact ⟨Nat.le_of_not_lt hfits, rfl⟩

/-- A breakpoint is set or removed at an instruction of the store. -/
theorem toggleBreakpoint_ok {m n : Machine ι} {slot : Nat} {marked : Bool}
    (h : m.toggleBreakpoint slot = .ok (marked, n)) :
    ∃ i, m.store[slot]? = some i ∧
      n = { m with
        store := m.store.setIfInBounds slot { i with breakpoint := marked } } := by
  unfold toggleBreakpoint at h
  split at h
  next i hi =>
    cases h
    exact ⟨i, hi, rfl⟩
  next => cases h

theorem load_isStandard {m n : Machine ι} {p : Program ι} (hp : p.IsStandard)
    (h : m.load p = .ok n) : n.IsStandard := by
  obtain ⟨_, rfl⟩ := load_ok h
  exact padded_isStandard hp _

theorem toggleBreakpoint_isStandard {m n : Machine ι} {slot : Nat} {marked : Bool}
    (hm : m.IsStandard) (h : m.toggleBreakpoint slot = .ok (marked, n)) :
    n.IsStandard := by
  obtain ⟨i, hi, rfl⟩ := toggleBreakpoint_ok h
  intro j member
  rcases Array.mem_or_eq_of_mem_setIfInBounds member with old | new
  · exact hm j old
  · rw [new]
    exact hm i (Array.mem_of_getElem? hi)

/-- Only a load can bring another instruction into the store. -/
theorem isStandard_call_of_loads {c : Call ι} (hc : ∀ p, c = .load p → p.IsStandard)
    {m : Machine ι} (hm : m.IsStandard) : (c.apply m).IsStandard := by
  obtain hkeeps | ⟨p, rfl⟩ | ⟨slot, rfl⟩ := c.keepsProgram_or
  · exact (sameProgram_call hkeeps m).isStandard hm
  · obtain hload | ⟨_, _, hsame⟩ := Call.apply_load_cases p m
    · exact load_isStandard (hc p rfl) hload
    · rwa [hsame]
  · obtain ⟨_, htoggle⟩ | ⟨_, _, hsame⟩ := Call.apply_toggleBreakpoint_cases slot m
    · exact toggleBreakpoint_isStandard hm htoggle
    · rwa [hsame]

theorem isStandard_call {c : Call ι} (hc : c.Orderly) {m : Machine ι}
    (hm : m.IsStandard) : (c.apply m).IsStandard :=
  isStandard_call_of_loads (by rintro p rfl; exact hc) hm

/-- An orderly host never gets another instruction into the store. -/
theorem isStandard_apply [Host ι] {op : Operation ι} (hop : op.Orderly) {m : Machine ι}
    (hm : m.IsStandard) : (op.apply m).IsStandard := by
  cases op with
  | step => exact (sameProgram_step hm).isStandard hm
  | call c => exact isStandard_call hop hm

end Machine

end CellMachine
