import CellMachine.Proofs.Restarting

/-!
Machines in step. Standard instructions move doubles about and print them, but nothing that
they do depends on which double it is. So two machines that differ in nothing but doubles
go through every history in the same way: with the same registers, the same faults and the
same answers, and with texts that differ at most in the doubles printed.
-/

namespace CellMachine.Attempt

variable {ε σ α β γ δ : Type}

/-- From related states both computations end with related values, or with the same
failure, and they leave related states. -/
def InStep (S : σ → σ → Prop) (Q : α → β → Prop) (x : Attempt ε σ α) (y : Attempt ε σ β) :
    Prop :=
  ∀ s t, S s t →
    (∃ a b s' t', x.run s = .ok a s' ∧ y.run t = .ok b t' ∧ Q a b ∧ S s' t') ∨
      ∃ e s' t', x.run s = .error e s' ∧ y.run t = .error e t' ∧ S s' t'

variable {S : σ → σ → Prop} {Q : α → β → Prop}

theorem inStep_pure {a : α} {b : β} (h : Q a b) :
    InStep S Q (pure a : Attempt ε σ α) (pure b) := by
  intro s t hst
  exact Or.inl ⟨a, b, s, t, rfl, rfl, h, hst⟩

theorem inStep_throw (e : ε) :
    InStep S Q (throw e : Attempt ε σ α) (throw e : Attempt ε σ β) := by
  intro s t hst
  exact Or.inr ⟨e, s, t, rfl, rfl, hst⟩

theorem inStep_ofExcept (r : Except ε α) :
    InStep S Eq (ofExcept r : Attempt ε σ α) (ofExcept r) := by
  cases r with
  | ok a => exact inStep_pure rfl
  | error e => exact inStep_throw e

theorem inStep_modify {f g : σ → σ} (h : ∀ s t, S s t → S (f s) (g t)) :
    InStep S Eq (modify f : Attempt ε σ PUnit) (modify g) := by
  intro s t hst
  exact Or.inl ⟨_, _, f s, g t, rfl, rfl, rfl, h s t hst⟩

theorem InStep.bind {P : γ → δ → Prop} {x : Attempt ε σ α} {y : Attempt ε σ β}
    {f : α → Attempt ε σ γ} {g : β → Attempt ε σ δ} (hx : InStep S Q x y)
    (hf : ∀ a b, Q a b → InStep S P (f a) (g b)) : InStep S P (x >>= f) (y >>= g) := by
  intro s t hst
  obtain ⟨a, b, s', t', hxs, hyt, hab, hnext⟩ | ⟨e, s', t', hxs, hyt, hnext⟩ := hx s t hst
  · rw [run_bind_of_ok hxs, run_bind_of_ok hyt]
    exact hf a b hab s' t' hnext
  · rw [run_bind_of_error hxs, run_bind_of_error hyt]
    exact Or.inr ⟨e, s', t', rfl, rfl, hnext⟩

/-- Where both compute with the same value, one case is enough. -/
theorem InStep.bind_eq {P : γ → δ → Prop} {x y : Attempt ε σ α} {f : α → Attempt ε σ γ}
    {g : α → Attempt ε σ δ} (hx : InStep S Eq x y) (hf : ∀ a, InStep S P (f a) (g a)) :
    InStep S P (x >>= f) (y >>= g) := by
  refine hx.bind fun a b hab => ?_
  subst hab
  exact hf a

theorem InStep.guard {p : Prop} [Decidable p] {e : ε} {x : Attempt ε σ α}
    {y : Attempt ε σ β} (h : InStep S Q x y) :
    InStep S Q
      (do
        if p then
          throw e
        x)
      (do
        if p then
          throw e
        y) := by
  by_cases hp : p
  · simp only [if_pos hp]
    exact InStep.bind_eq (inStep_throw e) fun _ => h
  · simp only [if_neg hp]
    exact h

theorem InStep.state {x : Attempt ε σ α} {y : Attempt ε σ β} (h : InStep S Q x y) {s t : σ}
    (hst : S s t) : S (x.state s) (y.state t) := by
  obtain ⟨_, _, _, _, hxs, hyt, _, hnext⟩ | ⟨_, _, _, hxs, hyt, hnext⟩ := h s t hst
  · rwa [state_of_ok hxs, state_of_ok hyt]
  · rwa [state_of_error hxs, state_of_error hyt]

end CellMachine.Attempt

namespace CellMachine

open Attempt

variable {ι : Type} {R : Value → Value → Prop} {T : String → String → Prop}

/-- Related values are the same, or both are doubles. Related texts come from printing
related values one after the other. -/
structure Likeness (R : Value → Value → Prop) (T : String → String → Prop) : Prop where
  refl : ∀ v, R v v
  same_or_floats : ∀ v w, R v w → v = w ∨ ∃ x y, v = .float x ∧ w = .float y
  empty : T "" ""
  print : ∀ s t v w, T s t → R v w → T (s ++ v.text) (t ++ w.text)

/-- A label is printed as it is, so any text may be added to both sides. -/
theorem Likeness.append (h : Likeness R T) {s t : String} (hst : T s t) (more : String) :
    T (s ++ more) (t ++ more) :=
  h.print s t (.label more) (.label more) hst (h.refl _)

theorem Likeness.text_refl (h : Likeness R T) (s : String) : T s s := by
  have happended := h.append h.empty s
  rwa [String.empty_append] at happended

theorem Likeness.wordOf_eq (h : Likeness R T) {v w : Value} (hvw : R v w)
    (i : Instruction ι) : i.wordOf v = i.wordOf w := by
  obtain rfl | ⟨x, y, rfl, rfl⟩ := h.same_or_floats v w hvw
  · rfl
  · -- No double is a word, and the fault names its kind only.
    rfl

/-- Two memories have as many cells, and those with the same address are related. -/
def Memory.Alike (R : Value → Value → Prop) (m n : Memory) : Prop :=
  m.size = n.size ∧
    ∀ (i : Nat) (v w : Value), m.cells[i]? = some v → n.cells[i]? = some w → R v w

namespace Memory

variable {m n : Memory}

theorem alike_self_iff : m.Alike R m ↔ ∀ v ∈ m.cells, R v v := by
  constructor
  · intro h v member
    obtain ⟨i, hi⟩ := Array.getElem?_of_mem member
    exact h.2 i v v hi hi
  · intro h
    refine ⟨rfl, ?_⟩
    intro i v w hv hw
    cases hv.symm.trans hw
    exact h v (Array.mem_of_getElem? hv)

theorem Alike.refl (h : ∀ v, R v v) (m : Memory) : m.Alike R m :=
  alike_self_iff.mpr fun v _ => h v

theorem Alike.cell?_cases (h : m.Alike R n) (a : Word) :
    m.cell? a = none ∧ n.cell? a = none ∨
      ∃ v w, m.cell? a = some v ∧ n.cell? a = some w ∧ R v w := by
  obtain ⟨hsize, hcells⟩ := h
  cases hv : m.cell? a with
  | none =>
      rw [cell?_eq_none_iff, hsize, ← cell?_eq_none_iff] at hv
      exact Or.inl ⟨rfl, hv⟩
  | some v =>
      cases hw : n.cell? a with
      | none =>
          rw [cell?_eq_none_iff, ← hsize, ← cell?_eq_none_iff, hv] at hw
          cases hw
      | some w =>
          refine Or.inr ⟨v, w, rfl, rfl, ?_⟩
          rw [cell?_eq_getElem?] at hv hw
          split at hv
          next hlow =>
            rw [if_pos hlow] at hw
            exact hcells _ v w hv hw
          next => cases hv

theorem Alike.put (h : m.Alike R n) {v w : Value} (hvw : R v w) (a : Word) :
    (m.put a v).Alike R (n.put a w) := by
  obtain ⟨hsize, hcells⟩ := h
  refine ⟨by rw [size_put, size_put, hsize], ?_⟩
  -- The sizes are the same, so the address is outside of both memories or of neither.
  by_cases houtside : a.Outside m.size
  · have hindex : Word.index? a m.cells.size = none := Word.index?_eq_none_iff.mpr houtside
    have hindex' : Word.index? a n.cells.size = none :=
      Word.index?_eq_none_iff.mpr (by rwa [hsize] at houtside)
    simpa only [Memory.put, hindex, hindex'] using hcells
  · intro i x y hx hy
    rw [getElem?_put houtside] at hx
    rw [getElem?_put (by rwa [hsize] at houtside)] at hy
    by_cases hsame : a.toInt = i
    · rw [if_pos hsame] at hx hy
      cases hx
      cases hy
      exact hvw
    · rw [if_neg hsame] at hx hy
      exact hcells i x y hx hy

end Memory

namespace Machine

/-- Two machines differ at most in related cells and related texts. Their labels stand for
the same slots. -/
structure Twins (R : Value → Value → Prop) (T : String → String → Prop) (m n : Machine ι) :
    Prop where
  config : n.config = m.config
  registers : n.registers = m.registers
  running : n.running = m.running
  store : n.store = m.store
  slots : n.labelSlot? = m.labelSlot?
  overlay : n.overlay = m.overlay
  memory : m.memory.Alike R n.memory
  output : T m.output.text n.output.text

variable {m n : Machine ι}

theorem Twins.setRegisters (h : m.Twins R T n) (r : Registers) :
    { m with registers := r }.Twins R T { n with registers := r } :=
  ⟨h.config, rfl, h.running, h.store, h.slots, h.overlay, h.memory, h.output⟩

theorem Twins.setMemory (h : m.Twins R T n) {before after : Memory}
    (hmemory : before.Alike R after) :
    { m with memory := before }.Twins R T { n with memory := after } :=
  ⟨h.config, h.registers, h.running, h.store, h.slots, h.overlay, hmemory, h.output⟩

theorem Twins.print (h : m.Twins R T n) (hR : Likeness R T) {v w : Value} (hvw : R v w) :
    (m.print v).Twins R T (n.print w) :=
  ⟨h.config, h.registers, h.running, h.store, h.slots, h.overlay, h.memory,
    hR.print _ _ v w h.output hvw⟩

theorem Twins.halt (h : m.Twins R T n) (hR : Likeness R T) : m.halt.Twins R T n.halt :=
  ⟨h.config, h.registers, rfl, h.store, h.slots, h.overlay, h.memory,
    hR.append h.output _⟩

theorem Twins.drain (h : m.Twins R T n) (hR : Likeness R T) :
    m.drain.2.Twins R T n.drain.2 :=
  ⟨h.config, h.registers, h.running, h.store, h.slots, h.overlay, h.memory, hR.empty⟩

/-- A start leaves nothing of the differences. -/
theorem Twins.restart (h : m.Twins R T n) (hR : Likeness R T) :
    m.restart.Twins R T n.restart := by
  have hsame := sameState_restart h.config h.overlay h.memory.1.symm
  refine ⟨h.config, hsame.registers, rfl, h.store, h.slots, h.overlay, ?_, hR.empty⟩
  rw [hsame.memory]
  exact .refl hR.refl _

theorem getRegisters_inStep :
    InStep (Twins R T) Eq (getRegisters : Exec ι Registers) getRegisters := by
  intro m n h
  exact Or.inl ⟨_, _, m, n, rfl, rfl, h.registers.symm, h⟩

theorem modifyRegisters_inStep (f : Registers → Registers) :
    InStep (Twins R T) Eq (modifyRegisters f : Exec ι Unit) (modifyRegisters f) := by
  intro m n h
  refine Or.inl ⟨_, _, _, _, rfl, rfl, rfl, ?_⟩
  rw [h.registers]
  exact h.setRegisters _

theorem readCell_inStep (a : Word) :
    InStep (Twins R T) R (readCell a : Exec ι Value) (readCell a) := by
  intro m n h
  obtain ⟨hm, hn⟩ | ⟨v, w, hv, hw, hvw⟩ := h.memory.cell?_cases a
  · rw [run_readCell_of_none hm, run_readCell_of_none hn, h.memory.1]
    exact Or.inr ⟨_, m, n, rfl, rfl, h⟩
  · rw [run_readCell_of_some hv, run_readCell_of_some hw]
    exact Or.inl ⟨v, w, m, n, rfl, rfl, hvw, h⟩

theorem writeCell_inStep (a : Word) {v w : Value} (hvw : R v w) :
    InStep (Twins R T) Eq (writeCell a v : Exec ι Unit) (writeCell a w) := by
  intro m n h
  rw [run_writeCell_put, run_writeCell_put, ← h.memory.1]
  by_cases houtside : a.Outside m.memory.size
  · rw [if_pos houtside, if_pos houtside]
    exact Or.inr ⟨_, m, n, rfl, rfl, h⟩
  · rw [if_neg houtside, if_neg houtside]
    exact Or.inl ⟨_, _, _, _, rfl, rfl, rfl, h.setMemory (h.memory.put hvw a)⟩

theorem target_inStep (i : Instruction ι) :
    InStep (Twins R T) Eq (target i) (target i) := by
  intro m n h
  rw [run_target_address, run_target_address, h.slots]
  cases i.address m.labelSlot? with
  | ok a => exact Or.inl ⟨a, a, m, n, rfl, rfl, rfl, h⟩
  | error f => exact Or.inr ⟨f, m, n, rfl, rfl, h⟩

theorem push_inStep {v w : Value} (hvw : R v w) :
    InStep (Twins R T) Eq (push v : Exec ι Unit) (push w) := by
  unfold push
  refine getRegisters_inStep.bind_eq fun r => ?_
  refine InStep.guard ?_
  exact (writeCell_inStep _ hvw).bind_eq fun _ => modifyRegisters_inStep _

theorem peek_inStep : InStep (Twins R T) R (peek : Exec ι Value) peek := by
  unfold peek
  refine getRegisters_inStep.bind_eq fun r => ?_
  exact InStep.guard (readCell_inStep _)

theorem pop_inStep : InStep (Twins R T) R (pop : Exec ι Value) pop := by
  unfold pop
  refine peek_inStep.bind fun v w hvw => ?_
  exact (modifyRegisters_inStep _).bind_eq fun _ => inStep_pure hvw

theorem enter_inStep (frame : Word) :
    InStep (Twins R T) Eq (enter frame : Exec ι Unit) (enter frame) := by
  unfold enter
  refine InStep.guard ?_
  refine (modifyRegisters_inStep _).bind_eq fun _ => ?_
  refine getRegisters_inStep.bind_eq fun r => ?_
  cases Word.add? r.sp frame with
  | none => exact inStep_throw _
  | some ep => exact InStep.guard (modifyRegisters_inStep _)

theorem allocate_inStep (units : Nat) :
    InStep (Twins R T) Eq (allocate units : Exec ι Value) (allocate units) := by
  unfold allocate
  refine getRegisters_inStep.bind_eq fun r => ?_
  cases heapBelow? r.hp units with
  | none => exact inStep_throw _
  | some hp =>
      refine InStep.guard ?_
      exact (modifyRegisters_inStep _).bind_eq fun _ => inStep_pure rfl

variable (hR : Likeness R T)

include hR

/-- The number of cells is never taken from a double, so it is the same. -/
theorem popSize_inStep (i : Instruction ι) :
    InStep (Twins R T) Eq (Standard.popSize i) (Standard.popSize i) := by
  unfold Standard.popSize
  refine pop_inStep.bind fun v w hvw => ?_
  rw [hR.wordOf_eq hvw]
  refine (inStep_ofExcept _).bind_eq fun size => ?_
  exact InStep.guard (inStep_pure rfl)

theorem perform_inStep (op : Standard) (i : Instruction ι) :
    InStep (Twins R T) Eq (op.perform i) (op.perform i) := by
  cases op with
  | ldc => exact (inStep_ofExcept _).bind_eq fun v => push_inStep (hR.refl v)
  | ldo =>
      refine (target_inStep i).bind_eq fun a => ?_
      exact (readCell_inStep a).bind fun v w hvw => push_inStep hvw
  | sro =>
      refine (target_inStep i).bind_eq fun a => ?_
      exact pop_inStep.bind fun v w hvw => writeCell_inStep a hvw
  | print =>
      exact pop_inStep.bind fun v w hvw => inStep_modify fun m n h => h.print hR hvw
  | new =>
      refine (popSize_inStep hR i).bind_eq fun units => ?_
      exact (allocate_inStep units).bind_eq fun block => push_inStep (hR.refl block)
  | enter => exact (inStep_ofExcept _).bind_eq fun frame => enter_inStep frame
  | ujp =>
      exact (target_inStep i).bind_eq fun a => modifyRegisters_inStep _
  | halt => exact inStep_modify fun m n h => h.halt hR

omit hR in
theorem Twins.current?_eq (h : m.Twins R T n) : n.current? = m.current? := by
  obtain ⟨_, _, _, _, _, _, _, _⟩ := m
  obtain ⟨_, _, _, _, _, _, _, _⟩ := n
  cases h.store
  cases h.registers
  rfl

/-- Twins execute the same instruction and are twins again. -/
theorem Twins.step [Host ι] (h : m.Twins R T n) (hm : m.IsStandard) :
    (Machine.step.state m).Twins R T (Machine.step.state n) := by
  have hadvance : m.advance.Twins R T n.advance := by
    simp only [advance, jump, h.registers]
    exact h.setRegisters _
  rw [state_eq, state_eq, run_step, run_step, h.running, h.current?_eq]
  cases m.running with
  | false => exact h
  | true =>
      rw [if_pos rfl, if_pos rfl]
      cases hi : m.current? with
      | none => exact h
      | some i =>
          dsimp only
          obtain hnothing | ⟨op, hop⟩ := (hm i (current?_mem hi)).perform_eq
          · rw [hnothing]
            exact hadvance
          · rw [hop]
            exact (perform_inStep hR op i).state hadvance

theorem Twins.load (h : m.Twins R T n) (p : Program ι) :
    ((Call.load p).apply m).Twins R T ((Call.load p).apply n) := by
  have hload := load_congr h.config h.memory.1.symm p
  rw [Call.apply, Call.apply, hload]
  cases hm : m.load p with
  | error e => exact h
  | ok loaded =>
      -- Both have become one machine, and its text is empty.
      refine ⟨rfl, rfl, rfl, rfl, rfl, rfl, .refl hR.refl _, ?_⟩
      obtain ⟨_, rfl⟩ := load_ok hm
      exact hR.empty

omit hR in
theorem Twins.toggleBreakpoint (h : m.Twins R T n) (slot : Nat) :
    ((Call.toggleBreakpoint slot).apply m).Twins R T
      ((Call.toggleBreakpoint slot).apply n) := by
  simp only [Call.apply, Machine.toggleBreakpoint, h.store]
  cases m.store[slot]? with
  | none => exact h
  | some i =>
      exact ⟨h.config, h.registers, h.running, rfl, h.slots, h.overlay, h.memory, h.output⟩

theorem Twins.call (h : m.Twins R T n) (k : Call ι) : (k.apply m).Twins R T (k.apply n) := by
  cases k with
  | load p => exact h.load hR p
  | restart => exact h.restart hR
  | halt => exact h.halt hR
  | push v => exact (push_inStep (hR.refl v)).state h
  | pop => exact pop_inStep.state h
  | peek => exact peek_inStep.state h
  | allocate units =>
      change ((allocate units).state m).Twins R T ((allocate units).state n)
      exact (allocate_inStep units).state h
  | enter frame => exact (enter_inStep frame).state h
  | readCell a => exact (readCell_inStep a).state h
  | writeCell a v => exact (writeCell_inStep a (hR.refl v)).state h
  | print v => exact h.print hR (hR.refl v)
  | drain => exact h.drain hR
  | toggleBreakpoint slot => exact h.toggleBreakpoint slot
  | setRegisters r => exact h.setRegisters r

/-- Twins stay twins through every history that brings only standard instructions into the
store. The induction carries along that there are no others. -/
theorem Twins.after [Host ι] (h : m.Twins R T n) (hm : m.IsStandard)
    (ops : List (Operation ι)) (hops : ∀ p, .call (.load p) ∈ ops → p.IsStandard) :
    (m.after ops).Twins R T (n.after ops) := by
  induction ops generalizing m n with
  | nil => exact h
  | cons op rest ih =>
      have hrest : ∀ p, .call (.load p) ∈ rest → p.IsStandard :=
        fun p member => hops p (by simp [member])
      cases op with
      | call k =>
          have hloads : ∀ p, k = .load p → p.IsStandard := by
            rintro p rfl
            exact hops p (by simp)
          exact ih (h.call hR k) (isStandard_call_of_loads hloads hm) hrest
      | step => exact ih (h.step hR hm) ((sameProgram_step hm).isStandard hm) hrest

end Machine

end CellMachine
