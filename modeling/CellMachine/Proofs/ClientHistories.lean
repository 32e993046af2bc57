import CellMachine.Proofs.HeldProgram
import CellMachine.Proofs.Layout

/-!
Invariants of histories with a host. The instructions of a host act through calls, so
what the admitted calls and changes of the counter keep is kept by every step, and by
every history of admitted calls and steps.
-/

namespace CellMachine

variable {ι : Type}

/-- No instruction of the host writes a register directly. -/
def ClientHost.Indirect (ι : Type) [ClientHost ι] : Prop :=
  ∀ (op : ι) (i : Instruction ι) (m : Machine ι),
    ∀ k ∈ ClientHost.calls op i m, k.Indirect

/-- The operations that write no register directly. -/
def Operation.Indirect : Operation ι → Prop
  | .call k => k.Indirect
  | .step => True

/-- The calls that write to no cell. -/
def Call.KeepsMemory : Call ι → Prop
  | .load _ | .restart | .push _ | .writeCell .. => False
  | _ => True

/-- Memory is changed by a start, by a push and by a write. -/
theorem Call.keepsMemory_or (k : Call ι) :
    k.KeepsMemory ∨ (∃ w, k = .push w) ∨ (∃ b w, k = .writeCell b w) ∨ k = .restart ∨
      ∃ p, k = .load p := by
  cases k with
  | load p => exact Or.inr (Or.inr (Or.inr (Or.inr ⟨p, rfl⟩)))
  | restart => exact Or.inr (Or.inr (Or.inr (Or.inl rfl)))
  | push w => exact Or.inr (Or.inl ⟨w, rfl⟩)
  | writeCell b w => exact Or.inr (Or.inr (Or.inl ⟨b, w, rfl⟩))
  | _ => exact Or.inl trivial

namespace Machine

theorem memory_call {k : Call ι} (hk : k.KeepsMemory) (m : Machine ι) :
    (k.apply m).memory = m.memory := by
  cases k with
  | load p | restart | push v | writeCell address v => exact hk.elim
  | halt => rfl
  | print v => rfl
  | drain => rfl
  | setRegisters r => rfl
  | peek => exact congrArg Machine.memory (state_peek m)
  | readCell address => exact congrArg Machine.memory (state_readCell address m)
  | toggleBreakpoint slot =>
      obtain ⟨_, htoggle⟩ | ⟨_, _, hsame⟩ := Call.apply_toggleBreakpoint_cases slot m
      · obtain ⟨i, _, hn⟩ := toggleBreakpoint_ok htoggle
        rw [hn]
      · rw [hsame]
  | pop =>
      change (pop.state m).memory = _
      obtain h | ⟨_, h⟩ := state_pop_cases m <;> rw [h]
  | allocate units =>
      change ((allocate units).state m).memory = _
      obtain h | ⟨_, _, _, h⟩ := state_allocate_cases units m <;> rw [h]
  | enter frame =>
      change ((enter frame).state m).memory = _
      obtain h | h | ⟨_, _, _, _, h⟩ := state_enter_cases frame m <;> rw [h] <;> rfl

/-- No call changes the number of cells, a start included. -/
theorem memory_size_call (k : Call ι) (m : Machine ι) :
    (k.apply m).memory.size = m.memory.size := by
  obtain hkeeps | ⟨v, rfl⟩ | ⟨address, v, rfl⟩ | rfl | ⟨p, rfl⟩ := k.keepsMemory_or
  · rw [memory_call hkeeps]
  · rw [Call.apply]
    obtain h | ⟨i, _, _, h⟩ := state_push_cases v m
    · rw [h]
    · rw [h, Memory.size_set]
  · rw [Call.apply]
    obtain h | ⟨i, _, h⟩ := state_writeCell_cases address v m
    · rw [h]
    · rw [h, Memory.size_set]
  · exact size_restart m
  · obtain hload | ⟨_, _, hsame⟩ := Call.apply_load_cases p m
    · rw [(load_ok hload).2, size_restart]
    · rw [hsame]

theorem Holds.store_size {c : Config} {p : Program ι} {m : Machine ι} (h : m.Holds c p) :
    m.store.size = c.storeSize := by
  have hsize := congrArg Array.size h.store
  rwa [Array.size_map, Array.size_map, size_padded h.fits] at hsize

theorem afterCalls_induction {P : Machine ι → Prop} {admitted : Call ι → Prop}
    (hcall : ∀ k, admitted k → ∀ m, P m → P (k.apply m)) (ks : List (Call ι))
    (hks : ∀ k ∈ ks, admitted k) (m : Machine ι) (hm : P m) : P (m.afterCalls ks) := by
  induction ks generalizing m with
  | nil => exact hm
  | cons k rest ih =>
      apply ih
      · intro next member
        exact hks next (by simp [member])
      · exact hcall k (hks k (by simp)) m hm

/-- A property that admitted calls and changes of the program counter keep, where the
calls of standard instructions and of the host are admitted. -/
structure Upheld [ClientHost ι] (admitted : Call ι → Prop) (P : Machine ι → Prop) :
    Prop where
  elementary : ∀ k, k.IsElementary → admitted k
  host : ∀ (op : ι) (i : Instruction ι) (m : Machine ι),
    ∀ k ∈ ClientHost.calls op i m, admitted k
  call : ∀ k, admitted k → ∀ m, P m → P (k.apply m)
  jump : ∀ m pc, P m → P (m.jump pc)

variable [ClientHost ι] {admitted : Call ι → Prop} {P : Machine ι → Prop}

theorem Upheld.enduring (h : Upheld admitted P) : Enduring P where
  call k hk := h.call k (h.elementary k hk)
  jump := h.jump

/-- Instructions of the host included. -/
theorem Upheld.step (h : Upheld admitted P) {m : Machine ι} (hm : P m) :
    P (Machine.step.state m) := by
  have hadvance : P m.advance := h.jump m _ hm
  rw [Attempt.state_eq, run_step]
  cases m.running with
  | false => exact hm
  | true =>
      rw [if_pos rfl]
      cases m.current? with
      | none => exact hm
      | some i =>
          cases hhost : i.host? with
          | none => exact h.enduring.perform hhost m.advance hadvance
          | some op =>
              have hcalls := afterCalls_induction h.call (ClientHost.calls op i m.advance)
                (h.host op i m.advance) m.advance hadvance
              rw [← ClientHost.state_perform, ← Instruction.perform_of_host hhost] at hcalls
              exact hcalls

theorem Upheld.after (h : Upheld admitted P) (ops : List (Operation ι))
    (hops : ∀ k, .call k ∈ ops → admitted k) (m : Machine ι) (hm : P m) :
    P (m.after ops) := by
  have hstep (op : Operation ι) (hop : ∀ k, op = .call k → admitted k) (n : Machine ι)
      (hn : P n) : P (op.apply n) := by
    cases op with
    | call k => exact h.call k (hop k rfl) n hn
    | step => exact h.step hn
  apply after_induction hstep ops _ m hm
  rintro op member k rfl
  exact hops k member

variable {c : Config}

/-- The layout is upheld wherever no register is written directly. -/
theorem laidOut_upheld (hc : c.flaw? = none) (hhost : ClientHost.Indirect ι) :
    Upheld Call.Indirect (fun m : Machine ι => m.LaidOut c) where
  elementary _ hk := hk.indirect
  host := hhost
  call _ hk _ hm := hm.call hc hk
  jump := (laidOut_enduring hc).jump

theorem memory_size_upheld (size : Nat) :
    Upheld (fun _ => True) (fun m : Machine ι => m.memory.size = size) where
  elementary _ _ := trivial
  host _ _ _ _ _ := trivial
  call k _ m hm := (memory_size_call k m).trans hm
  jump _ _ hm := hm

/-- The machine is new, or it has been put back to its start after any history, one
that wrote registers and cells directly included. -/
inductive Starts (c : Config) : Machine ι → Prop where
  | fresh {m : Machine ι} : create c = .ok m → Starts c m
  | restarted {m : Machine ι} (ops : List (Operation ι)) :
      create c = .ok m → Starts c (m.after ops).restart
  | loaded {m n : Machine ι} (ops : List (Operation ι)) (p : Program ι) :
      create c = .ok m → (m.after ops).load p = .ok n → Starts c n

variable {m : Machine ι}

theorem sizes_after (hc : c.flaw? = none) (hm : create c = .ok m) (ops : List (Operation ι)) :
    (m.after ops).config = c ∧ (m.after ops).memory.size = c.memorySize ∧
      (m.after ops).store.size = c.storeSize := by
  have hholds := holds_lastAccepted hm ops
  have hmemory : m.memory.size = c.memorySize := by
    obtain ⟨n, hcreate, _, hlaid, _⟩ := create_laidOut (ι := ι) hc
    cases hm.symm.trans hcreate
    exact hlaid.memory_size
  exact ⟨hholds.config,
    (memory_size_upheld c.memorySize).after ops (fun _ _ => trivial) m hmemory,
    hholds.store_size⟩

/-- A machine that starts is laid out, and its registers are the initial ones. -/
theorem Starts.laidOut (hc : c.flaw? = none) (h : m.Starts c) :
    m.LaidOut c ∧ m.registers = .initial c := by
  cases h with
  | fresh hm =>
      obtain ⟨n, hcreate, hinitial, hlaid, _⟩ := create_laidOut (ι := ι) hc
      cases hm.symm.trans hcreate
      exact ⟨hlaid, hinitial⟩
  | restarted ops hm =>
      obtain ⟨hconfig, hmemory, hstore⟩ := sizes_after hc hm ops
      exact ⟨laidOut_restart hc hconfig hmemory hstore, congrArg Registers.initial hconfig⟩
  | loaded ops p hm hload =>
      obtain ⟨hconfig, hmemory, _⟩ := sizes_after hc hm ops
      obtain ⟨hfits, rfl⟩ := load_ok hload
      have hstore := size_padded hfits
      rw [hconfig] at hstore
      refine ⟨?_, congrArg Registers.initial hconfig⟩
      apply laidOut_restart hc
      · exact hconfig
      · exact hmemory
      · rwa [hconfig]

end Machine

end CellMachine
