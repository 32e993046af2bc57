import CellMachine.Proofs.HeapBlocks
import CellMachine.Proofs.ZoneOverlap

/-!
What is in the heap stays there. Between two starts the heap only grows downwards, and
a push takes a cell below the ceiling, which is never above the heap. So a cell that
belongs to the heap at one moment keeps its content until something is told to write to
it, however stack, ceiling and heap move meanwhile.
-/

namespace CellMachine

variable {ι : Type}

/-- The calls that start nothing anew. -/
def Call.Continues : Call ι → Prop
  | .load _ | .restart => False
  | _ => True

namespace Operation

def Continues : Operation ι → Prop
  | .call k => k.Continues
  | .step => True

theorem Continues.orderly {op : Operation ι} (h : op.Continues) (hop : op.Indirect) :
    op.Orderly := by
  cases op with
  | step => trivial
  | call k =>
      cases k with
      | load p | restart => exact h.elim
      | setRegisters r => exact hop.elim
      | _ => trivial

/-- The operation is told to write to this cell: by the address of a call, or by the
address of the `sro` that a step executes. -/
def Targets (a : Word) (m : Machine ι) : Operation ι → Prop
  | .call (.writeCell address _) => address = a
  | .call _ => False
  | .step => m.running = true ∧
      ∃ i, m.current? = some i ∧ i.operation? = some .sro ∧ i.address m.labelSlot? = .ok a

end Operation

namespace Memory

theorem cell?_eq_getElem? (m : Memory) (a : Word) :
    m.cell? a = if 0 ≤ a.toInt then m.cells[a.toInt.toNat]? else none := by
  unfold cell? Word.index?
  by_cases hlow : 0 ≤ a.toInt
  · by_cases hhigh : a.toInt.toNat < m.cells.size
    · simp [hlow, hhigh]
    · simp [hlow, hhigh]
  · simp [hlow]

/-- Writing to one cell leaves every other as it is. -/
theorem cell?_set_of_ne {m : Memory} {a b : Word} {i : Fin m.cells.size}
    (hi : m.locate b = .ok i) (hne : b.toInt ≠ a.toInt) (v : Value) :
    (m.set i v).cell? a = m.cell? a := by
  have haddress : b.toInt = i.val := by
    unfold locate at hi
    split at hi
    next hindex =>
      cases hi
      exact Word.index?_eq_some_iff.mp hindex
    next => cases hi
  rw [cell?_eq_getElem?, cell?_eq_getElem?]
  by_cases hlow : 0 ≤ a.toInt
  · have hother : i.val ≠ a.toInt.toNat := by omega
    simp [hlow, Memory.set, Array.getElem?_set_ne, hother]
  · simp [hlow]

end Memory

namespace Machine

variable {c : Config} {a : Word} {v : Value} {m : Machine ι}

/-- A cell of the heap and its content, on a machine that is laid out. -/
structure Keeps (c : Config) (a : Word) (v : Value) (m : Machine ι) : Prop where
  laidOut : m.LaidOut c
  inHeap : m.registers.hp.toInt ≤ a.toInt
  content : m.memory.cell? a = some v

/-- The heap does not shrink unless the machine is started anew. -/
theorem LaidOut.hp_call_le (h : m.LaidOut c) {k : Call ι} (hk : k.Indirect)
    (hcontinues : k.Continues) :
    (k.apply m).registers.hp.toInt ≤ m.registers.hp.toInt := by
  obtain hkeeps | ⟨units, rfl⟩ | rfl | ⟨p, rfl⟩ := hk.keepsHeap_or
  · exact Int.le_of_eq (congrArg Word.toInt (hp_call hkeeps m))
  · rw [Call.apply]
    obtain ⟨p, hp, hrun⟩ | ⟨f, hrun⟩ := h.run_allocate_cases units
    · rw [Attempt.state_of_ok hrun]
      dsimp only
      omega
    · simp [Attempt.state_of_error hrun]
  · exact hcontinues.elim
  · exact hcontinues.elim

/-- A push takes a cell below the ceiling, so no cell of the heap. -/
theorem Keeps.content_push (hc : c.flaw? = none) (h : m.Keeps c a v) (w : Value) :
    ((push w).state m).memory.cell? a = some v := by
  obtain hsame | ⟨i, hroom, hlocate, hpushed⟩ := state_push_cases w m
  · rw [hsame]
    exact h.content
  · rw [hpushed]
    have hsucc := h.laidOut.registers.toInt_sp_succ hc
    have hgap := h.laidOut.registers.ep_le
    have hheap := h.inHeap
    rw [Word.le_iff] at hroom
    exact (Memory.cell?_set_of_ne hlocate (by omega) w).trans h.content

theorem Keeps.content_writeCell (h : m.Keeps c a v) {b : Word} (hb : b ≠ a) (w : Value) :
    ((writeCell b w).state m).memory.cell? a = some v := by
  obtain hsame | ⟨i, hlocate, hwritten⟩ := state_writeCell_cases b w m
  · rw [hsame]
    exact h.content
  · rw [hwritten]
    have hne : b.toInt ≠ a.toInt := fun heq => hb (Word.eq_of_toInt heq)
    exact (Memory.cell?_set_of_ne hlocate hne w).trans h.content

theorem Keeps.call (hc : c.flaw? = none) (h : m.Keeps c a v) {k : Call ι}
    (hk : k.Indirect) (hcontinues : k.Continues) (hspared : ∀ w, k ≠ .writeCell a w) :
    (k.apply m).Keeps c a v := by
  refine ⟨h.laidOut.call hc hk, ?_, ?_⟩
  · exact Int.le_trans (h.laidOut.hp_call_le hk hcontinues) h.inHeap
  · obtain hkeeps | ⟨w, rfl⟩ | ⟨b, w, rfl⟩ | rfl | ⟨p, rfl⟩ := k.keepsMemory_or
    · rw [memory_call hkeeps]
      exact h.content
    · exact h.content_push hc w
    · apply h.content_writeCell
      rintro rfl
      exact hspared w rfl
    · exact hcontinues.elim
    · exact hcontinues.elim

theorem Keeps.jump (h : m.Keeps c a v) (hc : c.flaw? = none) (pc : Word) :
    (m.jump pc).Keeps c a v :=
  ⟨(laidOut_enduring hc).jump m pc h.laidOut, h.inHeap, h.content⟩

end Machine

namespace Standard

open Machine

variable {c : Config} {a : Word} {v : Value}

/-- All operations but `sro` write to no cell but by a push. -/
theorem keeps_perform (hc : c.flaw? = none) {op : Standard} (hop : op ≠ .sro)
    (i : Instruction ι) :
    Attempt.Preserves (fun m : Machine ι => m.Keeps c a v) (op.perform i) := by
  refine perform_preserves_of_makes ?_ (fun _ m pc hm => hm.jump hc pc) i
  intro k hk m hm
  apply hm.call hc hk.isElementary.indirect
  · cases k with
    | load p | restart => exact hk.isElementary.elim
    | _ => trivial
  · rintro w rfl
    cases op with
    | sro => exact hop rfl
    | _ => exact hk.elim

/-- A store to another cell. -/
theorem keeps_sro (hc : c.flaw? = none) {m : Machine ι} (hm : m.Keeps c a v)
    {i : Instruction ι} (hother : i.address m.labelSlot? ≠ .ok a) :
    ((sro.perform i).state m).Keeps c a v := by
  unfold perform
  cases haddress : i.address m.labelSlot? with
  | error f =>
      rw [Attempt.state_bind_of_error (run_target_of_error haddress)]
      exact hm
  | ok b =>
      rw [Attempt.state_bind_of_ok (run_target_of_ok haddress)]
      have hne : b ≠ a := by
        rintro rfl
        exact hother haddress
      have hpop : Attempt.Preserves (fun n : Machine ι => n.Keeps c a v) pop :=
        fun n hn => hn.call hc (k := .pop) trivial trivial (by simp)
      have hwrite (w : Value) :
          Attempt.Preserves (fun n : Machine ι => n.Keeps c a v) (writeCell b w) :=
        fun n hn => hn.call hc (k := .writeCell b w) trivial trivial (by simp [hne])
      exact hpop.bind hwrite m hm

end Standard

namespace Machine

section

variable [Host ι] {c : Config} {a : Word} {v : Value} {m : Machine ι}

theorem Keeps.step (hc : c.flaw? = none) (h : m.Keeps c a v) (hm : m.IsStandard)
    (hspared : ¬ Operation.step.Targets a m) : (Machine.step.state m).Keeps c a v := by
  have hadvance : m.advance.Keeps c a v := h.jump hc _
  rw [Attempt.state_eq, run_step]
  cases hrunning : m.running with
  | false => exact h
  | true =>
      rw [if_pos rfl]
      cases hi : m.current? with
      | none => exact h
      | some i =>
          dsimp only
          rw [← Attempt.state_eq]
          cases hop : i.operation? with
          | none =>
              rw [(hm i (current?_mem hi)).perform_of_none hop]
              exact hadvance
          | some op =>
              rw [Instruction.perform_of_operation hop]
              by_cases hsro : op = .sro
              · subst hsro
                apply Standard.keeps_sro hc hadvance
                intro haddress
                exact hspared ⟨hrunning, i, hi, hop, haddress⟩
              · exact Standard.keeps_perform hc hsro i m.advance hadvance

theorem Keeps.apply (hc : c.flaw? = none) (h : m.Keeps c a v) {op : Operation ι}
    (hop : op.Indirect) (hcontinues : op.Continues) (hm : op = .step → m.IsStandard)
    (hspared : ¬ op.Targets a m) : (op.apply m).Keeps c a v := by
  cases op with
  | step => exact h.step hc (hm rfl) hspared
  | call k =>
      apply h.call hc hop hcontinues
      rintro w rfl
      exact hspared rfl

/-- The invariant over a history. What an operation is told to write to depends on the
machine that it meets, so the condition speaks of each operation in its place. -/
theorem Keeps.after (hc : c.flaw? = none) (ops : List (Operation ι))
    (hops : ∀ op ∈ ops, op.Indirect ∧ op.Continues) (h : m.Keeps c a v)
    (hm : .step ∈ ops → m.IsStandard)
    (hspared : ∀ (j : Nat) (op : Operation ι), ops[j]? = some op →
      ¬ op.Targets a (m.after (ops.take j))) :
    (m.after ops).Keeps c a v := by
  induction ops generalizing m with
  | nil => exact h
  | cons op rest ih =>
      obtain ⟨hop, hcontinues⟩ := hops op (by simp)
      have hfirst : ¬ op.Targets a m := hspared 0 op rfl
      apply ih
      · intro next member
        exact hops next (by simp [member])
      · apply h.apply hc hop hcontinues _ hfirst
        rintro rfl
        exact hm (by simp)
      · intro hstep
        exact isStandard_apply (hcontinues.orderly hop) (hm (by simp [hstep]))
      · intro j next hnext
        exact hspared (j + 1) next (by simpa using hnext)

end

variable [ClientHost ι]

/-- Stack traffic never touches the heap. Take any cell that belongs to the heap after a
history in which no register is written directly, and any further history of calls and
steps of standard programs, without a new start, in which no call and no `sro` is told to
write to this cell. Then the cell has the same content at the end as it had before,
whether these operations succeed or fail. -/
theorem heap_survives_stack_traffic (hhost : ClientHost.Indirect ι) (c : Config)
    (hc : c.flaw? = none) :
    ∃ m : Machine ι, create c = .ok m ∧
      ∀ earlier : List (Operation ι), (∀ op ∈ earlier, op.Indirect) →
        let start := m.after earlier
        ∀ a : Word, start.InHeap a.toInt →
          ∀ later : List (Operation ι), (∀ op ∈ later, op.Indirect ∧ op.Continues) →
            (.step ∈ later → start.IsStandard) →
            (∀ (j : Nat) (op : Operation ι), later[j]? = some op →
              ¬ op.Targets a (start.after (later.take j))) →
            ∃ v, start.memory.cell? a = some v ∧
              (start.after later).memory.cell? a = some v := by
  obtain ⟨m, hcreate, _, hm, _⟩ := create_laidOut (ι := ι) hc
  refine ⟨m, hcreate, ?_⟩
  intro earlier hearlier start a hheap later hlater hstandard hspared
  have hlaid : start.LaidOut c := by
    apply (laidOut_upheld hc hhost).after earlier _ m hm
    intro k member
    exact hearlier (.call k) member
  have hcell : start.memory.cell? a ≠ none := by
    have hep := hlaid.registers.ep_ge
    have hhp := hlaid.registers.ep_le
    obtain ⟨hlow, hhigh⟩ := hheap
    rw [Ne, Memory.cell?_eq_none_iff, Word.Outside]
    omega
  obtain ⟨v, hv⟩ := Option.ne_none_iff_exists'.mp hcell
  have hstart : start.Keeps c a v := ⟨hlaid, hheap.1, hv⟩
  have hend := hstart.after hc later hlater hstandard hspared
  exact ⟨v, hv, hend.content⟩

/-- A label in the last cell of a heap of two cells, and a program that stores to cell
zero. -/
def labelInHeap : List (Operation Empty) :=
  [.call (.load { instructions := [Standard.instruction .sro (some (.int 0))] }),
    .call (.allocate 2), .call (.writeCell 3 (.label "data"))]

/-- More pushes than there is room for, the store, and a frame that is refused. -/
def fullStack : List (Operation Empty) :=
  [.call (.push (.int 7)), .call (.push (.int 8)), .call (.push (.int 9)), .step,
    .call (.enter 9)]

theorem label_survives_full_stack :
    ClientHost.Indirect Empty ∧ (Config.mk 1 4 2).flaw? = none ∧
      (∀ op ∈ labelInHeap, op.Indirect) ∧ (∀ op ∈ fullStack, op.Indirect ∧ op.Continues) ∧
      ∃ m : Machine Empty, create ⟨1, 4, 2⟩ = .ok m ∧
        let start := m.after labelInHeap
        start.InHeap (3 : Word).toInt ∧ start.IsStandard ∧
          (∀ (j : Nat) (op : Operation Empty), fullStack[j]? = some op →
            ¬ op.Targets 3 (start.after (fullStack.take j))) ∧
          (start.after fullStack).memory.cell? 3 = some (.label "data") := by
  have hhost : ClientHost.Indirect Empty := fun op => op.elim
  have hearlier : ∀ op ∈ labelInHeap, op.Indirect := by
    simp [labelInHeap, Operation.Indirect, Call.Indirect]
  have hlater : ∀ op ∈ fullStack, op.Indirect ∧ op.Continues := by
    simp [fullStack, Operation.Indirect, Call.Indirect, Operation.Continues, Call.Continues]
  obtain ⟨m, hcreate, hall⟩ := heap_survives_stack_traffic hhost ⟨1, 4, 2⟩ (by decide)
  refine ⟨hhost, by decide, hearlier, hlater, m, hcreate, ?_⟩
  have hsurvives := hall labelInHeap hearlier 3
  obtain ⟨_, rfl⟩ := create_ok_iff.mp hcreate
  clear hcreate hall
  have hheap : ((blank ⟨1, 4, 2⟩).after labelInHeap).InHeap (3 : Word).toInt := by
    constructor <;> decide +kernel
  have hstandard := ((blank ⟨1, 4, 2⟩).after labelInHeap).isStandard_empty
  have hspared : ∀ (j : Nat) (op : Operation Empty), fullStack[j]? = some op →
      ¬ op.Targets 3 (((blank ⟨1, 4, 2⟩).after labelInHeap).after (fullStack.take j)) := by
    intro j op hj
    rcases j with _ | _ | _ | _ | _ | j
    case succ.succ.succ.zero =>
      cases hj
      rintro ⟨_, i, hi, _, haddress⟩
      have hstore : (((blank ⟨1, 4, 2⟩).after labelInHeap).after (fullStack.take 3)).current? =
          some (Standard.instruction .sro (some (.int 0))) := by decide +kernel
      cases hi.symm.trans hstore
      exact absurd (Except.ok.inj haddress) (by decide)
    case succ.succ.succ.succ.succ => simp [fullStack] at hj
    all_goals
      cases hj
      exact id
  obtain ⟨v, hv, hend⟩ := hsurvives hheap fullStack hlater (fun _ => hstandard) hspared
  have hlabel : ((blank ⟨1, 4, 2⟩).after labelInHeap).memory.cell? 3 =
      some (.label "data") := by decide +kernel
  rw [hlabel] at hv
  rw [← hv] at hend
  exact ⟨hheap, hstandard, hspared, hend⟩

end Machine

end CellMachine
