import CellMachine.Proofs.ControlFlow

/-!
What a program prints reaches the host once and in order. Only two instructions write text:
a print that succeeds appends the value that it has popped, and a halt appends its marker,
after which the machine executes nothing more. Whoever collects the text takes it away from
the machine, so what was collected and what is left always make up the same whole.
-/

namespace CellMachine

variable {ι : Type}

namespace Machine

/-- The machine has just been put to the start of its program. -/
inductive JustStarted : Machine ι → Prop where
  | restarted (m : Machine ι) : JustStarted m.restart
  | loaded {m n : Machine ι} {p : Program ι} : m.load p = .ok n → JustStarted n

theorem JustStarted.fresh {m : Machine ι} (h : m.JustStarted) :
    m.output.text = "" ∧ m.running = true := by
  cases h with
  | restarted => exact ⟨rfl, rfl⟩
  | loaded hload =>
      obtain ⟨_, rfl⟩ := load_ok hload
      exact ⟨rfl, rfl⟩

/-- The text that closes the output: the marker of a machine that has halted. -/
def ending (m : Machine ι) : String := if m.running then "" else haltMarker

/-- The value that the next step pops and prints. There is one if the machine runs, the
instruction is a `print` and the step succeeds. -/
def printed? [Host ι] (m : Machine ι) : Option Value :=
  match m.running, m.current?.bind Instruction.operation?, Machine.step.result m with
  | true, some .print, .ok _ => (pop.result m.advance).toOption
  | _, _, _ => none

/-- The values that a history prints, in the order of execution. -/
def printed [Host ι] (m : Machine ι) : List (Operation ι) → List Value
  | [] => []
  | .step :: rest => m.printed?.toList ++ (Machine.step.state m).printed rest
  | .call k :: rest => (k.apply m).printed rest

/-- The texts that a history collects, the first one first. -/
def collected [Host ι] (m : Machine ι) : List (Operation ι) → List String
  | [] => []
  | .call .drain :: rest => m.drain.1 :: m.drain.2.collected rest
  | .call k :: rest => (k.apply m).collected rest
  | .step :: rest => (Machine.step.state m).collected rest

/-- Elementary calls other than a halt and a print leave the text alone. -/
theorem output_call {k : Call ι} (hk : k.IsElementary) (hhalt : k ≠ .halt)
    (hprint : ∀ v, k ≠ .print v) (m : Machine ι) : (k.apply m).output = m.output := by
  cases k with
  | load p | restart | peek | readCell address | drain | toggleBreakpoint slot
  | setRegisters r => exact hk.elim
  | halt => exact absurd rfl hhalt
  | print v => exact absurd rfl (hprint v)
  | push v =>
      change ((push v).state m).output = _
      obtain h | ⟨_, _, _, h⟩ := state_push_cases v m <;> rw [h]
  | pop =>
      change (pop.state m).output = _
      obtain h | ⟨_, h⟩ := state_pop_cases m <;> rw [h]
  | allocate units =>
      change ((allocate units).state m).output = _
      obtain h | ⟨_, _, _, h⟩ := state_allocate_cases units m <;> rw [h]
  | enter frame =>
      change ((enter frame).state m).output = _
      obtain h | h | ⟨_, _, _, _, h⟩ := state_enter_cases frame m <;> rw [h] <;> rfl
  | writeCell address v =>
      change ((writeCell address v).state m).output = _
      obtain h | ⟨_, _, h⟩ := state_writeCell_cases address v m <;> rw [h]

end Machine

open Machine

/-- All operations but prints and halts leave the text alone and do not stop the machine. -/
theorem Standard.quiet_perform {op : Standard} (hprint : op ≠ .print) (hhalt : op ≠ .halt)
    (i : Instruction ι) (m : Machine ι) :
    ((op.perform i).state m).output = m.output ∧
      ((op.perform i).state m).running = m.running := by
  have hkept : Attempt.Preserves
      (fun n : Machine ι => n.output = m.output ∧ n.running = m.running) (op.perform i) := by
    refine Standard.perform_preserves_of_makes ?_ (fun _ _ _ hn => hn) i
    intro k hk n hn
    have hnoHalt : k ≠ .halt := by
      rintro rfl
      cases op with
      | halt => exact hhalt rfl
      | _ => exact hk.elim
    have hnoPrint (v : Value) : k ≠ .print v := by
      rintro rfl
      cases op with
      | print => exact hprint rfl
      | _ => exact hk.elim
    exact ⟨(output_call hk.isElementary hnoHalt hnoPrint n).trans hn.1,
      (congrArg Control.running (control_call hk.isElementary hnoHalt n)).trans hn.2⟩
  exact hkept m ⟨rfl, rfl⟩

namespace Machine

/-- A pop leaves the text alone and does not stop the machine. -/
theorem quiet_pop (m : Machine ι) :
    (pop.state m).output = m.output ∧ (pop.state m).running = m.running :=
  ⟨output_call (k := .pop) trivial (by simp) (by simp) m,
    congrArg Control.running (control_call (c := .pop) trivial (by simp) m)⟩

variable [Host ι] {m : Machine ι}

theorem printed?_of_halted (h : m.running = false) : m.printed? = none := by
  rw [printed?, h]

theorem printed?_of_ne (h : m.current?.bind Instruction.operation? ≠ some .print) :
    m.printed? = none := by
  unfold printed?
  split
  next hprint _ => exact absurd hprint h
  next => rfl

/-- A print that finds no value writes nothing, and one that finds a value writes its text. -/
theorem text_print {i : Instruction ι} (hrunning : m.running = true)
    (hi : m.current? = some i) (hop : i.operation? = some .print) :
    (Machine.step.state m).output.text =
        m.output.text ++ (m.printed?.map Value.text).getD "" ∧
      (Machine.step.state m).running = true := by
  have hnext : m.current?.bind Instruction.operation? = some .print := by
    rw [hi]
    exact hop
  have hstep : Machine.step.run m = (Standard.print.perform i).run m.advance := by
    rw [run_step_of_current hrunning hi, Instruction.perform_of_operation hop]
  obtain ⟨hquiet, hgoesOn⟩ := quiet_pop m.advance
  unfold printed?
  rw [hrunning, hnext]
  cases hpop : pop.run m.advance with
  | error f n =>
      have hrun : Machine.step.run m = .error f n :=
        hstep.trans (Attempt.run_bind_of_error hpop _)
      rw [Attempt.state_of_error hpop] at hquiet hgoesOn
      rw [Attempt.state_of_error hrun, Attempt.result_of_error hrun]
      refine ⟨?_, hgoesOn.trans hrunning⟩
      rw [hquiet]
      exact (String.append_empty).symm
  | ok v n =>
      have hrun : Machine.step.run m = .ok () (n.print v) :=
        hstep.trans (Attempt.run_bind_of_ok hpop _)
      rw [Attempt.state_of_ok hpop] at hquiet hgoesOn
      rw [Attempt.state_of_ok hrun, Attempt.result_of_ok hrun, Attempt.result_of_ok hpop]
      refine ⟨?_, hgoesOn.trans hrunning⟩
      change n.output.text ++ v.text = _
      rw [hquiet]
      rfl

/-- What one step adds to the text: what it prints, and the marker if it halts. -/
theorem text_step (hm : m.IsStandard) (hrunning : m.running = true) :
    (Machine.step.state m).output.text =
      m.output.text ++ (m.printed?.map Value.text).getD "" ++
        (Machine.step.state m).ending := by
  have hsilent (hnext : m.current?.bind Instruction.operation? ≠ some .print)
      (hquiet : (Machine.step.state m).output = m.output ∧
        (Machine.step.state m).running = m.running) :
      (Machine.step.state m).output.text =
        m.output.text ++ (m.printed?.map Value.text).getD "" ++
          (Machine.step.state m).ending := by
    rw [printed?_of_ne hnext, ending, hquiet.1, hquiet.2, hrunning]
    simp
  cases hi : m.current? with
  | none =>
      have hstep : Machine.step.state m = m :=
        Attempt.state_of_error (run_step_of_none hrunning hi)
      exact hsilent (by simp [hi]) (by simp [hstep])
  | some i =>
      have hstep : Machine.step.state m = i.perform.state m.advance := by
        rw [Attempt.state_eq, run_step_of_current hrunning hi, Attempt.state_eq]
      cases hop : i.operation? with
      | none =>
          rw [(hm i (current?_mem hi)).perform_of_none hop] at hstep
          exact hsilent (by simp [hi, hop]) (by rw [hstep]; exact ⟨rfl, rfl⟩)
      | some op =>
          rw [Instruction.perform_of_operation hop] at hstep
          by_cases hprint : op = .print
          · subst hprint
            obtain ⟨htext, hgoesOn⟩ := text_print hrunning hi hop
            rw [htext, ending, hgoesOn]
            simp
          by_cases hhalt : op = .halt
          · subst hhalt
            rw [printed?_of_ne (by simp [hi, hop]), hstep]
            change m.output.text ++ haltMarker = m.output.text ++ "" ++ haltMarker
            rw [String.append_empty]
          · refine hsilent (by simp [hi, hop, hprint]) ?_
            rw [hstep]
            exact Standard.quiet_perform hprint hhalt i m.advance

/-- What was collected and what is left are what was printed and the end of it. -/
def Balanced (taken said : String) (m : Machine ι) : Prop :=
  taken ++ m.output.text = said ++ m.ending

omit [Host ι] in
theorem Balanced.drain {taken said : String} (h : m.Balanced taken said) :
    m.drain.2.Balanced (taken ++ m.drain.1) said := by
  change taken ++ m.output.text ++ "" = said ++ m.ending
  rw [String.append_empty]
  exact h

theorem Balanced.step {taken said : String} (h : m.Balanced taken said)
    (hm : m.IsStandard) :
    (Machine.step.state m).Balanced taken (said ++ (m.printed?.map Value.text).getD "") := by
  unfold Balanced at h ⊢
  cases hrunning : m.running with
  | false =>
      rw [printed?_of_halted hrunning, Attempt.state_of_ok (run_step_of_halted hrunning), h]
      simp
  | true =>
      have hopen : m.ending = "" := by
        rw [ending, hrunning]
        rfl
      rw [hopen, String.append_empty] at h
      rw [text_step hm hrunning, ← String.append_assoc, ← String.append_assoc, h]

/-- The balance over a history. The induction is on the operations, with whatever was
collected and printed before. -/
theorem Balanced.after {taken said : String} (h : m.Balanced taken said) (hm : m.IsStandard)
    (ops : List (Operation ι)) (hops : ∀ op ∈ ops, op = .step ∨ op = .call .drain) :
    (m.after ops).Balanced (taken ++ String.join (m.collected ops))
      (said ++ String.join ((m.printed ops).map Value.text)) := by
  induction ops generalizing m taken said with
  | nil =>
      simp only [collected, printed, List.map_nil, String.join_nil, String.append_empty]
      exact h
  | cons op rest ih =>
      have hrest : ∀ op ∈ rest, op = .step ∨ op = .call .drain :=
        fun next member => hops next (by simp [member])
      rcases hops op (by simp) with rfl | rfl
      · have hnext := ih (h.step hm) ((sameProgram_step hm).isStandard hm) hrest
        have hsaid : String.join (m.printed?.toList.map Value.text) =
            (m.printed?.map Value.text).getD "" := by
          cases m.printed? <;> simp
        rw [collected, printed, List.map_append, String.join_append, hsaid,
          ← String.append_assoc]
        exact hnext
      · have hnext := ih h.drain hm hrest
        rw [collected, String.join_cons, ← String.append_assoc]
        exact hnext

end Machine

/-- The operation puts the machine to the start of a program. -/
def Operation.Starts (m : Machine ι) : Operation ι → Prop
  | .call .restart => True
  | .call (.load p) => ∃ n, m.load p = .ok n
  | _ => False

namespace Machine

/-- No operation of the history puts the machine that it meets to a start. -/
def NeverStarts [Host ι] (m : Machine ι) : List (Operation ι) → Prop
  | [] => True
  | op :: rest => ¬ op.Starts m ∧ (op.apply m).NeverStarts rest

/-- Only a start can make a halted machine run. -/
theorem halted_call {m : Machine ι} (h : m.running = false) {k : Call ι}
    (hk : ¬ (Operation.call k).Starts m) : (k.apply m).running = false := by
  have helementary (he : k.IsElementary) (hhalt : k ≠ .halt) : (k.apply m).running = false :=
    (congrArg Control.running (control_call he hhalt m)).trans h
  cases k with
  | restart => exact absurd trivial hk
  | load p =>
      obtain hload | ⟨_, _, hsame⟩ := Call.apply_load_cases p m
      · exact absurd ⟨_, hload⟩ hk
      · rwa [hsame]
  | toggleBreakpoint slot =>
      obtain ⟨_, htoggle⟩ | ⟨_, _, hsame⟩ := Call.apply_toggleBreakpoint_cases slot m
      · obtain ⟨_, _, hmarked⟩ := toggleBreakpoint_ok htoggle
        rw [hmarked]
        exact h
      · rwa [hsame]
  | halt => rfl
  | drain => exact h
  | setRegisters r => exact h
  | peek => exact (congrArg Machine.running (state_peek m)).trans h
  | readCell address => exact (congrArg Machine.running (state_readCell address m)).trans h
  | push v => exact helementary trivial (by simp)
  | pop => exact helementary trivial (by simp)
  | allocate units => exact helementary trivial (by simp)
  | enter frame => exact helementary trivial (by simp)
  | writeCell address v => exact helementary trivial (by simp)
  | print v => exact helementary trivial (by simp)

variable [Host ι]

theorem halted_after {m : Machine ι} (h : m.running = false) (ops : List (Operation ι))
    (hops : m.NeverStarts ops) : (m.after ops).running = false := by
  induction ops generalizing m with
  | nil => exact h
  | cons op rest ih =>
      obtain ⟨hop, hrest⟩ := hops
      refine ih ?_ hrest
      cases op with
      | call k => exact halted_call h hop
      | step =>
          change (Machine.step.state m).running = false
          rwa [Attempt.state_of_ok (run_step_of_halted h)]

/-- Text is neither lost nor repeated, and a halt ends it. Let a machine with standard
instructions have been restarted or loaded, and let it execute any number of steps, which
may fault, while the text is collected at any moments. The collected texts in their order,
with what is still uncollected behind them, are the texts of the values that successful
prints have popped, in the order of execution, followed by the marker if the machine has
halted, and by nothing if it has not. A machine that has halted stays so until it is put to
a start again, whatever else is done to it, and a step of it succeeds and changes nothing. -/
theorem text_neither_lost_nor_repeated {m : Machine ι} (hstart : m.JustStarted)
    (hm : m.IsStandard) (ops : List (Operation ι))
    (hops : ∀ op ∈ ops, op = .step ∨ op = .call .drain) :
    let last := m.after ops
    String.join (m.collected ops) ++ last.output.text =
        String.join ((m.printed ops).map Value.text) ++
          (if last.running then "" else haltMarker) ∧
      (last.running = false →
        ∀ later : List (Operation ι), last.NeverStarts later →
          (last.after later).running = false ∧
            Machine.step.run (last.after later) = .ok () (last.after later)) := by
  intro last
  constructor
  · obtain ⟨htext, hrunning⟩ := hstart.fresh
    have hempty : m.Balanced "" "" := by
      rw [Balanced, htext, ending, hrunning]
      rfl
    have hlast := hempty.after hm ops hops
    rw [String.empty_append, String.empty_append] at hlast
    exact hlast
  · intro hhalted later hlater
    have hstill := halted_after hhalted later hlater
    exact ⟨hstill, run_step_of_halted hstill⟩

/-- Prints two values, with a print in between that finds none, and halts. -/
def printsTwo : Program Empty where
  instructions :=
    [Standard.instruction .ldc (some (.int 7)), Standard.instruction .print,
      Standard.instruction .print, Standard.instruction .ldc (some (.label "x")),
      Standard.instruction .print, Standard.instruction .halt]

/-- The text is collected after the first value and again before the second, and the last
step comes after the halt. -/
def collectedTwice : List (Operation Empty) :=
  [.step, .step, .call .drain, .step, .step, .call .drain, .step, .step, .step]

theorem text_whole_around_faulting_print :
    ∃ m : Machine Empty, (blank ⟨6, 2, 1⟩).load printsTwo = .ok m ∧ m.JustStarted ∧
      m.IsStandard ∧ m.collected collectedTwice = ["7", ""] ∧
      m.printed collectedTwice = [.int 7, .label "x"] ∧
      (m.after collectedTwice).running = false ∧
      "7" ++ (m.after collectedTwice).output.text = "7x" ++ haltMarker ∧
      Machine.step.run ((m.after collectedTwice).after [.call (.push .zero), .step]) =
        .ok () ((m.after collectedTwice).after [.call (.push .zero), .step]) := by
  obtain ⟨m, hload⟩ : ∃ m, (blank ⟨6, 2, 1⟩ : Machine Empty).load printsTwo = .ok m := ⟨_, rfl⟩
  have hm := m.isStandard_empty
  have hops : ∀ op ∈ collectedTwice, op = .step ∨ op = .call .drain := by
    simp [collectedTwice]
  obtain ⟨htext, hhalted⟩ := text_neither_lost_nor_repeated (.loaded hload) hm _ hops
  have hends : m.collected collectedTwice = ["7", ""] ∧
      m.printed collectedTwice = [.int 7, .label "x"] ∧
      (m.after collectedTwice).running = false := by
    cases hload
    decide +kernel
  obtain ⟨hcollected, hprinted, hstopped⟩ := hends
  refine ⟨m, hload, .loaded hload, hm, hcollected, hprinted, hstopped, ?_, ?_⟩
  · rw [hcollected, hprinted, hstopped] at htext
    exact htext
  · exact (hhalted hstopped [.call (.push .zero), .step] ⟨id, id, trivial⟩).2

end Machine

end CellMachine
