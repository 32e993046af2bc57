import CellMachine.Proofs.Operations

/-!
Standard instructions write text and never read it. A machine that still holds
text from before therefore steps like one that does not, and the earlier text
stays in front of whatever the step prints.
-/

namespace CellMachine.Machine

open Attempt

variable {ι : Type}

/-- The machine as if `earlier` had been printed before the text that it holds. -/
def preceded (earlier : String) (m : Machine ι) : Machine ι :=
  { m with output := ⟨earlier ++ m.output.text⟩ }

variable (earlier : String)

theorem getRegisters_commutes :
    Commutes (preceded earlier) (getRegisters : Exec ι Registers) := by
  intro m
  rfl

theorem modifyRegisters_commutes (f : Registers → Registers) :
    Commutes (preceded earlier) (modifyRegisters f : Exec ι Unit) := by
  intro m
  rfl

theorem readCell_commutes (address : Word) :
    Commutes (preceded earlier) (readCell address : Exec ι Value) := by
  intro m
  have hmemory : (m.preceded earlier).memory = m.memory := rfl
  rw [run_readCell, run_readCell, hmemory]
  cases m.memory.read address with
  | ok v => rfl
  | error f => rfl

theorem writeCell_commutes (address : Word) (v : Value) :
    Commutes (preceded earlier) (writeCell address v : Exec ι Unit) := by
  intro m
  rw [run_writeCell, run_writeCell]
  cases hlocate : m.memory.locate address with
  | ok i =>
      have hsame : (m.preceded earlier).memory.locate address = .ok i := hlocate
      rw [hsame]
      rfl
  | error f =>
      have hsame : (m.preceded earlier).memory.locate address = .error f := hlocate
      rw [hsame]
      rfl

theorem target_commutes (i : Instruction ι) :
    Commutes (preceded earlier) (target i) := by
  intro m
  have hresolve : (m.preceded earlier).resolve i.name = m.resolve i.name := by
    funext v
    cases v <;> rfl
  rw [run_target, run_target, hresolve]
  cases i.argument .first >>= m.resolve i.name with
  | ok address => rfl
  | error f => rfl

theorem push_commutes (v : Value) :
    Commutes (preceded earlier) (push v : Exec ι Unit) := by
  unfold push
  refine Commutes.bind (getRegisters_commutes earlier) fun r => ?_
  refine Commutes.guard ?_
  exact Commutes.bind (writeCell_commutes earlier _ v) fun _ =>
    modifyRegisters_commutes earlier _

theorem peek_commutes : Commutes (preceded earlier) (peek : Exec ι Value) := by
  unfold peek
  refine Commutes.bind (getRegisters_commutes earlier) fun r => ?_
  exact Commutes.guard (readCell_commutes earlier _)

theorem pop_commutes : Commutes (preceded earlier) (pop : Exec ι Value) := by
  unfold pop
  refine Commutes.bind (peek_commutes earlier) fun v => ?_
  exact Commutes.bind (modifyRegisters_commutes earlier _) fun _ => commutes_pure _ v

theorem enter_commutes (frame : Word) :
    Commutes (preceded earlier) (enter frame : Exec ι Unit) := by
  unfold enter
  refine Commutes.guard ?_
  refine Commutes.bind (modifyRegisters_commutes earlier _) fun _ => ?_
  refine Commutes.bind (getRegisters_commutes earlier) fun r => ?_
  cases Word.add? r.sp frame with
  | none => exact commutes_throw _ _
  | some ep => exact Commutes.guard (modifyRegisters_commutes earlier _)

theorem allocate_commutes (units : Nat) :
    Commutes (preceded earlier) (allocate units : Exec ι Value) := by
  unfold allocate
  refine Commutes.bind (getRegisters_commutes earlier) fun r => ?_
  cases heapBelow? r.hp units with
  | none => exact commutes_throw _ _
  | some hp =>
      refine Commutes.guard ?_
      exact Commutes.bind (modifyRegisters_commutes earlier _) fun _ => commutes_pure _ _

theorem print_preceded (m : Machine ι) (v : Value) :
    (m.preceded earlier).print v = (m.print v).preceded earlier := by
  simp only [print, preceded, Transcript.print, Transcript.append, String.append_assoc]

theorem halt_preceded (m : Machine ι) :
    (m.preceded earlier).halt = m.halt.preceded earlier := by
  simp only [halt, preceded, Transcript.append, String.append_assoc]

end CellMachine.Machine

namespace CellMachine

open Attempt Machine

variable {ι : Type} (earlier : String)

theorem Standard.popSize_commutes (i : Instruction ι) :
    Commutes (preceded earlier) (Standard.popSize i) := by
  unfold Standard.popSize
  refine Commutes.bind (pop_commutes earlier) fun size => ?_
  refine Commutes.bind (commutes_ofExcept _ _) fun n => ?_
  exact Commutes.guard (commutes_pure _ _)

theorem Standard.perform_commutes (op : Standard) (i : Instruction ι) :
    Commutes (preceded earlier) (op.perform i) := by
  cases op with
  | ldc => exact Commutes.bind (commutes_ofExcept _ _) fun v => push_commutes earlier v
  | ldo =>
      refine Commutes.bind (target_commutes earlier i) fun address => ?_
      exact Commutes.bind (readCell_commutes earlier address) fun v =>
        push_commutes earlier v
  | sro =>
      refine Commutes.bind (target_commutes earlier i) fun address => ?_
      exact Commutes.bind (pop_commutes earlier) fun v =>
        writeCell_commutes earlier address v
  | print =>
      exact Commutes.bind (pop_commutes earlier) fun v =>
        commutes_modify _ _ fun m => print_preceded earlier m v
  | new =>
      refine Commutes.bind (Standard.popSize_commutes earlier i) fun units => ?_
      exact Commutes.bind (allocate_commutes earlier units) fun block =>
        push_commutes earlier block
  | enter =>
      exact Commutes.bind (commutes_ofExcept _ _) fun frame => enter_commutes earlier frame
  | ujp =>
      exact Commutes.bind (target_commutes earlier i) fun address =>
        modifyRegisters_commutes earlier _
  | halt => exact commutes_modify _ _ fun m => halt_preceded earlier m

theorem Instruction.perform_commutes [Host ι] {i : Instruction ι} (hi : i.IsStandard) :
    Commutes (preceded earlier) i.perform := by
  obtain hnothing | ⟨op, hop⟩ := hi.perform_eq
  · rw [hnothing]
    exact commutes_pure _ _
  · rw [hop]
    exact Standard.perform_commutes earlier op i

/-- A step of a standard machine does the same after any earlier text. -/
theorem Machine.run_step_preceded [Host ι] {m : Machine ι} (hm : m.IsStandard) :
    Machine.step.run (m.preceded earlier) =
      mapState (preceded earlier) (Machine.step.run m) := by
  have hrunning : (m.preceded earlier).running = m.running := rfl
  have hcurrent : (m.preceded earlier).current? = m.current? := rfl
  have hadvance : (m.preceded earlier).advance = m.advance.preceded earlier := rfl
  rw [run_step, run_step, hrunning, hcurrent, hadvance]
  cases m.running with
  | false => rfl
  | true =>
      rw [if_pos rfl, if_pos rfl]
      cases hnext : m.current? with
      | none => rfl
      | some i => exact i.perform_commutes earlier (hm i (current?_mem hnext)) m.advance

end CellMachine
