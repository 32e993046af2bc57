import CellMachine.Proofs.ControlFlow
import Mathlib.Data.Fintype.Pigeonhole

/-!
How long it takes until it is known that a program halts. Control that leaves the
store stays where it is, and control that comes back to a slot goes round for ever.
A run that does neither meets a new slot with every step, so it has halted after as
many steps as there are slots.
-/

namespace CellMachine

variable {ι : Type}

namespace Code

variable {c : Code ι} {s : Control}

/-- The slot of the instruction that is executed next. -/
def slot? (c : Code ι) (s : Control) : Option (Fin c.slots.size) :=
  Word.index? s.pc c.slots.size

theorem next_of_slot?_none (h : c.slot? s = none) : c.next s = s := by
  apply next_of_strayed
  unfold slot? at h
  rw [fetch?, h]
  rfl

/-- Control that still runs has been running all the time before. -/
theorem running_of_le {j k : Nat} (hjk : j ≤ k) (h : (c.next^[k] s).running = true) :
    (c.next^[j] s).running = true := by
  cases hrunning : (c.next^[j] s).running with
  | true => rfl
  | false =>
      have hstays : c.next^[k - j] (c.next^[j] s) = c.next^[j] s :=
        Function.iterate_fixed (next_of_halted hrunning) _
      rw [← Function.iterate_add_apply, Nat.sub_add_cancel hjk] at hstays
      rw [hstays, hrunning] at h
      cases h

/-- Running control that stands still runs for ever. -/
theorem running_of_fixed {j : Nat} (hj : (c.next^[j] s).running = true)
    (hfixed : c.next (c.next^[j] s) = c.next^[j] s) (k : Nat) :
    (c.next^[k] s).running = true := by
  have hlater : (c.next^[k + j] s).running = true := by
    rw [Function.iterate_add_apply, Function.iterate_fixed hfixed]
    exact hj
  exact running_of_le (Nat.le_add_right k j) hlater

/-- Control that has come back to where it was runs for ever: from there on each
state is one that it has been in before. -/
theorem running_of_return {i j : Nat} (hij : i < j) (hj : (c.next^[j] s).running = true)
    (hreturn : c.next^[i] s = c.next^[j] s) (k : Nat) : (c.next^[k] s).running = true := by
  induction k using Nat.strong_induction_on with
  | _ k ih =>
      rcases Nat.le_total k j with hbefore | hafter
      · exact running_of_le hbefore hj
      · have hearlier : c.next^[k] s = c.next^[k - j + i] s := by
          rw [Function.iterate_add_apply, hreturn, ← Function.iterate_add_apply,
            Nat.sub_add_cancel hafter]
        rw [hearlier]
        exact ih _ (by omega)

/-- Of more states than slots that all run in the store, two are the same. -/
theorem exists_return (hrunning : ∀ k ≤ c.slots.size, (c.next^[k] s).running = true)
    (hinside : ∀ k ≤ c.slots.size, c.slot? (c.next^[k] s) ≠ none) :
    ∃ i j, i < j ∧ j ≤ c.slots.size ∧ c.next^[i] s = c.next^[j] s := by
  have hslot (k : Fin (c.slots.size + 1)) : ∃ slot, c.slot? (c.next^[k] s) = some slot :=
    Option.ne_none_iff_exists'.mp (hinside k (by omega))
  choose slot hslot using hslot
  have hcard : Fintype.card (Fin c.slots.size) < Fintype.card (Fin (c.slots.size + 1)) := by
    simp only [Fintype.card_fin]
    omega
  obtain ⟨i, j, hne, hsame⟩ := Fintype.exists_ne_map_eq_of_card_lt slot hcard
  have hstate : c.next^[i] s = c.next^[j] s := by
    have hi := Word.index?_eq_some_iff.mp (hslot i)
    have hj := Word.index?_eq_some_iff.mp (hslot j)
    rw [hsame] at hi
    have hpc : (c.next^[i] s).pc = (c.next^[j] s).pc := Word.eq_of_toInt (hi.trans hj.symm)
    have hboth := (hrunning i (by omega)).trans (hrunning j (by omega)).symm
    exact Control.ext hpc hboth
  rcases Nat.lt_or_gt_of_ne (Fin.val_ne_of_ne hne) with hlt | hgt
  · exact ⟨i, j, hlt, by omega, hstate⟩
  · exact ⟨j, i, hgt, by omega, hstate.symm⟩

/-- Control that runs for as many steps as there are slots runs for ever. -/
theorem running_forever (h : (c.next^[c.slots.size] s).running = true) (k : Nat) :
    (c.next^[k] s).running = true := by
  have hrunning (j : Nat) (hj : j ≤ c.slots.size) : (c.next^[j] s).running = true :=
    running_of_le hj h
  by_cases hstray : ∃ j ≤ c.slots.size, c.slot? (c.next^[j] s) = none
  · obtain ⟨j, hj, hnone⟩ := hstray
    exact running_of_fixed (hrunning j hj) (next_of_slot?_none hnone) k
  · have hinside : ∀ j ≤ c.slots.size, c.slot? (c.next^[j] s) ≠ none :=
      fun j hj hnone => hstray ⟨j, hj, hnone⟩
    obtain ⟨i, j, hij, hj, hreturn⟩ := exists_return hrunning hinside
    exact running_of_return hij (hrunning j hj) hreturn k

end Code

namespace Machine

theorem size_slots_code (m : Machine ι) : m.code.slots.size = m.store.size :=
  Array.size_map

variable [Host ι] {m : Machine ι}

/-- A run of a standard machine is a run of control over the slots of its store. -/
theorem running_afterSteps (hm : m.IsStandard) (k : Nat) :
    (m.afterSteps k).running = (m.code.next^[k] m.control).running :=
  congrArg Control.running (control_afterSteps hm k)

/-- Whether a standard machine ever halts is decided within as many steps as its store
has slots, steps that fault included. If it still runs then, it runs after every
number of steps; and if it halts at all, it has halted by then. -/
theorem halting_decided_within_store (hm : m.IsStandard) :
    ((m.afterSteps m.store.size).running = true ↔
      ∀ k, (m.afterSteps k).running = true) ∧
      ((m.afterSteps m.store.size).running = false ↔
        ∃ k, (m.afterSteps k).running = false) := by
  have hforever (h : (m.afterSteps m.store.size).running = true) (k : Nat) :
      (m.afterSteps k).running = true := by
    rw [running_afterSteps hm, ← size_slots_code] at h
    rw [running_afterSteps hm]
    exact Code.running_forever h k
  refine ⟨⟨hforever, fun h => h _⟩, ⟨fun h => ⟨_, h⟩, ?_⟩⟩
  rintro ⟨k, hk⟩
  cases hlast : (m.afterSteps m.store.size).running with
  | false => rfl
  | true =>
      rw [hforever hlast k] at hk
      cases hk

/-- Of two stores with three slots one halts with the last step that it is given,
after a fault, and the other goes round for ever. -/
theorem third_step_decides_three_slots :
    let start (last : Instruction Empty) : Machine Empty :=
      { blank (ι := Empty) ⟨3, 1, 0⟩ with store := #[Standard.instruction .print, .padding, last] }
    let halting := start (Standard.instruction .halt)
    let looping := start (Standard.instruction .ujp (some (.int 1)))
    halting.IsStandard ∧ looping.IsStandard ∧
      Machine.step.result halting = .error (.stackUnderflow (-1)) ∧
      (halting.afterSteps 2).running = true ∧ (halting.afterSteps 3).running = false ∧
      ¬ (∀ k, (halting.afterSteps k).running = true) ∧
      ∀ k, (looping.afterSteps k).running = true := by
  intro start halting looping
  have hhalting := halting.isStandard_empty
  have hlooping := looping.isStandard_empty
  have hhalted : (halting.afterSteps 3).running = false := rfl
  have hgoesOn : (looping.afterSteps 3).running = true := rfl
  refine ⟨hhalting, hlooping, rfl, rfl, hhalted, ?_, ?_⟩
  · rw [← (halting_decided_within_store hhalting).1]
    exact fun h => absurd (h.symm.trans hhalted) (by decide)
  · exact (halting_decided_within_store hlooping).1.mp hgoesOn

end Machine

end CellMachine
