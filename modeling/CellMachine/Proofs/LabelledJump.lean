import CellMachine.Proofs.HeldProgram
import CellMachine.StandardSet

/-!
Labels over whole histories. Whatever was loaded, refused, marked or executed
before, the index and a search through the store give the same slot for a label,
it is the first slot that carries the label, and a jump to the label arrives there.
-/

namespace CellMachine.Machine

variable {ι : Type}

/-- The slot carries the label and no slot before it does. -/
structure IsFirstWithLabel (m : Machine ι) (l : String) (slot : Nat) : Prop where
  carries : ∃ i, m.store[slot]? = some i ∧ i.Carries l
  first : ∀ earlier i, earlier < slot → m.store[earlier]? = some i → ¬ i.Carries l

theorem searchLabel?_eq_some_iff {m : Machine ι} {l : String} {slot : Nat} :
    m.searchLabel? l = some slot ↔ m.IsFirstWithLabel l slot := by
  rw [searchLabel?, Array.findIdx?_eq_some_iff_getElem]
  constructor
  · rintro ⟨hslot, hfound, hearlier⟩
    refine ⟨⟨_, Array.getElem?_eq_getElem hslot, Instruction.hasLabel_iff.mp hfound⟩, ?_⟩
    intro earlier i hlt hi hcarries
    obtain ⟨_, rfl⟩ := Array.getElem?_eq_some_iff.mp hi
    exact hearlier earlier hlt (Instruction.hasLabel_iff.mpr hcarries)
  · rintro ⟨⟨i, hi, hcarries⟩, hfirst⟩
    obtain ⟨hslot, rfl⟩ := Array.getElem?_eq_some_iff.mp hi
    refine ⟨hslot, Instruction.hasLabel_iff.mpr hcarries, ?_⟩
    intro earlier hlt hfound
    have hearlier := Array.getElem?_eq_getElem (Nat.lt_trans hlt hslot)
    exact hfirst earlier _ hlt hearlier (Instruction.hasLabel_iff.mp hfound)

theorem current?_jump (m : Machine ι) (address : Word) :
    (m.jump address).current? = m.instructionAt? address := rfl

/-- A fetch from a slot of the store succeeds, provided a word can hold its number. -/
theorem run_fetch_of_slot {m : Machine ι} {slot : Nat} {i : Instruction ι}
    (hi : m.store[slot]? = some i) (hword : slot < 0x8000000000000000) :
    fetch.run (m.jump (.wrap slot)) = .ok i (m.jump (.wrap slot)).advance := by
  obtain ⟨hslot, rfl⟩ := Array.getElem?_eq_some_iff.mp hi
  have hindex : Word.index? (.wrap slot) m.store.size = some ⟨slot, hslot⟩ := by
    rw [Word.index?_eq_some_iff, Word.toInt_wrap_nat hword]
  rw [run_fetch, current?_jump, instructionAt?, hindex]
  rfl

/-- A jump to a label that has a slot does nothing but move the counter there. -/
theorem run_step_of_labelled_jump [Host ι] {m : Machine ι} {i : Instruction ι}
    {d : Definition ι} {l : String} {slot : Nat} (hrunning : m.running = true)
    (hcurrent : m.current? = some i) (hop : i.opcode = .defined d)
    (hjump : d.action = .standard .ujp) (harg : i.first = some (.label l))
    (hslot : m.labelSlot? l = some slot) :
    Machine.step.run m = .ok () (m.jump (.wrap slot)) := by
  have hperform : i.perform = Standard.perform .ujp i := by
    unfold Instruction.perform
    rw [hop]
    dsimp only
    rw [hjump]
  have htarget : (target i).run m.advance = .ok (.wrap slot) m.advance := by
    have hresolve : m.advance.resolve i.name (.label l) = .ok (.wrap slot) := by
      have hadvanced : m.advance.labelSlot? l = some slot := hslot
      rw [resolve, hadvanced]
    have hargument : i.argument .first = .ok (.label l) := by
      rw [Instruction.argument, Instruction.argument?, harg]
    have hboth : i.argument .first >>= m.advance.resolve i.name = .ok (.wrap slot) := by
      rw [hargument]
      exact hresolve
    rw [run_target, hboth]
  rw [run_step_of_current hrunning hcurrent, hperform]
  unfold Standard.perform
  rw [EStateM.run_bind, htarget]
  rfl

/-- Labels after any history of a machine, with refused loads, breakpoints, register
writes and instructions of a host. The index agrees with a search through the store;
it has a slot for a label exactly if that slot is the first to carry the label, and
it has none for the empty text; the slot belongs to the last accepted program. If
words can number all slots, a jump to the label does nothing but move the counter
to that slot, and the next fetch finds an instruction with the label there. -/
theorem label_index_agrees_with_search [ClientHost ι] {c : Config} {m : Machine ι}
    (hm : create c = .ok m) (ops : List (Operation ι)) (l : String) :
    let n := m.after ops
    n.labelSlot? l = n.searchLabel? l ∧
      (∀ slot, n.labelSlot? l = some slot ↔ n.IsFirstWithLabel l slot) ∧
      n.labelSlot? "" = none ∧
      (∀ slot, n.labelSlot? l = some slot → slot < (m.lastAccepted ops).length) ∧
      (c.storeSize ≤ 0x8000000000000000 →
        ∀ (slot : Nat) (i : Instruction ι) (d : Definition ι),
          n.labelSlot? l = some slot → n.running = true → n.current? = some i →
          i.opcode = .defined d → d.action = .standard .ujp →
          i.first = some (.label l) →
          Machine.step.run n = .ok () (n.jump (.wrap slot)) ∧
            ∃ next, fetch.run (n.jump (.wrap slot)) =
                .ok next (n.jump (.wrap slot)).advance ∧
              next.Carries l) := by
  intro n
  have hn : n.Holds c (m.lastAccepted ops) := holds_lastAccepted hm ops
  have hagree (label : String) : n.labelSlot? label = n.searchLabel? label :=
    (hn.searchLabel?_eq label).symm
  have hfirst (label : String) (slot : Nat) :
      n.labelSlot? label = some slot ↔ n.IsFirstWithLabel label slot := by
    rw [hagree]
    exact searchLabel?_eq_some_iff
  have hbelow (slot : Nat) (hslot : n.labelSlot? l = some slot) :
      slot < (m.lastAccepted ops).length := by
    rw [hn.labels] at hslot
    obtain ⟨hlt, _⟩ := List.findIdx?_eq_some_iff_getElem.mp hslot
    exact hlt
  refine ⟨hagree l, hfirst l, ?_, hbelow, ?_⟩
  · rw [Option.eq_none_iff_forall_ne_some]
    intro slot hslot
    obtain ⟨i, _, hcarries⟩ := ((hfirst "" slot).mp hslot).carries
    exact i.not_carries_empty hcarries
  · intro hsize slot i d hslot hrunning hcurrent hop hjump harg
    obtain ⟨next, hnext, hcarries⟩ := ((hfirst l slot).mp hslot).carries
    have hfits := hn.fits
    have hlt := hbelow slot hslot
    exact ⟨run_step_of_labelled_jump hrunning hcurrent hop hjump harg hslot,
      next, run_fetch_of_slot hnext (by omega), hcarries⟩

/-- Of two slots with one label the jump takes the first. The host's instruction is
executed once before, which restarts the machine, and a program that is too long for
the store is refused. -/
theorem jump_takes_first_of_two_labels :
    let _ : ClientHost Unit :=
      { perform := fun _ _ => modify Machine.restart
        calls := fun _ _ _ => [.restart]
        state_perform := fun _ _ _ => rfl }
    let again : Instruction Unit :=
      { opcode := .defined ⟨⟨"again", "again", "", ""⟩, .host ()⟩
        label := Remark.ofString? "start" }
    let p : Program Unit :=
      { instructions := [Standard.instruction .ujp (some (.label "start")), again, again] }
    let tooLong : Program Unit := { instructions := [again, again, again, again] }
    let ops : List (Operation Unit) :=
      [.call (.load p), .call (.setRegisters { Registers.initial ⟨3, 1, 0⟩ with pc := 1 }),
        .step, .call (.load tooLong)]
    ∃ m : Machine Unit, create ⟨3, 1, 0⟩ = .ok m ∧
      let n := m.after ops
      n.running = true ∧ n.current? = p.instructions.head? ∧
        n.labelSlot? "start" = some 1 ∧ n.searchLabel? "start" = some 1 ∧
        Machine.step.run n = .ok () (n.jump (.wrap 1)) ∧
        ∃ next, fetch.run (n.jump (.wrap 1)) = .ok next (n.jump (.wrap 1)).advance ∧
          next.Carries "start" := by
  intro _ again p tooLong ops
  refine ⟨_, rfl, ?_⟩
  intro n
  obtain ⟨hagree, hfirst, _, _, hjump⟩ := label_index_agrees_with_search
    (c := ⟨3, 1, 0⟩) rfl ops "start"
  have hslot : n.labelSlot? "start" = some 1 := by
    apply (hfirst 1).mpr
    refine ⟨⟨again, rfl, _, rfl, rfl⟩, ?_⟩
    intro earlier i hlt hi
    obtain rfl : earlier = 0 := by omega
    cases hi
    rintro ⟨_, hnone, _⟩
    cases hnone
  have harrives := hjump (by decide) 1 _ _ hslot rfl rfl rfl rfl rfl
  exact ⟨rfl, rfl, hslot, hagree.symm.trans hslot, harrives⟩

end CellMachine.Machine
