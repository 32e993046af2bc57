import CellMachine.Proofs.Restarting

/-!
What a load accepts, and what it leaves. A program is refused for its length, or for the
first of its seeds that has no cell, and for nothing else. A load that is refused has not
begun to change the machine; one that is accepted replaces store, labels and seeds together.
-/

namespace CellMachine

variable {ι : Type}

/-- `s` is the first of the seeds that has no cell, and `before` are the seeds in front
of it. -/
structure Seed.FirstOutside (size : Nat) (seeds before : List Seed) (s : Seed) : Prop where
  split : ∃ rest, seeds = before ++ s :: rest
  inside : ∀ t ∈ before, ¬ t.Outside size
  outside : s.Outside size

namespace Program

variable {p : Program ι} {size : Nat}

theorem misplaced?_eq_some_iff {s : Seed} :
    p.misplaced? size = some s ↔ ∃ before, Seed.FirstOutside size p.overlay before s := by
  simp only [misplaced?, List.find?_eq_some_iff_append, decide_eq_true_eq, Bool.not_eq_eq_eq_not,
    Bool.not_true, decide_eq_false_iff_not]
  constructor
  · rintro ⟨houtside, before, rest, hsplit, hinside⟩
    exact ⟨before, ⟨rest, hsplit⟩, hinside, houtside⟩
  · rintro ⟨before, ⟨rest, hsplit⟩, hinside, houtside⟩
    exact ⟨houtside, before, rest, hsplit, hinside⟩

theorem misplaced?_eq_none_iff :
    p.misplaced? size = none ↔ ∀ s ∈ p.overlay, ¬ s.Outside size := by
  simp only [misplaced?, List.find?_eq_none, decide_eq_true_eq]

end Program

namespace Machine

variable {m n : Machine ι} {p : Program ι}

/-- The machine with a program in place of the one that it has, not yet at its start. -/
def holding (m : Machine ι) (p : Program ι) : Machine ι :=
  { m with
    store := p.padded m.config.storeSize
    labels := .ofStore (p.padded m.config.storeSize)
    overlay := p.overlay }

theorem load_eq_ok_iff :
    m.load p = .ok n ↔
      p.length ≤ m.config.storeSize ∧ (∀ s ∈ p.overlay, ¬ s.Outside m.config.memorySize) ∧
        n = (m.holding p).restart := by
  constructor
  · intro h
    obtain ⟨hfits, hloaded⟩ := load_ok h
    exact ⟨hfits, seeds_inside_of_load h, hloaded⟩
  · rintro ⟨hfits, hinside, rfl⟩
    rw [load, if_neg (Nat.not_lt.mpr hfits), Program.misplaced?_eq_none_iff.mpr hinside]
    rfl

/-- The length is looked at first. -/
theorem load_eq_error_iff {e : LoadError} :
    m.load p = .error e ↔
      m.config.storeSize < p.length ∧ e = .programTooLarge p.length m.config.storeSize ∨
        p.length ≤ m.config.storeSize ∧ ∃ before s,
          Seed.FirstOutside m.config.memorySize p.overlay before s ∧
            e = .overlayAddressOutOfRange s.address m.config.memorySize := by
  unfold load
  by_cases hlong : m.config.storeSize < p.length
  · have hnot : ¬ p.length ≤ m.config.storeSize := by omega
    simp [hlong, hnot, eq_comm]
  · have hfits : p.length ≤ m.config.storeSize := by omega
    rw [if_neg hlong]
    cases hfirst : p.misplaced? m.config.memorySize with
    | some s =>
        obtain ⟨before, hbefore⟩ := Program.misplaced?_eq_some_iff.mp hfirst
        constructor
        · intro h
          cases h
          exact Or.inr ⟨hfits, before, s, hbefore, rfl⟩
        · rintro (⟨hover, _⟩ | ⟨_, before', s', hbefore', rfl⟩)
          · exact absurd hover hlong
          · cases hfirst.symm.trans (Program.misplaced?_eq_some_iff.mpr ⟨before', hbefore'⟩)
            rfl
    | none =>
        constructor
        · intro h
          cases h
        · rintro (⟨hover, _⟩ | ⟨_, before, s, hbefore, _⟩)
          · exact absurd hover hlong
          · cases hfirst.symm.trans (Program.misplaced?_eq_some_iff.mpr ⟨before, hbefore⟩)

/-- Loads a program into the machine itself, one part after the other. -/
def loadInPlace (p : Program ι) : Attempt LoadError (Machine ι) Unit := do
  let m ← get
  if m.config.storeSize < p.length then
    throw (.programTooLarge p.length m.config.storeSize)
  match p.misplaced? m.config.memorySize with
  | some s => throw (.overlayAddressOutOfRange s.address m.config.memorySize)
  | none =>
      let store := p.padded m.config.storeSize
      modify fun m => { m with labels := .ofStore store }
      modify fun m => { m with store }
      modify fun m => { m with overlay := p.overlay }
      modify restart

/-- In place as well a load does all of its work or none of it. -/
theorem run_loadInPlace (m : Machine ι) (p : Program ι) :
    (loadInPlace p).run m =
      match m.load p with
      | .ok n => .ok () n
      | .error e => .error e m := by
  unfold loadInPlace load
  rw [EStateM.run_bind, EStateM.run_get]
  dsimp only
  by_cases hlong : m.config.storeSize < p.length
  · rw [if_pos hlong, if_pos hlong]
    rfl
  · rw [if_neg hlong, if_neg hlong]
    cases p.misplaced? m.config.memorySize with
    | some s => rfl
    | none => rfl

/-- A load is atomic, and what it accepts is known exactly, for every machine and every
program. It is refused when the program has more instructions than the store has slots, or
some seed has no cell; the length is reported before any seed, and of the seeds the first
one. A refused load leaves the machine as it was, in all its parts, also where it works on
the machine itself. After an accepted load the store has the instructions of the program and
then padding up to its last slot, the labels are those of that store, the seeds those of
the program, and the machine stands at the start. -/
theorem load_is_all_or_nothing (m : Machine ι) (p : Program ι) :
    let capacity := m.config.storeSize
    let size := m.config.memorySize
    ((∃ e, m.load p = .error e) ↔
        capacity < p.length ∨ ∃ s ∈ p.overlay, s.Outside size) ∧
      (∀ e, m.load p = .error e ↔
        capacity < p.length ∧ e = .programTooLarge p.length capacity ∨
          p.length ≤ capacity ∧ ∃ before s, Seed.FirstOutside size p.overlay before s ∧
            e = .overlayAddressOutOfRange s.address size) ∧
      (∀ e, m.load p = .error e →
        (Call.load p).apply m = m ∧ (loadInPlace p).run m = .error e m) ∧
      ∀ n, m.load p = .ok n →
        (Call.load p).apply m = n ∧ (loadInPlace p).run m = .ok () n ∧
          n.store.toList =
            p.instructions ++ List.replicate (capacity - p.length) Instruction.padding ∧
          n.store.size = capacity ∧ n.IsIndexed ∧ n.overlay = p.overlay ∧
          n.config = m.config ∧ n.restart = n := by
  intro capacity size
  refine ⟨?_, fun e => load_eq_error_iff, ?_, ?_⟩
  · -- A load is accepted or refused, and both conditions are known.
    have haccepted : (∃ n, m.load p = .ok n) ↔
        p.length ≤ capacity ∧ ∀ s ∈ p.overlay, ¬ s.Outside size := by
      simp only [load_eq_ok_iff, exists_and_left, exists_eq, and_true]
      rfl
    have hrefused : (∃ e, m.load p = .error e) ↔ ¬ ∃ n, m.load p = .ok n := by
      cases m.load p <;> simp
    rw [hrefused, haccepted]
    grind
  · intro e hrefused
    rw [Call.apply, run_loadInPlace, hrefused]
    exact ⟨rfl, rfl⟩
  · intro n hload
    rw [Call.apply, run_loadInPlace, hload]
    obtain ⟨hfits, _, rfl⟩ := load_eq_ok_iff.mp hload
    refine ⟨rfl, rfl, rfl, size_padded hfits, ?_, rfl, rfl, restart_restart _⟩
    intro l
    exact LabelIndex.getElem?_ofStore _ l

/-- Longer than two slots, and with a seed outside of two cells. -/
def tooLongAndMisplaced : Program Empty where
  instructions := List.replicate 3 (Standard.instruction .print)
  overlay := [⟨-1, .zero⟩]

/-- Two seeds have no cell, and the first of the three has one. -/
def twoMisplaced : Program Empty where
  instructions := [Standard.instruction .halt]
  overlay := [⟨1, .int 5⟩, ⟨2, .zero⟩, ⟨-1, .zero⟩]

theorem first_objection_is_reported :
    (blank ⟨2, 2, 1⟩).load tooLongAndMisplaced = .error (.programTooLarge 3 2) ∧
      (blank ⟨2, 2, 1⟩).load twoMisplaced = .error (.overlayAddressOutOfRange 2 2) ∧
      (loadInPlace twoMisplaced).run (blank ⟨2, 2, 1⟩) =
        .error (.overlayAddressOutOfRange 2 2) (blank ⟨2, 2, 1⟩) := by
  obtain ⟨_, hlong, _⟩ := load_is_all_or_nothing (blank ⟨2, 2, 1⟩) tooLongAndMisplaced
  obtain ⟨_, hmisplaced, hkept, _⟩ := load_is_all_or_nothing (blank ⟨2, 2, 1⟩) twoMisplaced
  have hsecond : (blank ⟨2, 2, 1⟩).load twoMisplaced =
      .error (.overlayAddressOutOfRange 2 2) := by
    refine (hmisplaced _).mpr (Or.inr ⟨by decide, [⟨1, .int 5⟩], ⟨2, .zero⟩, ?_, rfl⟩)
    exact ⟨⟨[⟨-1, .zero⟩], rfl⟩, by decide, by decide⟩
  exact ⟨(hlong _).mpr (Or.inl ⟨by decide, rfl⟩), hsecond, (hkept _ hsecond).2⟩

end Machine

end CellMachine
