import CellMachine.Proofs.Acceptance

/-!
Seeds are checked twice, and the second check never fails. A load looks for a seed outside
the configured size; when the seeds are written, memory refuses an address that it has no
cell for. Both find the same seed. Since every program that a machine holds has passed the
first check, and the number of cells never changes, every restart writes all its seeds.
-/

namespace CellMachine

variable {ι : Type}

namespace Memory

theorem run_write_of_outside {m : Memory} {a : Word} (ha : a.Outside m.size) (v : Value) :
    (write a v).run m = .error (.addressOutOfRange a m.size) m := by
  obtain ⟨_, hlocate⟩ | ⟨hinside, _⟩ := m.locate_cases a
  · simp only [write, EStateM.run, hlocate]
  · exact absurd ha hinside

theorem run_sow_append {before : List Seed} {m n : Memory}
    (h : (sow before).run m = .ok () n) (rest : List Seed) :
    (sow (before ++ rest)).run m = (sow rest).run n := by
  have hsplit : sow (before ++ rest) = sow before >>= fun _ => sow rest := by
    simp only [sow, List.forM_eq_forM, List.forM_append]
  rw [hsplit]
  exact Attempt.run_bind_of_ok h _

/-- Writing stops at the first seed without a cell, and keeps what the seeds before it have
put in place. -/
theorem run_sow_of_firstOutside {m : Memory} {seeds before : List Seed} {s : Seed}
    (h : Seed.FirstOutside m.size seeds before s) :
    ∃ n, (sow before).run m = .ok () n ∧
      (sow seeds).run m = .error (.addressOutOfRange s.address m.size) n ∧
      n.size = m.size ∧ ∀ a, n.cell? a = (Seed.lastFor? before a).or (m.cell? a) := by
  obtain ⟨⟨rest, rfl⟩, hinside, houtside⟩ := h
  obtain ⟨n, hbefore, hsize, hcells⟩ := run_sow hinside
  refine ⟨n, hbefore, ?_, hsize, hcells⟩
  rw [← hsize] at houtside ⊢
  rw [run_sow_append hbefore]
  exact Attempt.run_bind_of_error (run_write_of_outside houtside s.value) fun _ => sow rest

/-- The two checks find the same seed. -/
theorem result_sow (m : Memory) (p : Program ι) :
    (sow p.overlay).result m =
      match p.misplaced? m.size with
      | some s => .error (.addressOutOfRange s.address m.size)
      | none => .ok () := by
  cases hfirst : p.misplaced? m.size with
  | some s =>
      obtain ⟨before, hbefore⟩ := Program.misplaced?_eq_some_iff.mp hfirst
      obtain ⟨n, _, hrun, _⟩ := run_sow_of_firstOutside hbefore
      exact Attempt.result_of_error hrun
  | none =>
      obtain ⟨n, hrun, _⟩ := run_sow (Program.misplaced?_eq_none_iff.mp hfirst)
      exact Attempt.result_of_ok hrun

end Memory

/-- The machine that a call restarts, if it does. A load that is accepted restarts the
machine with the new program already in it. -/
def Call.restarted? (m : Machine ι) : Call ι → Option (Machine ι)
  | .restart => some m
  | .load p =>
      match m.load p with
      | .ok _ => some (m.holding p)
      | .error _ => none
  | _ => none

theorem Call.apply_of_restarted? {m r : Machine ι} {k : Call ι}
    (h : k.restarted? m = some r) : k.apply m = r.restart := by
  cases k with
  | restart =>
      cases h
      rfl
  | load p =>
      obtain hload | ⟨_, hrefused, _⟩ := Call.apply_load_cases p m
      · rw [restarted?, hload] at h
        cases h
        exact (Machine.load_eq_ok_iff.mp hload).2.2
      · rw [restarted?, hrefused] at h
        cases h
  | _ => cases h

namespace Machine

/-- A restart of the machine finds a cell for every seed: the memory that it leaves is that
of a writing which succeeds. -/
def SowsAll (m : Machine ι) : Prop :=
  (Memory.sow m.overlay).run m.memory.clear = .ok () m.restart.memory

/-- The machine has as many cells as it was configured for, and its seeds are among them. -/
structure Seeded (size : Nat) (m : Machine ι) : Prop where
  config : m.config.memorySize = size
  memory : m.memory.size = size
  inside : ∀ s ∈ m.overlay, ¬ s.Outside size

variable {size : Nat} {m : Machine ι}

theorem Seeded.sowsAll (h : m.Seeded size) : m.SowsAll := by
  have hinside : ∀ s ∈ m.overlay, ¬ s.Outside m.memory.clear.size := by
    rw [Memory.size_clear, h.memory]
    exact h.inside
  obtain ⟨n, hrun, _⟩ := Memory.run_sow hinside
  have hmemory : m.restart.memory = n := Attempt.state_of_ok hrun
  rw [SowsAll, hrun, hmemory]

theorem seeded_blank (c : Config) : (blank c : Machine ι).Seeded c.memorySize where
  config := rfl
  memory := (size_restart _).trans (Memory.size_zeros _)
  inside := by simp [blank, restart]

theorem Seeded.holding (h : m.Seeded size) {p : Program ι} {n : Machine ι}
    (hload : m.load p = .ok n) : (m.holding p).Seeded size where
  config := h.config
  memory := h.memory
  inside := by
    have hinside := seeds_inside_of_load hload
    rw [h.config] at hinside
    exact hinside

theorem Seeded.restart (h : m.Seeded size) : m.restart.Seeded size where
  config := h.config
  memory := (size_restart m).trans h.memory
  inside := h.inside

theorem Seeded.restarted (h : m.Seeded size) {k : Call ι} {r : Machine ι}
    (hr : k.restarted? m = some r) : r.Seeded size := by
  cases k with
  | restart =>
      cases hr
      exact h
  | load p =>
      obtain hload | ⟨_, hrefused, _⟩ := Call.apply_load_cases p m
      · rw [Call.restarted?, hload] at hr
        cases hr
        exact h.holding hload
      · rw [Call.restarted?, hrefused] at hr
        cases hr
  | _ => cases hr

/-- Calls of any kind leave the seeds in place, direct writes of registers included. -/
theorem Seeded.call (h : m.Seeded size) (k : Call ι) : (k.apply m).Seeded size := by
  have hmemory := (memory_size_call k m).trans h.memory
  obtain hkeeps | ⟨p, rfl⟩ | ⟨slot, rfl⟩ := k.keepsProgram_or
  · have hsame := sameProgram_call hkeeps m
    refine ⟨?_, hmemory, ?_⟩
    · rw [hsame.config]
      exact h.config
    · rw [hsame.overlay]
      exact h.inside
  · obtain hload | ⟨_, _, hsame⟩ := Call.apply_load_cases p m
    · have hrestarted : (Call.load p).restarted? m = some (m.holding p) := by
        rw [Call.restarted?, hload]
      rw [Call.apply_of_restarted? hrestarted]
      exact (h.restarted hrestarted).restart
    · rwa [hsame]
  · obtain ⟨_, htoggle⟩ | ⟨_, _, hsame⟩ := Call.apply_toggleBreakpoint_cases slot m
    · obtain ⟨_, _, hmarked⟩ := toggleBreakpoint_ok htoggle
      rw [hmarked]
      exact ⟨h.config, h.memory, h.inside⟩
    · rwa [hsame]

/-- The machines that a sequence of calls restarts, each as it is then. -/
def restartsByCalls (m : Machine ι) : List (Call ι) → List (Machine ι)
  | [] => []
  | k :: rest => (k.restarted? m).toList ++ (k.apply m).restartsByCalls rest

theorem Seeded.restartsByCalls (h : m.Seeded size) (ks : List (Call ι)) :
    ∀ r ∈ m.restartsByCalls ks, r.Seeded size := by
  induction ks generalizing m with
  | nil => simp [Machine.restartsByCalls]
  | cons k rest ih =>
      intro r member
      rcases List.mem_append.mp member with hhere | hlater
      · exact h.restarted (Option.mem_toList.mp hhere)
      · exact ih (h.call k) r hlater

variable [ClientHost ι]

/-- The machines that a history restarts, those restarted by instructions of the host
included. -/
def restarts (m : Machine ι) : List (Operation ι) → List (Machine ι)
  | [] => []
  | .call k :: rest => (k.restarted? m).toList ++ (k.apply m).restarts rest
  | .step :: rest =>
      m.advance.restartsByCalls m.hostCalls ++ (Machine.step.state m).restarts rest

theorem seeded_upheld (size : Nat) :
    Upheld (fun _ => True) (fun m : Machine ι => m.Seeded size) where
  elementary _ _ := trivial
  host _ _ _ _ _ := trivial
  call k _ _ hm := hm.call k
  jump _ _ hm := ⟨hm.config, hm.memory, hm.inside⟩

theorem Seeded.restarts (h : m.Seeded size) (ops : List (Operation ι)) :
    ∀ r ∈ m.restarts ops, r.Seeded size := by
  induction ops generalizing m with
  | nil => simp [Machine.restarts]
  | cons op rest ih =>
      intro r member
      cases op with
      | call k =>
          rcases List.mem_append.mp member with hhere | hlater
          · exact h.restarted (Option.mem_toList.mp hhere)
          · exact ih (h.call k) r hlater
      | step =>
          rcases List.mem_append.mp member with hhere | hlater
          · have hadvance : m.advance.Seeded size := (seeded_upheld size).jump m _ h
            exact hadvance.restartsByCalls m.hostCalls r hhere
          · exact ih ((seeded_upheld size).step h) r hlater

/-- The two checks of seeds agree, and the second never fails in a restart.

Seeds are all written to a memory exactly when a load for a memory of that size has no
objection to them. Otherwise the fault names the seed that the load would have named, the
first one without a cell, and the memory holds what the seeds before it have put there and
is otherwise unchanged. So a machine of that memory size, to whose store the program is not
too long, accepts the program exactly when its seeds can be written, and reports the same
address when they cannot.

A machine may go through any history, with direct writes of registers and with instructions
of a host in it: every restart that was made on the way, those inside of loads included, has
written all seeds to the memory that it left, and a restart at the end would do so as well. -/
theorem restarts_write_every_seed :
    (∀ (memory : Memory) (p : Program ι),
      ((Memory.sow p.overlay).result memory = .ok () ↔ p.misplaced? memory.size = none) ∧
      (∀ s, p.misplaced? memory.size = some s →
        ∃ before written, Seed.FirstOutside memory.size p.overlay before s ∧
          (Memory.sow p.overlay).run memory =
            .error (.addressOutOfRange s.address memory.size) written ∧
          (Memory.sow before).run memory = .ok () written ∧ written.size = memory.size ∧
          ∀ a, written.cell? a = (Seed.lastFor? before a).or (memory.cell? a)) ∧
      ∀ m : Machine ι, m.config.memorySize = memory.size → p.length ≤ m.config.storeSize →
        ((∃ n, m.load p = .ok n) ↔ (Memory.sow p.overlay).result memory = .ok ()) ∧
        ∀ a, m.load p = .error (.overlayAddressOutOfRange a memory.size) ↔
          (Memory.sow p.overlay).result memory = .error (.addressOutOfRange a memory.size)) ∧
      ∀ (c : Config) (m : Machine ι), create c = .ok m → ∀ ops : List (Operation ι),
        (∀ r ∈ m.restarts ops, r.SowsAll) ∧ (m.after ops).SowsAll := by
  constructor
  · intro memory p
    have hagree := Memory.result_sow memory p
    refine ⟨?_, ?_, ?_⟩
    · rw [hagree]
      cases p.misplaced? memory.size <;> simp
    · intro s hfirst
      obtain ⟨before, hbefore⟩ := Program.misplaced?_eq_some_iff.mp hfirst
      obtain ⟨written, hwritten, hrun, hsize, hcells⟩ := Memory.run_sow_of_firstOutside hbefore
      exact ⟨before, written, hbefore, hrun, hwritten, hsize, hcells⟩
    · intro m hsize hfits
      rw [hagree, load, hsize, if_neg (Nat.not_lt.mpr hfits)]
      cases p.misplaced? memory.size <;> simp
  · intro c m hcreate ops
    obtain ⟨_, rfl⟩ := create_ok_iff.mp hcreate
    have hblank : (blank c : Machine ι).Seeded c.memorySize := seeded_blank c
    refine ⟨fun r member => (hblank.restarts ops r member).sowsAll, ?_⟩
    exact ((seeded_upheld c.memorySize).after ops (fun _ _ => trivial) _ hblank).sowsAll

/-- A program with seeds is accepted, one with a seed outside of memory is refused, and the
machine is restarted after its registers were overwritten. -/
def loadedAndRestarted : List (Operation Empty) :=
  [.call (.load seededTwice), .call (.load twoMisplaced), .step,
    .call (.setRegisters ⟨9, 9, 9, -9, -9⟩), .call .restart]

theorem both_restarts_write_their_seeds :
    (∃ written, (Memory.sow twoMisplaced.overlay).run (.zeros 2) =
        .error (.addressOutOfRange 2 2) written ∧ written.cell? 1 = some (.int 5)) ∧
      ((blank ⟨1, 3, 1⟩ : Machine Empty).restarts loadedAndRestarted).map Machine.overlay =
        [seededTwice.overlay, seededTwice.overlay] ∧
      (∀ r ∈ (blank ⟨1, 3, 1⟩ : Machine Empty).restarts loadedAndRestarted, r.SowsAll) ∧
      ((blank ⟨1, 3, 1⟩ : Machine Empty).after loadedAndRestarted).SowsAll := by
  obtain ⟨hchecks, hrestarts⟩ := restarts_write_every_seed (ι := Empty)
  obtain ⟨_, hstops, _⟩ := hchecks (.zeros 2) twoMisplaced
  obtain ⟨before, written, _, hrun, hwritten, _⟩ := hstops ⟨2, .zero⟩ (by decide +kernel)
  have hcreate : create ⟨1, 3, 1⟩ = .ok (blank ⟨1, 3, 1⟩ : Machine Empty) :=
    create_ok_iff.mpr ⟨by decide, rfl⟩
  obtain ⟨hmade, hlast⟩ := hrestarts ⟨1, 3, 1⟩ _ hcreate loadedAndRestarted
  refine ⟨⟨written, hrun, ?_⟩, by decide +kernel, hmade, hlast⟩
  cases hrun
  decide +kernel

end Machine

end CellMachine
