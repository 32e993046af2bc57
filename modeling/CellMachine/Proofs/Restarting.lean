import CellMachine.Proofs.HeapFrame

/-!
A start depends on the configuration and the loaded program alone. Seeds are written in
their order, so of several for one cell the last one stays. Registers, memory, text and
running state after a restart are therefore those right after the load, whatever was
done to the machine since; and a load leaves nothing of what was there before it.
-/

namespace CellMachine

variable {ι : Type}

/-- What the last of the seeds for an address puts there. -/
def Seed.lastFor? (seeds : List Seed) (a : Word) : Option Value :=
  (seeds.filter fun s => decide (s.address = a)).getLast?.map Seed.value

theorem Seed.lastFor?_cons (s : Seed) (rest : List Seed) (a : Word) :
    lastFor? (s :: rest) a =
      (lastFor? rest a).or (if s.address = a then some s.value else none) := by
  unfold lastFor?
  by_cases hsame : s.address = a
  · simp only [hsame, decide_true, List.filter_cons_of_pos, List.getLast?_cons, if_true]
    cases (rest.filter fun s => decide (s.address = a)).getLast? <;> simp
  · simp [hsame]

namespace Memory

theorem cell?_put {m : Memory} {b : Word} (hb : ¬ b.Outside m.size) (v : Value) (a : Word) :
    (m.put b v).cell? a = if b = a then some v else m.cell? a := by
  rw [cell?_eq_getElem?, cell?_eq_getElem?, getElem?_put hb]
  unfold Word.Outside at hb
  by_cases hsame : b = a
  · subst hsame
    rw [if_pos rfl, if_pos (by omega), if_pos (by omega)]
  · have hne : b.toInt ≠ a.toInt := fun heq => hsame (Word.eq_of_toInt heq)
    rw [if_neg hsame]
    by_cases hlow : 0 ≤ a.toInt
    · rw [if_pos hlow, if_pos hlow, if_neg (by omega)]
    · rw [if_neg hlow, if_neg hlow]

theorem run_write {m : Memory} {a : Word} (ha : ¬ a.Outside m.size) (v : Value) :
    (write a v).run m = .ok () (m.put a v) := by
  obtain ⟨houtside, _⟩ | ⟨_, i, hlocate, hput⟩ := m.locate_cases a
  · exact absurd houtside ha
  · simp only [write, EStateM.run, hlocate, hput]

theorem run_sow_cons {s : Seed} {m : Memory} (hs : ¬ s.Outside m.size) (rest : List Seed) :
    (sow (s :: rest)).run m = (sow rest).run (m.put s.address s.value) :=
  Attempt.run_bind_of_ok (run_write hs s.value) fun _ => sow rest

/-- Seeds that all have their cell are all written, and of those for one cell the last
one stays. -/
theorem run_sow {seeds : List Seed} {m : Memory} (h : ∀ s ∈ seeds, ¬ s.Outside m.size) :
    ∃ n, (sow seeds).run m = .ok () n ∧ n.size = m.size ∧
      ∀ a, n.cell? a = (Seed.lastFor? seeds a).or (m.cell? a) := by
  induction seeds generalizing m with
  | nil => exact ⟨m, rfl, rfl, fun a => rfl⟩
  | cons s rest ih =>
      have hs : ¬ s.Outside m.size := h s (by simp)
      have hrest : ∀ t ∈ rest, ¬ t.Outside (m.put s.address s.value).size := by
        intro t member
        rw [size_put]
        exact h t (by simp [member])
      obtain ⟨n, hrun, hsize, hcells⟩ := ih hrest
      refine ⟨n, (run_sow_cons hs rest).trans hrun, hsize.trans (size_put ..), ?_⟩
      intro a
      rw [hcells, cell?_put hs, Seed.lastFor?_cons, Option.or_assoc]
      by_cases hsame : s.address = a <;> simp [hsame]

theorem cell?_zeros {size : Nat} {a : Word} (ha : ¬ a.Outside size) :
    (zeros size).cell? a = some .zero := by
  unfold Word.Outside at ha
  rw [cell?_eq_getElem?, if_pos (by omega), zeros, Array.getElem?_replicate, if_pos (by omega)]

end Memory

namespace Machine

variable {c : Config} {m n : Machine ι}

/-- The machine stands at the start of a program with these seeds: all that execution
changes has its first value. -/
structure AtStart (c : Config) (seeds : List Seed) (m : Machine ι) : Prop where
  pc : m.registers.pc.toInt = 0
  fp : m.registers.fp.toInt = 0
  sp : m.registers.sp.toInt = -1
  ep : m.registers.ep.toInt = c.maxStack
  hp : m.registers.hp.toInt = c.memorySize
  output : m.output.text = ""
  running : m.running = true
  size : m.memory.size = c.memorySize
  cell : ∀ a : Word, ¬ a.Outside c.memorySize →
    m.memory.cell? a = some ((Seed.lastFor? seeds a).getD .zero)

theorem atStart_restart {seeds : List Seed} (hc : c.flaw? = none) (hconfig : m.config = c)
    (hmemory : m.memory.size = c.memorySize) (hoverlay : m.overlay = seeds)
    (hinside : ∀ s ∈ seeds, ¬ s.Outside c.memorySize) : m.restart.AtStart c seeds := by
  subst hconfig hoverlay
  have hclear : m.memory.clear = .zeros m.config.memorySize := by rw [Memory.clear, hmemory]
  obtain ⟨sown, hsown, hsize, hcells⟩ :=
    Memory.run_sow (m := .zeros m.config.memorySize) (by rwa [Memory.size_zeros])
  have hrestarted : m.restart.memory = sown := by
    rw [restart, hclear]
    exact Attempt.state_of_ok hsown
  exact
    { pc := Word.toInt_zero
      fp := Word.toInt_zero
      sp := Word.toInt_neg_one
      ep := Registers.toInt_ep_initial hc
      hp := Registers.toInt_hp_initial hc
      output := rfl
      running := rfl
      size := by rw [hrestarted, hsize, Memory.size_zeros]
      cell := by
        intro a ha
        rw [hrestarted, hcells, Memory.cell?_zeros ha]
        cases Seed.lastFor? m.overlay a <;> rfl }

/-- Two machines have the same registers, memory, text and state of running. -/
structure SameState (m n : Machine ι) : Prop where
  registers : n.registers = m.registers
  memory : n.memory = m.memory
  output : n.output = m.output
  running : n.running = m.running

/-- Of the machine before it a restart needs the configuration, the seeds and the number
of cells. -/
theorem sameState_restart (hconfig : n.config = m.config) (hoverlay : n.overlay = m.overlay)
    (hsize : n.memory.size = m.memory.size) : m.restart.SameState n.restart where
  registers := congrArg Registers.initial hconfig
  memory := by simp only [restart, Memory.clear, hoverlay, hsize]
  output := rfl
  running := rfl

theorem restart_restart (m : Machine ι) : m.restart.restart = m.restart := by
  have hagain : m.restart.restart =
      { m.restart with
        memory := (Memory.sow m.overlay).state m.restart.memory.clear } := rfl
  rw [hagain, Memory.clear, size_restart]
  rfl

/-- A load needs even less: it brings its own seeds. -/
theorem load_congr (hconfig : n.config = m.config) (hsize : n.memory.size = m.memory.size)
    (p : Program ι) : n.load p = m.load p := by
  simp only [load, restart, Memory.clear, hconfig, hsize]

/-- What a load accepts has a cell for each of its seeds. -/
theorem seeds_inside_of_load {p : Program ι} (h : m.load p = .ok n) :
    ∀ s ∈ p.overlay, ¬ s.Outside m.config.memorySize := by
  unfold load at h
  split at h
  next => cases h
  next =>
    split at h
    next => cases h
    next hnone =>
      intro s member
      simpa using List.find?_eq_none.mp hnone s member

end Machine

/-- The call brings no other program into the machine: it is no load, or one that is
refused. -/
def Call.LoadsNothing (m : Machine ι) : Call ι → Prop
  | .load p => ∃ e, m.load p = .error e
  | _ => True

namespace Machine

theorem overlay_call {m : Machine ι} {k : Call ι} (hk : k.LoadsNothing m) :
    (k.apply m).overlay = m.overlay := by
  obtain hkeeps | ⟨p, rfl⟩ | ⟨slot, rfl⟩ := k.keepsProgram_or
  · exact (sameProgram_call hkeeps m).overlay
  · obtain ⟨e, hrefused⟩ := hk
    rw [Call.apply, hrefused]
  · obtain ⟨_, htoggle⟩ | ⟨_, _, hsame⟩ := Call.apply_toggleBreakpoint_cases slot m
    · obtain ⟨i, _, hmarked⟩ := toggleBreakpoint_ok htoggle
      rw [hmarked]
    · rw [hsame]

/-- No call of the sequence brings another program into the machine that it meets. -/
def CallsLoadNothing (m : Machine ι) : List (Call ι) → Prop
  | [] => True
  | k :: rest => k.LoadsNothing m ∧ (k.apply m).CallsLoadNothing rest

theorem overlay_afterCalls {m : Machine ι} {ks : List (Call ι)} (h : m.CallsLoadNothing ks) :
    (m.afterCalls ks).overlay = m.overlay := by
  induction ks generalizing m with
  | nil => rfl
  | cons k rest ih =>
      obtain ⟨hk, hrest⟩ := h
      exact (ih hrest).trans (overlay_call hk)

variable [ClientHost ι]

/-- No operation brings another program into the machine that it meets. That goes for the
calls of the host's instructions as well. -/
def LoadsNothing (m : Machine ι) : List (Operation ι) → Prop
  | [] => True
  | .call k :: rest => k.LoadsNothing m ∧ (k.apply m).LoadsNothing rest
  | .step :: rest =>
      m.advance.CallsLoadNothing m.hostCalls ∧ (Machine.step.state m).LoadsNothing rest

theorem overlay_step {m : Machine ι} (h : m.advance.CallsLoadNothing m.hostCalls) :
    (Machine.step.state m).overlay = m.overlay := by
  obtain ⟨hsame, _⟩ | hcalls := m.state_step_cases
  · exact hsame.overlay
  · rw [hcalls]
    exact overlay_afterCalls h

theorem overlay_after {m : Machine ι} {ops : List (Operation ι)} (h : m.LoadsNothing ops) :
    (m.after ops).overlay = m.overlay := by
  induction ops generalizing m with
  | nil => rfl
  | cons op rest ih =>
      cases op with
      | call k => exact (ih h.2).trans (overlay_call h.1)
      | step => exact (ih h.2).trans (overlay_step h.1)

theorem after_append (m : Machine ι) (ops later : List (Operation ι)) :
    m.after (ops ++ later) = (m.after ops).after later :=
  List.foldl_append

/-- Restart erases history. Let a machine accept a program after any history. It then
stands at the start of that program; and after every further history in which no other
program is accepted, one with faults and with direct writes of registers and cells
included, a restart yields exactly the registers, the memory, the text and the state of
running that it had after the load. A second restart changes nothing; and had the
machine come to the load by any other history, the load would have been accepted too
and would have left the same machine. -/
theorem restart_erases_history {c : Config} {m : Machine ι} (hm : create c = .ok m)
    (earlier : List (Operation ι)) (p : Program ι) {loaded : Machine ι}
    (hload : (m.after earlier).load p = .ok loaded) :
    loaded.AtStart c p.overlay ∧
      (∀ later : List (Operation ι), loaded.LoadsNothing later →
        loaded.SameState (loaded.after later).restart) ∧
      (∀ n : Machine ι, n.restart.restart = n.restart) ∧
      ∀ other : List (Operation ι), (m.after other).load p = .ok loaded := by
  have hc : c.flaw? = none := (create_ok_iff.mp hm).1
  obtain ⟨hconfig, hmemory, _⟩ := sizes_after hc hm earlier
  have hinside := seeds_inside_of_load hload
  rw [hconfig] at hinside
  refine ⟨?_, ?_, restart_restart, ?_⟩
  · obtain ⟨_, rfl⟩ := load_ok hload
    apply atStart_restart hc
    · exact hconfig
    · exact hmemory
    · rfl
    · exact hinside
  · intro later hnothing
    have hlater : loaded.after later = m.after (earlier ++ .call (.load p) :: later) := by
      rw [after_append, after_cons, Operation.apply, Call.apply, hload]
    have hsizes := sizes_after hc hm (earlier ++ .call (.load p) :: later)
    have hoverlay := overlay_after hnothing
    rw [← hlater] at hsizes
    obtain ⟨_, rfl⟩ := load_ok hload
    apply sameState_restart
    · exact hsizes.1.trans hconfig.symm
    · exact hoverlay
    · exact hsizes.2.1.trans hmemory.symm
  · intro other
    obtain ⟨hconfig', hmemory', _⟩ := sizes_after hc hm other
    rw [← hload]
    exact load_congr (hconfig'.trans hconfig.symm) (hmemory'.trans hmemory.symm) p

/-- Two of the three seeds are for one cell. -/
def seededTwice : Program Empty where
  instructions := [Standard.instruction .print]
  overlay := [⟨1, .int 5⟩, ⟨2, .float ⟨0x7ff8000000000000⟩⟩, ⟨1, .label "last"⟩]

/-- Registers and cells are overwritten, a step faults, something is printed, the machine
halts, and a program that is too long is refused. -/
def disorder : List (Operation Empty) :=
  [.call (.setRegisters ⟨9, 9, 9, -9, -9⟩), .step, .call (.writeCell 1 .zero),
    .call (.print .zero), .call .halt,
    .call (.load { instructions := [Standard.instruction .halt, Standard.instruction .halt] })]

theorem last_seed_returns_after_disorder :
    ∃ m loaded : Machine Empty, create ⟨1, 3, 1⟩ = .ok m ∧
      (m.after disorder).load seededTwice = .ok loaded ∧ loaded.LoadsNothing disorder ∧
      (loaded.after disorder).memory.cell? 1 = some .zero ∧
      (loaded.after disorder).running = false ∧
      (loaded.after disorder).restart.memory.cell? 1 = some (.label "last") ∧
      (loaded.after disorder).restart.registers = loaded.registers := by
  obtain ⟨m, hcreate, _⟩ := create_laidOut (ι := Empty) (c := ⟨1, 3, 1⟩) (by decide)
  obtain ⟨_, rfl⟩ := create_ok_iff.mp hcreate
  obtain ⟨loaded, hload⟩ : ∃ loaded,
      ((blank ⟨1, 3, 1⟩ : Machine Empty).after disorder).load seededTwice = .ok loaded :=
    ⟨_, rfl⟩
  obtain ⟨hstart, hsame, _⟩ := restart_erases_history hcreate disorder seededTwice hload
  have hnothing : loaded.LoadsNothing disorder := by
    cases hload
    exact ⟨trivial, trivial, trivial, trivial, trivial, ⟨_, rfl⟩, trivial⟩
  obtain ⟨hregisters, hmemory, _⟩ := hsame disorder hnothing
  have hlast := hstart.cell 1 (by decide)
  refine ⟨_, loaded, hcreate, hload, hnothing, ?_, ?_, ?_, hregisters⟩
  · cases hload
    decide +kernel
  · cases hload
    decide +kernel
  · rw [hmemory, hlast]
    decide +kernel

end Machine

end CellMachine
