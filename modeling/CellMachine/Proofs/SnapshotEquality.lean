import CellMachine.Proofs.Lockstep
import CellMachine.Snapshot

/-!
What the comparison of snapshots decides. Cells with doubles are compared as numbers, and
numbers differ from contents in two places: a NaN is not even equal to itself, and the two
zeros are equal. Away from these the comparison is exact. A machine with a NaN in memory
differs from its own snapshot, and a program that seeds a NaN does so after every restart;
machines with zeros of opposite signs have equal snapshots and print different texts.
-/

namespace CellMachine

variable {ι : Type}

namespace Binary64

variable {x y : Binary64}

theorem isNaN_of_isZero (h : x.isZero = true) : x.isNaN = false := by
  simp only [isZero, Bool.and_eq_true, beq_iff_eq] at h
  simp [isNaN, h.2]

/-- There are two zeros. -/
theorem eq_of_isZero (h : x.isZero = true) : x = ⟨0⟩ ∨ x = ⟨0x8000000000000000⟩ := by
  obtain ⟨bits⟩ := x
  simp only [isZero, exponentField, fractionField, Bool.and_eq_true, beq_iff_eq] at h
  have hbits : bits.toNat = 0 ∨ bits.toNat = 0x8000000000000000 := by
    have hbound := bits.toNat_lt
    omega
  obtain hbits | hbits := hbits
  · exact Or.inl (congrArg mk (UInt64.toNat_inj.mp hbits))
  · exact Or.inr (congrArg mk (UInt64.toNat_inj.mp hbits))

theorem equals_iff :
    x.equals y = true ↔
      x = y ∧ x.isNaN = false ∨ x ≠ y ∧ x.isZero = true ∧ y.isZero = true := by
  by_cases hsame : x = y
  · subst hsame
    rw [equals_self]
    simp
  · -- Other bits: only the two zeros are left.
    have hbits : x.bits ≠ y.bits := by
      intro hbits
      exact hsame (congrArg mk hbits)
    constructor
    · intro h
      simp only [equals, Bool.and_eq_true, Bool.or_eq_true, beq_iff_eq] at h
      exact Or.inr ⟨hsame, h.2.resolve_left hbits⟩
    · rintro (⟨rfl, _⟩ | ⟨_, hx, hy⟩)
      · exact absurd rfl hsame
      · simp [equals, hx, hy, isNaN_of_isZero hx, isNaN_of_isZero hy]

theorem text_of_isNaN (h : x.isNaN = true) : (Value.float x).text = "NaN" := by
  have hfinite : x.isFinite = false := by
    rw [← Bool.not_eq_true]
    intro hfinite
    simp [isNaN, hfinite] at h
  simp [Value.text, text, h, hfinite]

theorem text_zero : (Value.float ⟨0⟩).text = "0.0" := by decide +kernel

theorem text_neg_zero : (Value.float ⟨0x8000000000000000⟩).text = "-0.0" := by decide +kernel

theorem text_of_opposite_zeros (hne : x ≠ y) (hx : x.isZero = true) (hy : y.isZero = true) :
    (Value.float x).text = "0.0" ∧ (Value.float y).text = "-0.0" ∨
      (Value.float x).text = "-0.0" ∧ (Value.float y).text = "0.0" := by
  obtain rfl | rfl := eq_of_isZero hx
  · obtain rfl | rfl := eq_of_isZero hy
    · exact absurd rfl hne
    · exact Or.inl ⟨text_zero, text_neg_zero⟩
  · obtain rfl | rfl := eq_of_isZero hy
    · exact Or.inr ⟨text_neg_zero, text_zero⟩
    · exact absurd rfl hne

end Binary64

namespace Value

/-- The same kind and the same payload, where all NaNs count as one. -/
def Same (v w : Value) : Prop := v = w ∨ v.isNaN = true ∧ w.isNaN = true

/-- One is the positive zero and the other the negative one. -/
def OppositeZeros : Value → Value → Prop
  | .float x, .float y => x ≠ y ∧ x.isZero = true ∧ y.isZero = true
  | _, _ => False

theorem OppositeZeros.floats {v w : Value} (h : v.OppositeZeros w) :
    ∃ x y, v = .float x ∧ w = .float y ∧ x ≠ y ∧ x.isZero = true ∧ y.isZero = true := by
  cases v with
  | float x =>
      cases w with
      | float y => exact ⟨x, y, rfl, rfl, h⟩
      | _ => exact h.elim
  | _ => exact h.elim

/-- The same content, or zeros of opposite signs, and no NaN. -/
def SameNumber (v w : Value) : Prop := v = w ∧ v.isNaN = false ∨ v.OppositeZeros w

theorem equals_iff {v w : Value} : v.equals w = true ↔ v.SameNumber w := by
  unfold SameNumber
  cases v <;> cases w <;> simp [equals, isNaN, OppositeZeros, Binary64.equals_iff]

theorem sameNumber_self_iff {v : Value} : v.SameNumber v ↔ v.isNaN = false := by
  rw [← equals_iff, equals_self]
  simp

theorem isNaN_eq_true_iff {v : Value} :
    v.isNaN = true ↔ ∃ x : Binary64, v = .float x ∧ x.isNaN = true := by
  cases v <;> simp [isNaN]

/-- The two comparisons differ on NaNs and on opposite zeros only. -/
theorem sameNumber_iff_same {v w : Value} (hnan : ¬ (v.isNaN = true ∧ w.isNaN = true))
    (hzeros : ¬ v.OppositeZeros w) : v.SameNumber w ↔ v.Same w := by
  unfold SameNumber Same
  constructor
  · rintro (⟨hsame, _⟩ | hopposite)
    · exact Or.inl hsame
    · exact absurd hopposite hzeros
  · rintro (rfl | hboth)
    · exact Or.inl ⟨rfl, by simpa using hnan⟩
    · exact absurd hboth hnan

end Value

/-- Texts that differ at most in the signs of zeros that were printed to them. -/
inductive SameButZeroSigns : String → String → Prop where
  | empty : SameButZeroSigns "" ""
  | append {s t : String} (more : String) :
      SameButZeroSigns s t → SameButZeroSigns (s ++ more) (t ++ more)
  | negated {s t : String} : SameButZeroSigns s t → SameButZeroSigns (s ++ "0.0") (t ++ "-0.0")
  | unnegated {s t : String} :
      SameButZeroSigns s t → SameButZeroSigns (s ++ "-0.0") (t ++ "0.0")

/-- All NaNs are printed in the same way. -/
theorem likeness_same : Likeness Value.Same Eq where
  refl _ := Or.inl rfl
  same_or_floats v w h := by
    obtain hsame | ⟨hv, hw⟩ := h
    · exact Or.inl hsame
    · obtain ⟨x, rfl, _⟩ := Value.isNaN_eq_true_iff.mp hv
      obtain ⟨y, rfl, _⟩ := Value.isNaN_eq_true_iff.mp hw
      exact Or.inr ⟨x, y, rfl, rfl⟩
  empty := rfl
  print s t v w hst h := by
    obtain rfl | ⟨hv, hw⟩ := h
    · rw [hst]
    · obtain ⟨x, rfl, hx⟩ := Value.isNaN_eq_true_iff.mp hv
      obtain ⟨y, rfl, hy⟩ := Value.isNaN_eq_true_iff.mp hw
      rw [hst, Binary64.text_of_isNaN hx, Binary64.text_of_isNaN hy]

theorem likeness_zeros :
    Likeness (fun v w => v = w ∨ v.OppositeZeros w) SameButZeroSigns where
  refl _ := Or.inl rfl
  same_or_floats v w h := by
    obtain hsame | hopposite := h
    · exact Or.inl hsame
    · obtain ⟨x, y, hv, hw, _⟩ := hopposite.floats
      exact Or.inr ⟨x, y, hv, hw⟩
  empty := .empty
  print s t v w hst h := by
    obtain rfl | hopposite := h
    · exact hst.append _
    · obtain ⟨x, y, rfl, rfl, hne, hx, hy⟩ := hopposite.floats
      obtain ⟨hx, hy⟩ | ⟨hx, hy⟩ := Binary64.text_of_opposite_zeros hne hx hy
      · rw [hx, hy]
        exact hst.negated
      · rw [hx, hy]
        exact hst.unnegated

namespace Memory

variable {m n : Memory} {R R' : Value → Value → Prop}

theorem Alike.mono (h : m.Alike R n) (himp : ∀ v w, R v w → R' v w) : m.Alike R' n :=
  ⟨h.1, fun i v w hv hw => himp v w (h.2 i v w hv hw)⟩

theorem Alike.and (h : m.Alike R n) (h' : m.Alike R' n) :
    m.Alike (fun v w => R v w ∧ R' v w) n :=
  ⟨h.1, fun i v w hv hw => ⟨h.2 i v w hv hw, h'.2 i v w hv hw⟩⟩

theorem Alike.eq (h : m.Alike Eq n) : m = n := by
  obtain ⟨hsize, hcells⟩ := h
  refine congrArg mk (Array.ext hsize ?_)
  intro i hi hi'
  exact hcells i _ _ (Array.getElem?_eq_getElem hi) (Array.getElem?_eq_getElem hi')

theorem equals_iff : m.equals n = true ↔ m.Alike Value.SameNumber n := by
  rw [equals, Array.isEqv_iff_rel]
  constructor
  · rintro ⟨hsize, hcells⟩
    refine ⟨hsize, ?_⟩
    intro i v w hv hw
    obtain ⟨hi, rfl⟩ := Array.getElem?_eq_some_iff.mp hv
    obtain ⟨_, rfl⟩ := Array.getElem?_eq_some_iff.mp hw
    exact Value.equals_iff.mp (hcells i hi)
  · rintro ⟨hsize, hcells⟩
    refine ⟨hsize, ?_⟩
    intro i hi
    apply Value.equals_iff.mpr
    exact hcells i _ _ (Array.getElem?_eq_getElem hi) (Array.getElem?_eq_getElem _)

end Memory

namespace Snapshot

variable {s t : Snapshot} {R R' : Value → Value → Prop}

/-- The same registers, text and state of running, and related cells. -/
structure Alike (R : Value → Value → Prop) (s t : Snapshot) : Prop where
  registers : s.registers = t.registers
  output : s.output = t.output
  running : s.running = t.running
  memory : s.memory.Alike R t.memory

theorem equals_iff : s.equals t = true ↔ s.Alike Value.SameNumber t := by
  simp only [equals, Bool.and_eq_true, beq_iff_eq, Memory.equals_iff]
  constructor
  · rintro ⟨⟨⟨hregisters, hmemory⟩, houtput⟩, hrunning⟩
    exact ⟨hregisters, houtput, hrunning, hmemory⟩
  · rintro ⟨hregisters, houtput, hrunning, hmemory⟩
    exact ⟨⟨⟨hregisters, hmemory⟩, houtput⟩, hrunning⟩

/-- A snapshot is equal to itself unless there is a NaN in it. -/
theorem equals_self_iff : s.equals s = true ↔ ∀ v ∈ s.memory.cells, v.isNaN = false := by
  have hcells : s.memory.Alike Value.SameNumber s.memory ↔
      ∀ v ∈ s.memory.cells, v.isNaN = false := by
    simp only [Memory.alike_self_iff, Value.sameNumber_self_iff]
  rw [equals_iff, ← hcells]
  exact ⟨Alike.memory, fun h => ⟨rfl, rfl, rfl, h⟩⟩

theorem Alike.mono (h : s.Alike R t) (himp : ∀ v w, R v w → R' v w) : s.Alike R' t :=
  ⟨h.registers, h.output, h.running, h.memory.mono himp⟩

theorem Alike.and (h : s.Alike R t) (h' : s.memory.Alike R' t.memory) :
    s.Alike (fun v w => R v w ∧ R' v w) t :=
  ⟨h.registers, h.output, h.running, h.memory.and h'⟩

/-- Cell by cell the comparison is exact where neither NaNs nor opposite zeros meet. -/
theorem equals_iff_same
    (h : s.memory.Alike
      (fun v w => ¬ (v.isNaN = true ∧ w.isNaN = true) ∧ ¬ v.OppositeZeros w) t.memory) :
    s.equals t = true ↔ s.Alike Value.Same t := by
  rw [equals_iff]
  constructor
  · intro hnumbers
    refine (hnumbers.and h).mono ?_
    rintro v w ⟨hvw, hnan, hzeros⟩
    exact (Value.sameNumber_iff_same hnan hzeros).mp hvw
  · intro hsame
    refine (hsame.and h).mono ?_
    rintro v w ⟨hvw, hnan, hzeros⟩
    exact (Value.sameNumber_iff_same hnan hzeros).mpr hvw

end Snapshot

/-- What an address keeps is the value of a seed for it. -/
theorem Seed.mem_of_lastFor? {seeds : List Seed} {a : Word} {v : Value}
    (h : lastFor? seeds a = some v) : ∃ s ∈ seeds, s.address = a := by
  obtain ⟨s, hlast, _⟩ := Option.map_eq_some_iff.mp h
  obtain ⟨member, hfor⟩ := List.mem_filter.mp (List.mem_of_getLast? hlast)
  exact ⟨s, member, of_decide_eq_true hfor⟩

/-- In a memory of admissible size every cell has an address. -/
theorem Memory.mem_cells_iff {m : Memory} (hsize : m.size < 0x8000000000000000) {v : Value} :
    v ∈ m.cells ↔ ∃ a, m.cell? a = some v := by
  constructor
  · intro member
    obtain ⟨i, hi⟩ := Array.getElem?_of_mem member
    obtain ⟨hlt, _⟩ := Array.getElem?_eq_some_iff.mp hi
    have haddress : (Word.wrap i).toInt = i :=
      Word.toInt_wrap_nat (Nat.lt_trans hlt hsize)
    refine ⟨Word.wrap i, ?_⟩
    rw [cell?_eq_getElem?, haddress, if_pos (by omega), Int.toNat_natCast, hi]
  · rintro ⟨a, ha⟩
    rw [cell?_eq_getElem?] at ha
    split at ha
    next => exact Array.mem_of_getElem? ha
    next => cases ha

namespace Machine

theorem SameState.snapshot_eq {m n : Machine ι} (h : m.SameState n) :
    n.snapshot = m.snapshot := by
  simp only [snapshot, h.registers, h.memory, h.output, h.running]

/-- At the start of a program memory holds a NaN exactly when some address keeps one as
its last seed. -/
theorem AtStart.equals_self_iff {c : Config} (hc : c.flaw? = none) {seeds : List Seed}
    {m : Machine ι} (h : m.AtStart c seeds)
    (hinside : ∀ s ∈ seeds, ¬ s.Outside c.memorySize) :
    m.snapshot.equals m.snapshot = true ↔
      ∀ a v, Seed.lastFor? seeds a = some v → v.isNaN = false := by
  obtain ⟨_, _, hword, _⟩ := c.flaw?_eq_none_iff.mp hc
  have hfits : m.memory.size < 0x8000000000000000 := by rwa [h.size]
  rw [Snapshot.equals_self_iff]
  constructor
  · intro hcells a v hlast
    obtain ⟨s, member, rfl⟩ := Seed.mem_of_lastFor? hlast
    have hcell := h.cell s.address (hinside s member)
    rw [hlast] at hcell
    exact hcells v ((Memory.mem_cells_iff hfits).mpr ⟨_, hcell⟩)
  · intro hseeds v member
    obtain ⟨a, ha⟩ := (Memory.mem_cells_iff hfits).mp member
    have hinside : ¬ a.Outside c.memorySize := by
      rw [← h.size, ← Memory.cell?_eq_none_iff]
      intro hnone
      rw [hnone] at ha
      cases ha
    have hcell := ha.symm.trans (h.cell a hinside)
    cases hlast : Seed.lastFor? seeds a with
    | none =>
        rw [hlast] at hcell
        cases hcell
        rfl
    | some w =>
        rw [hlast] at hcell
        cases hcell
        exact hseeds a _ hlast

theorem eq_of_snapshot {m n : Machine ι} (hconfig : n.config = m.config)
    (hstore : n.store = m.store) (hlabels : n.labels = m.labels)
    (hoverlay : n.overlay = m.overlay) (h : m.snapshot.Alike Eq n.snapshot) : n = m := by
  obtain ⟨_, _, _, _, _, _, ⟨_⟩, _⟩ := m
  obtain ⟨_, _, _, _, _, _, ⟨_⟩, _⟩ := n
  cases hconfig
  cases hstore
  cases hlabels
  cases hoverlay
  cases h.registers
  cases h.output
  cases h.running
  cases h.memory.eq
  rfl

variable [ClientHost ι]

/-- The index is always that of the store, down to the tree that it is kept in. -/
theorem labels_upheld :
    Upheld (fun _ => True) (fun m : Machine ι => m.labels = .ofStore m.store) where
  elementary _ _ := trivial
  host _ _ _ _ _ := trivial
  call k _ m hm := by
    obtain hkeeps | ⟨p, rfl⟩ | ⟨slot, rfl⟩ := k.keepsProgram_or
    · have hsame := sameProgram_call hkeeps m
      rw [hsame.labels, hsame.store, hm]
    · obtain hload | ⟨_, _, hsame⟩ := Call.apply_load_cases p m
      · obtain ⟨_, hloaded⟩ := load_ok hload
        rw [hloaded]
        rfl
      · rwa [hsame]
    · obtain ⟨marked, htoggle⟩ | ⟨_, _, hsame⟩ := Call.apply_toggleBreakpoint_cases slot m
      · obtain ⟨i, hi, hmarked⟩ := toggleBreakpoint_ok htoggle
        rw [hmarked]
        refine hm.trans (LabelIndex.ofStore_congr (Eq.symm ?_))
        apply map_setIfInBounds_of_eq hi
        rfl
      · rwa [hsame]
  jump _ _ hm := hm

/-- Some history leads a new machine of this configuration here. -/
def Reached (c : Config) (m : Machine ι) : Prop :=
  ∃ (start : Machine ι) (ops : List (Operation ι)),
    create c = .ok start ∧ m = start.after ops

variable {c : Config} {m n : Machine ι}

theorem Reached.flaw? (h : m.Reached c) : c.flaw? = none := by
  obtain ⟨_, _, hcreate, _⟩ := h
  exact (create_ok_iff.mp hcreate).1

theorem Reached.config (h : m.Reached c) : m.config = c := by
  have hc := h.flaw?
  obtain ⟨_, ops, hcreate, rfl⟩ := h
  exact (sizes_after hc hcreate ops).1

theorem Reached.memory_size (h : m.Reached c) : m.memory.size = c.memorySize := by
  have hc := h.flaw?
  obtain ⟨_, ops, hcreate, rfl⟩ := h
  exact (sizes_after hc hcreate ops).2.1

theorem Reached.labels (h : m.Reached c) : m.labels = .ofStore m.store := by
  obtain ⟨_, ops, hcreate, rfl⟩ := h
  apply labels_upheld.after ops (fun _ _ => trivial)
  obtain ⟨_, rfl⟩ := create_ok_iff.mp hcreate
  exact (LabelIndex.ofStore_padding c.storeSize).symm

theorem Reached.after (h : m.Reached c) (more : List (Operation ι)) :
    (m.after more).Reached c := by
  obtain ⟨start, ops, hcreate, rfl⟩ := h
  exact ⟨start, ops ++ more, hcreate, (after_append start ops more).symm⟩

theorem Reached.load (h : m.Reached c) {p : Program ι} (hload : m.load p = .ok n) :
    n.Reached c := by
  have hcall : m.after [.call (.load p)] = n := by
    rw [after_cons, Operation.apply, Call.apply, hload]
    rfl
  rw [← hcall]
  exact h.after _

theorem Reached.labels_eq (hm : m.Reached c) (hn : n.Reached c) (hstore : n.store = m.store) :
    n.labels = m.labels := by
  rw [hn.labels, hm.labels, hstore]

/-- With store and seeds in common, related snapshots are those of twins. -/
theorem Reached.twins (hm : m.Reached c) (hn : n.Reached c) (hstore : n.store = m.store)
    (hoverlay : n.overlay = m.overlay) {R : Value → Value → Prop}
    {T : String → String → Prop} (hR : Likeness R T) (h : m.snapshot.Alike R n.snapshot) :
    m.Twins R T n where
  config := hn.config.trans hm.config.symm
  registers := h.registers.symm
  running := h.running.symm
  store := hstore
  slots := by
    funext l
    rw [labelSlot?, labelSlot?, hm.labels_eq hn hstore]
  overlay := hoverlay
  memory := h.memory
  output := by
    have houtput : m.output.text = n.output.text := h.output
    rw [← houtput]
    exact hR.text_refl _

/-- After a load, and after a restart at any later time, snapshots are equal unless some
address keeps a NaN from its seeds. -/
theorem Reached.loaded_equals_restarted_iff (hm : m.Reached c) {p : Program ι}
    {loaded : Machine ι} (hload : m.load p = .ok loaded) {later : List (Operation ι)}
    (hlater : loaded.LoadsNothing later) :
    loaded.snapshot.equals (loaded.after later).restart.snapshot = true ↔
      ∀ a v, Seed.lastFor? p.overlay a = some v → v.isNaN = false := by
  have hc := hm.flaw?
  have hinside := seeds_inside_of_load hload
  rw [hm.config] at hinside
  have hloaded := hm.load hload
  have hreached := hloaded.after later
  have hstart : loaded.AtStart c p.overlay ∧ loaded.restart = loaded := by
    obtain ⟨_, rfl⟩ := load_ok hload
    exact ⟨atStart_restart hc hm.config hm.memory_size rfl hinside, restart_restart _⟩
  obtain ⟨hstart, hrestart⟩ := hstart
  -- A loaded machine is its own restart, so both sides are restarts.
  have hsame := sameState_restart (hreached.config.trans hloaded.config.symm)
    (overlay_after hlater) (hreached.memory_size.trans hloaded.memory_size.symm)
  rw [hrestart] at hsame
  rw [hsame.snapshot_eq]
  exact hstart.equals_self_iff hc hinside

/-- Snapshots compare cells as numbers. Let two machines of one configuration, each after
any history, have the same store and the same seeds.

Their snapshots are equal exactly when registers, text and state of running are the same
and each cell has the same content in both, which is no NaN, or zeros of opposite signs in
them. So where no address has two NaNs or opposite zeros, equality is exact; a snapshot is
equal to one retaken at once exactly when no cell is a NaN; and the snapshot after a load
is equal to that after a restart at any later time exactly when no address keeps a NaN
from its seeds.

From equal snapshots without opposite zeros every continuation leads to one and the same
state, whatever the instructions of the host do. Where all instructions are standard, the
same contents lead to the same text in every continuation, with NaNs in them as well; and
equal snapshots lead to texts that differ at most in the signs of printed zeros. -/
theorem snapshots_compare_as_numbers (hm : m.Reached c) (hn : n.Reached c)
    (hstore : n.store = m.store) (hoverlay : n.overlay = m.overlay) :
    (m.snapshot.equals n.snapshot = true ↔
        m.snapshot.Alike Value.SameNumber n.snapshot) ∧
      (m.memory.Alike
          (fun v w => ¬ (v.isNaN = true ∧ w.isNaN = true) ∧ ¬ v.OppositeZeros w) n.memory →
        (m.snapshot.equals n.snapshot = true ↔ m.snapshot.Alike Value.Same n.snapshot)) ∧
      (m.snapshot.equals m.snapshot = true ↔ ∀ v ∈ m.memory.cells, v.isNaN = false) ∧
      (∀ (p : Program ι) (loaded : Machine ι) (later : List (Operation ι)),
        m.load p = .ok loaded → loaded.LoadsNothing later →
        (loaded.snapshot.equals (loaded.after later).restart.snapshot = true ↔
          ∀ a v, Seed.lastFor? p.overlay a = some v → v.isNaN = false)) ∧
      (m.snapshot.equals n.snapshot = true →
        m.memory.Alike (fun v w => ¬ v.OppositeZeros w) n.memory →
        ∀ more : List (Operation ι), n.after more = m.after more) ∧
      (m.IsStandard →
        ∀ more : List (Operation ι), (∀ p, .call (.load p) ∈ more → p.IsStandard) →
        (m.snapshot.Alike Value.Same n.snapshot →
          (m.after more).output.text = (n.after more).output.text) ∧
        (m.snapshot.equals n.snapshot = true →
          SameButZeroSigns (m.after more).output.text (n.after more).output.text)) := by
  refine ⟨Snapshot.equals_iff, fun h => Snapshot.equals_iff_same h, Snapshot.equals_self_iff,
    ?_, ?_, ?_⟩
  · intro p loaded later hload hlater
    exact hm.loaded_equals_restarted_iff hload hlater
  · intro hequal hzeros more
    -- All that is left are cells with the same content, so the machines are one.
    have hcontents : m.snapshot.Alike Eq n.snapshot := by
      refine ((Snapshot.equals_iff.mp hequal).and hzeros).mono ?_
      rintro v w ⟨⟨hsame, _⟩ | hopposite, hnot⟩
      · exact hsame
      · exact absurd hopposite hnot
    have hlabels := hm.labels_eq hn hstore
    rw [eq_of_snapshot (hn.config.trans hm.config.symm) hstore hlabels hoverlay hcontents]
  · intro hstandard more hmore
    constructor
    · intro hsame
      have htwins := hm.twins hn hstore hoverlay likeness_same hsame
      exact (htwins.after likeness_same hstandard more hmore).output
    · intro hequal
      have hnumbers : m.snapshot.Alike (fun v w => v = w ∨ v.OppositeZeros w) n.snapshot :=
        (Snapshot.equals_iff.mp hequal).mono fun v w hvw => hvw.imp_left And.left
      have htwins := hm.twins hn hstore hoverlay likeness_zeros hnumbers
      exact (htwins.after likeness_zeros hstandard more hmore).output

/-- Prints what cell 1 holds. -/
def showsCell (seeds : List Seed) : Program Empty where
  instructions := [Standard.instruction .ldo (some (.int 1)), Standard.instruction .print]
  overlay := seeds

/-- The program is loaded, and the zero with these bits is written to the cell. -/
def zeroWritten (bits : UInt64) : List (Operation Empty) :=
  [.call (.load (showsCell [])), .call (.writeCell 1 (.float ⟨bits⟩))]

theorem opposite_zeros_have_equal_snapshots :
    ∃ m n : Machine Empty, m.Reached ⟨2, 2, 1⟩ ∧ n.Reached ⟨2, 2, 1⟩ ∧
      n.store = m.store ∧ n.overlay = m.overlay ∧ m.snapshot.equals n.snapshot = true ∧
      (m.after [.step, .step]).output.text = "0.0" ∧
      (n.after [.step, .step]).output.text = "-0.0" ∧
      SameButZeroSigns (m.after [.step, .step]).output.text
        (n.after [.step, .step]).output.text ∧
      ∃ loaded, m.load (showsCell [⟨1, .float .nan⟩]) = .ok loaded ∧
        loaded.snapshot.equals loaded.restart.snapshot = false := by
  have hcreate : create ⟨2, 2, 1⟩ = .ok (blank ⟨2, 2, 1⟩ : Machine Empty) :=
    create_ok_iff.mpr ⟨by decide, rfl⟩
  have hm : ((blank ⟨2, 2, 1⟩).after (zeroWritten 0)).Reached ⟨2, 2, 1⟩ :=
    ⟨_, _, hcreate, rfl⟩
  have hn : ((blank ⟨2, 2, 1⟩).after (zeroWritten 0x8000000000000000)).Reached ⟨2, 2, 1⟩ :=
    ⟨_, _, hcreate, rfl⟩
  have hequal : ((blank ⟨2, 2, 1⟩).after (zeroWritten 0)).snapshot.equals
      ((blank ⟨2, 2, 1⟩).after (zeroWritten 0x8000000000000000)).snapshot = true := by
    decide +kernel
  have hstandard := ((blank ⟨2, 2, 1⟩).after (zeroWritten 0)).isStandard_empty
  obtain ⟨_, _, _, hrestart, _, hcontinued⟩ := snapshots_compare_as_numbers hm hn rfl rfl
  obtain ⟨loaded, hload⟩ : ∃ loaded, ((blank ⟨2, 2, 1⟩ : Machine Empty).after
      (zeroWritten 0)).load (showsCell [⟨1, .float .nan⟩]) = .ok loaded := ⟨_, rfl⟩
  refine ⟨_, _, hm, hn, rfl, rfl, hequal, by decide +kernel, by decide +kernel, ?_, loaded,
    hload, ?_⟩
  · exact (hcontinued hstandard _ (by simp)).2 hequal
  · have hiff := hrestart _ loaded [] hload trivial
    apply Bool.eq_false_iff.mpr
    intro hequal
    have hnan := hiff.mp hequal 1 (.float .nan) (by decide +kernel)
    exact absurd hnan (by decide)

end Machine

end CellMachine
