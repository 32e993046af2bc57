import CellMachine.Proofs.Attempt
import CellMachine.Proofs.TextOrder
import CellMachine.StandardSet

/-!
What an instruction set holds after any registrations. A set is known by its look-ups: under a
name it holds the first definition that was registered with the name. The listing follows from
the look-ups alone, since it has their definitions once each, in the order of the bytes of their
names, so neither the order of the registrations nor the order in which a table would be walked
through leaves a trace in it.
-/

namespace CellMachine.InstructionSet

open Attempt

variable {ι : Type} {s t : InstructionSet ι} {d : Definition ι} {ds : List (Definition ι)}
  {name : String}

/-! ### Look-ups -/

theorem find?_empty : (empty : InstructionSet ι).find? name = none := by
  simp [find?, empty]

theorem contains_eq_isSome_find? (s : InstructionSet ι) (name : String) :
    s.contains name = (s.find? name).isSome :=
  Std.TreeMap.contains_eq_isSome_getElem?

theorem find?_eq_none_of_free (h : s.contains name = false) : s.find? name = none := by
  rw [contains_eq_isSome_find?, Option.isSome_eq_false_iff, Option.isNone_iff_eq_none] at h
  exact h

theorem name_of_find? (h : s.find? name = some d) : d.name = name := s.named name d h

theorem find?_insert (s : InstructionSet ι) (d : Definition ι) (name : String) :
    (s.insert d).find? name = if d.name = name then some d else s.find? name := by
  rw [find?, insert, Std.TreeMap.getElem?_insert]
  simp only [Std.LawfulEqCmp.compare_eq_iff_eq]
  rfl

/-- Sets with the same look-ups build the same instructions. -/
theorem instruction_congr (h : s.find? name = t.find? name) :
    s.instruction name = t.instruction name := by
  rw [instruction, instruction, h]

theorem instruction_eq_ok_iff {i : Instruction ι} :
    s.instruction name = .ok i ↔ ∃ d, s.find? name = some d ∧ i = { opcode := .defined d } := by
  rw [instruction]
  cases s.find? name with
  | none => simp
  | some d => simp [eq_comm]

/-! ### Registrations -/

/-- The first of some definitions that has a name. -/
def firstNamed? (ds : List (Definition ι)) (name : String) : Option (Definition ι) :=
  ds.find? fun d => d.name == name

theorem isSome_firstNamed? :
    (firstNamed? ds name).isSome = true ↔ name ∈ ds.map fun d => d.name := by
  simp [firstNamed?]

theorem name_of_firstNamed? (h : firstNamed? ds name = some d) : d.name = name := by
  simpa using List.find?_some h

theorem run_register_of_contains (h : s.contains d.name = true) :
    (register d).run s = .error (.duplicateOpcode d.name) s :=
  if_pos h

theorem run_register_of_free (h : s.contains d.name = false) :
    (register d).run s = .ok () (s.insert d) :=
  if_neg (by rw [h]; exact Bool.false_ne_true)

/-- A registration changes no look-up that had an answer. -/
theorem find?_state_register (s : InstructionSet ι) (d : Definition ι) (name : String) :
    ((register d).state s).find? name =
      (s.find? name).or (if d.name == name then some d else none) := by
  cases hcontains : s.contains d.name with
  | true =>
      rw [state_of_error (run_register_of_contains hcontains)]
      by_cases hname : d.name = name
      · rw [contains_eq_isSome_find?, hname] at hcontains
        obtain ⟨e, he⟩ := Option.isSome_iff_exists.mp hcontains
        rw [he, Option.some_or]
      · simp [hname]
  | false =>
      rw [state_of_ok (run_register_of_free hcontains), find?_insert]
      by_cases hname : d.name = name
      · rw [← hname, find?_eq_none_of_free hcontains]
        simp
      · simp [hname]

/-- After registrations a set answers what it answered before, and for other names the first
definition among those registered. -/
theorem find?_stateAfter_register (ds : List (Definition ι)) (s : InstructionSet ι)
    (name : String) :
    (stateAfter register ds s).find? name = (s.find? name).or (firstNamed? ds name) := by
  induction ds generalizing s with
  | nil => simp [stateAfter, firstNamed?]
  | cons d ds ih =>
      rw [stateAfter, ih, find?_state_register, Option.or_assoc, firstNamed?, firstNamed?,
        List.find?_cons]
      cases d.name == name <;> rfl

/-- The set that registrations leave when they start from the empty one. Those that are refused
are among them. -/
def registered (ds : List (Definition ι)) : InstructionSet ι :=
  stateAfter register ds .empty

theorem registered_concat (before : List (Definition ι)) (d : Definition ι) :
    registered (before ++ [d]) = (register d).state (registered before) :=
  stateAfter_append register before [d] .empty

theorem find?_registered (ds : List (Definition ι)) (name : String) :
    (registered ds).find? name = firstNamed? ds name := by
  rw [registered, find?_stateAfter_register, find?_empty, Option.none_or]

theorem contains_registered (ds : List (Definition ι)) (name : String) :
    (registered ds).contains name = true ↔ name ∈ ds.map fun d => d.name := by
  rw [contains_eq_isSome_find?, find?_registered, isSome_firstNamed?]

/-- A registration after others is refused if one of them had its name. -/
theorem run_register_registered (before : List (Definition ι)) (d : Definition ι) :
    (register d).run (registered before) =
      if d.name ∈ before.map fun e => e.name then
        .error (.duplicateOpcode d.name) (registered before)
      else
        .ok () (registered (before ++ [d])) := by
  split
  next h => exact run_register_of_contains ((contains_registered before d.name).mpr h)
  next h =>
    rw [← contains_registered, Bool.not_eq_true] at h
    rw [registered_concat, state_of_ok (run_register_of_free h)]
    exact run_register_of_free h

/-- Of definitions that differ in their names, each is the first with its name. -/
theorem firstNamed?_eq_some_iff
    (hdistinct : ∀ d ∈ ds, ∀ e ∈ ds, d.name = e.name → d = e) :
    firstNamed? ds name = some d ↔ d ∈ ds ∧ d.name = name := by
  constructor
  · intro h
    exact ⟨List.mem_of_find?_eq_some h, name_of_firstNamed? h⟩
  · rintro ⟨hd, rfl⟩
    have hsome := isSome_firstNamed?.mpr (List.mem_map_of_mem (f := fun d => d.name) hd)
    obtain ⟨e, he⟩ := Option.isSome_iff_exists.mp hsome
    rw [he, hdistinct e (List.mem_of_find?_eq_some he) d hd (name_of_firstNamed? he)]

theorem firstNamed?_congr {es : List (Definition ι)} (hmem : ∀ d, d ∈ es ↔ d ∈ ds)
    (hdistinct : ∀ d ∈ ds, ∀ e ∈ ds, d.name = e.name → d = e) :
    firstNamed? es name = firstNamed? ds name := by
  have hother : ∀ d ∈ es, ∀ e ∈ es, d.name = e.name → d = e := by
    simpa only [hmem] using hdistinct
  ext d
  rw [firstNamed?_eq_some_iff hdistinct, firstNamed?_eq_some_iff hother, hmem]

/-! ### The listing -/

/-- The list has every definition of the set once, in whatever order. -/
structure Enumerates (l : List (Definition ι)) (s : InstructionSet ι) : Prop where
  nodup : l.Nodup
  mem_iff : ∀ d, d ∈ l ↔ s.find? d.name = some d

theorem mem_definitions_iff (d : Definition ι) :
    d ∈ s.definitions ↔ s.find? d.name = some d := by
  rw [definitions, List.mem_map]
  constructor
  · rintro ⟨⟨name, e⟩, hmem, rfl⟩
    have hfound : s.find? name = some e := Std.TreeMap.mem_toList_iff_getElem?_eq_some.mp hmem
    rw [name_of_find? hfound]
    exact hfound
  · intro h
    exact ⟨(d.name, d), Std.TreeMap.mem_toList_iff_getElem?_eq_some.mpr h, rfl⟩

theorem length_definitions (s : InstructionSet ι) : s.definitions.length = s.size := by
  rw [definitions, List.length_map, Std.TreeMap.length_toList, size]

theorem pairwise_definitions (s : InstructionSet ι) :
    s.definitions.Pairwise fun a b => Utf8.bytes a.name < Utf8.bytes b.name := by
  rw [definitions, List.pairwise_map]
  refine Std.TreeMap.ordered_keys_toList.imp_of_mem ?_
  intro a b ha hb hlt
  rw [name_of_find? (Std.TreeMap.mem_toList_iff_getElem?_eq_some.mp ha),
    name_of_find? (Std.TreeMap.mem_toList_iff_getElem?_eq_some.mp hb), Utf8.bytes_lt_bytes_iff]
  exact compareOfLessAndEq_eq_lt.mp hlt

theorem enumerates_definitions (s : InstructionSet ι) : Enumerates s.definitions s where
  nodup := by
    refine (pairwise_definitions s).imp ?_
    rintro a b hlt rfl
    exact List.lt_irrefl _ hlt
  mem_iff := mem_definitions_iff

theorem Enumerates.perm {l k : List (Definition ι)} (hl : Enumerates l s) (hk : Enumerates k s) :
    l.Perm k := by
  rw [List.perm_ext_iff_of_nodup hl.nodup hk.nodup]
  intro d
  rw [hl.mem_iff, hk.mem_iff]

/-- Some definitions in the order of the bytes of their names. -/
def sortedByName (l : List (Definition ι)) : List (Definition ι) :=
  l.mergeSort fun a b => decide (Utf8.bytes a.name ≤ Utf8.bytes b.name)

theorem pairwise_sortedByName (l : List (Definition ι)) :
    (sortedByName l).Pairwise fun a b => a.name ≤ b.name := by
  simp only [sortedByName, Utf8.bytes_le_bytes_iff]
  refine (List.pairwise_mergeSort ?_ ?_ l).imp of_decide_eq_true
  · intro a b c hab hbc
    exact decide_eq_true (String.le_trans (of_decide_eq_true hab) (of_decide_eq_true hbc))
  · intro a b
    simpa using String.le_total a.name b.name

/-- Every enumeration is sorted to the listing. -/
theorem Enumerates.sortedByName_eq {l : List (Definition ι)} (h : Enumerates l s) :
    sortedByName l = s.definitions := by
  have hperm : (sortedByName l).Perm l := List.mergeSort_perm l _
  have hlisted : s.definitions.Pairwise fun a b => a.name ≤ b.name :=
    (pairwise_definitions s).imp fun hlt => Utf8.bytes_le_bytes_iff.mp (List.le_of_lt hlt)
  refine List.Perm.eq_of_pairwise ?_ (pairwise_sortedByName l) hlisted
    (hperm.trans (h.perm (enumerates_definitions s)))
  intro a b ha hb hab hba
  -- names are not shared in a set, so equal names mean equal definitions
  have hfound := (h.mem_iff a).mp (hperm.mem_iff.mp ha)
  rw [String.le_antisymm hab hba, (mem_definitions_iff b).mp hb] at hfound
  exact (Option.some.inj hfound).symm

/-- Sets with the same look-ups have the same listing. -/
theorem definitions_congr (h : ∀ name, s.find? name = t.find? name) :
    s.definitions = t.definitions := by
  have hlist : Enumerates s.definitions t :=
    ⟨(enumerates_definitions s).nodup, fun d => by rw [mem_definitions_iff, h]⟩
  rw [← (enumerates_definitions s).sortedByName_eq, hlist.sortedByName_eq]

/-- Registrations on the empty set, in any sequence. A name stands for the first definition that
was registered with it; a later one is refused by its name and leaves the set as it was. Look-ups
and instructions are there for the names registered and for no others. The listing has the
definitions that stand for the names once each, strictly ascending by the bytes of the names, and
is what sorting gives for every order in which a table may hand them out. Sequences with the same
definitions, no two of one name, leave sets that cannot be told apart. -/
theorem first_registration_wins_in_canonical_listing (ds : List (Definition ι)) :
    (∀ name, (registered ds).find? name = firstNamed? ds name) ∧
    (∀ before d after, ds = before ++ d :: after →
      (register d).run (registered before) =
        if d.name ∈ before.map fun e => e.name then
          .error (.duplicateOpcode d.name) (registered before)
        else
          .ok () (registered (before ++ [d]))) ∧
    (∀ name, ((registered ds).contains name = true ↔ name ∈ ds.map fun d => d.name) ∧
      (registered ds).instruction name =
        match firstNamed? ds name with
        | some d => .ok { opcode := .defined d }
        | none => .error (.unknownOpcode name)) ∧
    ((∀ d, d ∈ (registered ds).definitions ↔ firstNamed? ds d.name = some d) ∧
      ((registered ds).definitions.Pairwise fun a b =>
        Utf8.bytes a.name < Utf8.bytes b.name) ∧
      (registered ds).definitions.length = (registered ds).size) ∧
    (∀ walk, Enumerates walk (registered ds) →
      sortedByName walk = (registered ds).definitions) ∧
    ∀ es, (∀ d, d ∈ es ↔ d ∈ ds) → (∀ d ∈ ds, ∀ e ∈ ds, d.name = e.name → d = e) →
      (registered es).definitions = (registered ds).definitions ∧
      ∀ name, (registered es).find? name = (registered ds).find? name ∧
        (registered es).contains name = (registered ds).contains name ∧
        (registered es).instruction name = (registered ds).instruction name := by
  refine ⟨find?_registered ds, ?_, ?_, ⟨?_, pairwise_definitions _, length_definitions _⟩, ?_, ?_⟩
  · intro before d _ _
    exact run_register_registered before d
  · intro name
    rw [instruction, find?_registered]
    exact ⟨contains_registered ds name, rfl⟩
  · intro d
    rw [mem_definitions_iff, find?_registered]
  · intro walk h
    exact h.sortedByName_eq
  · intro es hmem hdistinct
    have hfind (name : String) : (registered es).find? name = (registered ds).find? name := by
      rw [find?_registered, find?_registered, firstNamed?_congr hmem hdistinct]
    refine ⟨definitions_congr hfind, fun name => ⟨hfind name, ?_, instruction_congr (hfind name)⟩⟩
    rw [contains_eq_isSome_find?, contains_eq_isSome_find?, hfind]

/-- A definition that stops the machine under the name of the output operation. -/
def silencer : Definition Empty := { Standard.halt.definition with name := "print" }

/-- The output operation keeps its name, and of two operations the listing is the same in
whatever order they are registered or handed out. -/
theorem second_print_is_refused :
    let print : Definition Empty := Standard.print.definition
    let ldc : Definition Empty := Standard.ldc.definition
    (registered [print, silencer, ldc]).find? "print" = some print ∧
    (register silencer).run (registered [print]) =
      .error (.duplicateOpcode "print") (registered [print]) ∧
    sortedByName [print, ldc] = (registered [print, ldc]).definitions ∧
    (registered [ldc, print]).definitions = (registered [print, ldc]).definitions := by
  intro print ldc
  have hdistinct : ∀ d ∈ [print, ldc], ∀ e ∈ [print, ldc], d.name = e.name → d = e := by
    decide +kernel
  have hwalk : Enumerates [print, ldc] (registered [print, ldc]) :=
    ⟨by decide +kernel, fun d => by simp [find?_registered, firstNamed?_eq_some_iff hdistinct]⟩
  obtain ⟨hfind, hrun, -⟩ :=
    first_registration_wins_in_canonical_listing [print, silencer, ldc]
  obtain ⟨-, -, -, -, hsorted, hsame⟩ :=
    first_registration_wins_in_canonical_listing [print, ldc]
  refine ⟨hfind "print", hrun [print] silencer [ldc] rfl, hsorted _ hwalk, ?_⟩
  exact (hsame [ldc, print] (fun d => (List.Perm.swap print ldc []).mem_iff) hdistinct).1

end CellMachine.InstructionSet
