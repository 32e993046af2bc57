import Mathlib.Data.List.Nodup
import CellMachine.Proofs.NamedDefinitions
import CellMachine.Proofs.Operations

/-!
Registration of several definitions at once. It goes through the definitions in order and ends at
the first whose name the set holds; what came before it stays. The standard definitions are
registered group after group, which is the same as all in one sequence, and they differ in their
names, so only what the set held beforehand decides how far the registration gets.
-/

namespace CellMachine

namespace InstructionSet

open Attempt

variable {ι : Type} {s t : InstructionSet ι} {d : Definition ι} {ds : List (Definition ι)}
  {name : String}

/-! ### How far a registration gets -/

theorem registerAll_cons (d : Definition ι) (ds : List (Definition ι)) :
    registerAll (d :: ds) = register d >>= fun _ => registerAll ds := rfl

theorem registerAll_append (ds es : List (Definition ι)) :
    registerAll (ds ++ es) = registerAll ds >>= fun _ => registerAll es := by
  unfold registerAll
  rw [List.forM_eq_forM, List.forM_append]

theorem contains_insert (s : InstructionSet ι) (d : Definition ι) (name : String) :
    (s.insert d).contains name = (d.name == name || s.contains name) := by
  rw [contains_eq_isSome_find?, contains_eq_isSome_find?, find?_insert]
  by_cases h : d.name = name <;> simp [h]

theorem contains_stateAfter_register (h : s.contains name = true) :
    (stateAfter register ds s).contains name = true := by
  rw [contains_eq_isSome_find?] at h ⊢
  rw [find?_stateAfter_register, Option.isSome_or, h, Bool.true_or]

/-- Definitions of different names that are all free are registered. -/
theorem run_registerAll_of_free (hdistinct : (ds.map fun d => d.name).Nodup)
    (hfree : ∀ d ∈ ds, s.contains d.name = false) :
    (registerAll ds).run s = .ok () (stateAfter register ds s) := by
  induction ds generalizing s with
  | nil => rfl
  | cons d ds ih =>
      rw [List.map_cons, List.nodup_cons] at hdistinct
      have hfirst := run_register_of_free (hfree d List.mem_cons_self)
      rw [registerAll_cons, run_bind_of_ok hfirst, stateAfter, state_of_ok hfirst]
      refine ih hdistinct.2 ?_
      intro e member
      have hname : d.name ≠ e.name := by
        intro heq
        rw [heq] at hdistinct
        exact hdistinct.1 (List.mem_map_of_mem member)
      rw [contains_insert, hfree e (List.mem_cons_of_mem d member), Bool.or_false]
      exact beq_false_of_ne hname

/-- The first definition whose name is taken ends the registration, and those before it stay. -/
theorem run_registerAll_of_taken {before after : List (Definition ι)}
    (hdistinct : (before.map fun d => d.name).Nodup)
    (hfree : ∀ e ∈ before, s.contains e.name = false) (htaken : s.contains d.name = true) :
    (registerAll (before ++ d :: after)).run s =
      .error (.duplicateOpcode d.name) (stateAfter register before s) := by
  rw [registerAll_append, run_bind_of_ok (run_registerAll_of_free hdistinct hfree),
    registerAll_cons]
  exact run_bind_of_error (run_register_of_contains (contains_stateAfter_register htaken)) _

/-- The definitions before the first one whose name is taken. -/
def admitted (s : InstructionSet ι) (ds : List (Definition ι)) : List (Definition ι) :=
  ds.takeWhile fun d => !s.contains d.name

theorem free_of_mem_admitted (h : d ∈ s.admitted ds) : s.contains d.name = false := by
  simpa using List.all_eq_true.mp List.all_takeWhile d h

theorem admitted_of_free (h : ∀ d ∈ ds, s.contains d.name = false) : s.admitted ds = ds := by
  have hall : s.admitted (ds ++ []) = ds ++ [] :=
    List.takeWhile_append_of_pos (by simpa using h)
  rwa [List.append_nil] at hall

theorem admitted_append_of_taken {before after : List (Definition ι)}
    (hfree : ∀ e ∈ before, s.contains e.name = false) (htaken : s.contains d.name = true) :
    s.admitted (before ++ d :: after) = before := by
  rw [admitted, List.takeWhile_append_of_pos (by simpa using hfree),
    List.takeWhile_cons_of_neg (by simp [htaken]), List.append_nil]

/-- How a registration of definitions of different names ends, and what it leaves. -/
theorem run_registerAll (hdistinct : (ds.map fun d => d.name).Nodup) (s : InstructionSet ι) :
    (registerAll ds).run s =
      match ds.find? fun d => s.contains d.name with
      | none => .ok () (stateAfter register (s.admitted ds) s)
      | some d => .error (.duplicateOpcode d.name) (stateAfter register (s.admitted ds) s) := by
  cases hfirst : ds.find? fun d => s.contains d.name with
  | none =>
      have hfree : ∀ d ∈ ds, s.contains d.name = false := by
        simpa using List.find?_eq_none.mp hfirst
      rw [admitted_of_free hfree]
      exact run_registerAll_of_free hdistinct hfree
  | some d =>
      obtain ⟨htaken, before, after, rfl, hbefore⟩ := List.find?_eq_some_iff_append.mp hfirst
      have hfree : ∀ e ∈ before, s.contains e.name = false := by simpa using hbefore
      rw [List.map_append, List.nodup_append] at hdistinct
      rw [admitted_append_of_taken hfree htaken]
      exact run_registerAll_of_taken hdistinct.1 hfree htaken

/-! ### What it adds -/

/-- `t` has what `s` has and the definitions `ds` besides, whose names were free in `s`. -/
structure Adds (s : InstructionSet ι) (ds : List (Definition ι)) (t : InstructionSet ι) :
    Prop where
  free : ∀ d ∈ ds, s.contains d.name = false
  find?_eq : ∀ name, t.find? name = (s.find? name).or (firstNamed? ds name)
  listed : t.definitions.Perm (s.definitions ++ ds)

theorem Adds.find?_of_some (h : Adds s ds t) (hfound : s.find? name = some d) :
    t.find? name = some d := by
  rw [h.find?_eq, hfound, Option.some_or]

theorem enumerates_append (hdistinct : (ds.map fun d => d.name).Nodup)
    (hfree : ∀ d ∈ ds, s.contains d.name = false) :
    Enumerates (s.definitions ++ ds) (stateAfter register ds s) where
  nodup := by
    refine List.nodup_append.mpr ⟨(enumerates_definitions s).nodup, hdistinct.of_map, ?_⟩
    rintro d hd _ he rfl
    have hfound := (mem_definitions_iff d).mp hd
    rw [find?_eq_none_of_free (hfree d he)] at hfound
    cases hfound
  mem_iff := by
    intro d
    rw [find?_stateAfter_register, Option.or_eq_some_iff,
      firstNamed?_eq_some_iff (List.inj_on_of_nodup_map hdistinct), List.mem_append,
      mem_definitions_iff]
    constructor
    · rintro (h | h)
      · exact .inl h
      · exact .inr ⟨find?_eq_none_of_free (hfree d h), h, rfl⟩
    · rintro (h | ⟨-, h, -⟩)
      · exact .inl h
      · exact .inr h

theorem adds_admitted (hdistinct : (ds.map fun d => d.name).Nodup) (s : InstructionSet ι) :
    Adds s (s.admitted ds) ((registerAll ds).state s) := by
  have hstate : (registerAll ds).state s = stateAfter register (s.admitted ds) s := by
    rw [state_eq, run_registerAll hdistinct]
    cases ds.find? fun d => s.contains d.name <;> rfl
  have hadmitted : ((s.admitted ds).map fun d => d.name).Nodup :=
    hdistinct.sublist ((List.takeWhile_sublist _).map _)
  have hfree : ∀ d ∈ s.admitted ds, s.contains d.name = false := fun d => free_of_mem_admitted
  rw [hstate]
  exact ⟨hfree, find?_stateAfter_register _ s,
    (enumerates_definitions _).perm (enumerates_append hadmitted hfree)⟩

end InstructionSet

/-- What a definition makes of an instruction that carries it. -/
def Definition.handle {ι : Type} [Host ι] (d : Definition ι) (i : Instruction ι) : Exec ι Unit :=
  match d.action with
  | .standard op => op.perform i
  | .host op => Host.perform op i

theorem Instruction.perform_of_defined {ι : Type} [Host ι] {i : Instruction ι} {d : Definition ι}
    (h : i.opcode = .defined d) : i.perform = d.handle i := by
  unfold Instruction.perform
  rw [h]
  rfl

namespace Standard

open InstructionSet Attempt

variable {ι : Type}

/-- The names of the standard operations, in the order in which these are registered. -/
def names : List String := ["ldc", "ldo", "sro", "print", "new", "enter", "ujp", "halt"]

/-- The standard definitions, in the same order. -/
def reference : List (Definition ι) := all.map definition

theorem map_name_reference : ((reference : List (Definition ι)).map fun d => d.name) = names :=
  rfl

theorem nodup_name_reference :
    ((reference : List (Definition ι)).map fun d => d.name).Nodup := by
  rw [map_name_reference]
  decide

theorem registerAll_reference :
    registerAll (reference : List (Definition ι)) = (do
      registerAll (loadAndStore.map definition)
      registerAll (output.map definition)
      registerAll (storage.map definition)
      registerAll (control.map definition)) := by
  rw [reference, all, List.map_append, List.map_append, List.map_append, registerAll_append,
    registerAll_append, registerAll_append, bind_assoc, bind_assoc]

theorem result_registerAll_reference (s : InstructionSet ι) :
    (registerAll reference).result s =
      match names.find? s.contains with
      | none => .ok ()
      | some name => .error (.duplicateOpcode name) := by
  have hfind : names.find? s.contains =
      (reference.find? fun d => s.contains d.name).map fun d : Definition ι => d.name := by
    rw [← map_name_reference (ι := ι), List.find?_map]
    rfl
  rw [result, run_registerAll nodup_name_reference, hfind]
  cases reference.find? fun d => s.contains d.name <;> rfl

/-- The standard definitions on any set `s`. They are all registered exactly if `s` holds none of
their names; otherwise the first name that it holds is refused, and the set that is left has the
definitions of the names before that one and nothing else new. Whatever `s` held stays, and an
instruction built from `s` goes on to do what the definition does that the set has for it. -/
theorem registration_stops_at_first_taken_name [Host ι] (s : InstructionSet ι) :
    let registration := registerAll (reference : List (Definition ι))
    let t := registration.state s
    ((reference : List (Definition ι)).map fun d => d.name) = names ∧
    registration = (do
      registerAll (loadAndStore.map definition)
      registerAll (output.map definition)
      registerAll (storage.map definition)
      registerAll (control.map definition)) ∧
    (registration.result s = .ok () ↔ ∀ name ∈ names, s.contains name = false) ∧
    (registration.result s =
      match names.find? s.contains with
      | none => .ok ()
      | some name => .error (.duplicateOpcode name)) ∧
    Adds s (reference.takeWhile fun d => !s.contains d.name) t ∧
    (∀ name d, s.find? name = some d → t.find? name = some d) ∧
    ∀ name built, s.instruction name = .ok built →
      t.instruction name = .ok built ∧
      ∃ d, s.find? name = some d ∧ t.find? name = some d ∧
        ∀ i, i.opcode = built.opcode →
          i.perform = d.handle i ∧
          ∀ m : Machine ι, m.running = true → m.current? = some i →
            Machine.step.run m = (d.handle i).run m.advance := by
  intro registration t
  have hresult := result_registerAll_reference s
  have hadds : Adds s (s.admitted reference) t := adds_admitted nodup_name_reference s
  refine ⟨map_name_reference, registerAll_reference, ?_, hresult, hadds,
    fun _ _ => hadds.find?_of_some, ?_⟩
  · rw [hresult]
    cases hfirst : names.find? s.contains with
    | none => simpa using List.find?_eq_none.mp hfirst
    | some name =>
        have htaken := List.find?_some hfirst
        have hmem := List.mem_of_find?_eq_some hfirst
        simp only [reduceCtorEq, false_iff]
        intro hfree
        rw [hfree name hmem] at htaken
        cases htaken
  · intro name built hbuilt
    obtain ⟨d, hfound, rfl⟩ := instruction_eq_ok_iff.mp hbuilt
    have hkept := hadds.find?_of_some hfound
    refine ⟨instruction_eq_ok_iff.mpr ⟨d, hkept, rfl⟩, d, hfound, hkept, ?_⟩
    intro i hopcode
    have hperform := Instruction.perform_of_defined hopcode
    refine ⟨hperform, ?_⟩
    intro m hrunning hcurrent
    rw [Machine.run_step_of_current hrunning hcurrent, hperform]

/-- A set with a definition of its own for the output operation gets the three operations that
are registered before that one, and goes on to stop the machine where it would print. -/
theorem own_print_ends_registration :
    let s := registered [silencer]
    let t := (registerAll reference).state s
    (registerAll reference).result s = .error (.duplicateOpcode "print") ∧
    t.definitions.Perm [silencer, ldc.definition, ldo.definition, sro.definition] ∧
    t.find? "print" = some silencer ∧
    ∀ i : Instruction Empty, i.opcode = .defined silencer → i.perform = halt.perform i := by
  intro s t
  have hown : s.find? "print" = some silencer := rfl
  obtain ⟨-, -, -, hresult, hadds, hkept, hbuilt⟩ := registration_stops_at_first_taken_name s
  refine ⟨hresult, hadds.listed, hkept "print" silencer hown, ?_⟩
  intro i hopcode
  obtain ⟨-, d, hfound, -, hdispatch⟩ := hbuilt "print" { opcode := .defined silencer } rfl
  cases hown.symm.trans hfound
  exact (hdispatch i hopcode).1

end Standard

end CellMachine
