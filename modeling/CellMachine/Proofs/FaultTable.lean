import CellMachine.Proofs.HeldProgram
import CellMachine.Proofs.InOrder

/-!
The faults of the standard operations. For each operation there is a list of checks
in the order in which they are made, every check with its condition and its fault.
On a machine whose zones are in order the list is complete: an operation fails with
the first fault that applies, and if none applies it has its effect.
-/

namespace CellMachine

variable {ι : Type}

namespace Fault

/-- The fault, if the condition holds. -/
def when (f : Fault) (condition : Prop) [Decidable condition] : Option Fault :=
  if condition then some f else none

/-- The first fault among checks that need not have one. -/
def first? (checks : List (Option Fault)) : Option Fault := checks.findSome? id

theorem when_pos {f : Fault} {p : Prop} [Decidable p] (h : p) : f.when p = some f :=
  if_pos h

theorem when_neg {f : Fault} {p : Prop} [Decidable p] (h : ¬ p) : f.when p = none :=
  if_neg h

theorem first?_none (rest : List (Option Fault)) :
    first? (none :: rest) = first? rest := rfl

theorem mem_of_first? {checks : List (Option Fault)} {f : Fault} (h : first? checks = some f) :
    some f ∈ checks := by
  obtain ⟨check, member, rfl⟩ := List.exists_of_findSome?_eq_some h
  exact member

theorem eq_of_when {f g : Fault} {p : Prop} [Decidable p] (h : f.when p = some g) : f = g := by
  unfold when at h
  split at h
  next => exact Option.some.inj h
  next => cases h

theorem first?_eq_none_iff {checks : List (Option Fault)} :
    first? checks = none ↔ ∀ check ∈ checks, check = none := by
  rw [first?, List.findSome?_eq_none_iff]
  rfl

end Fault

/-- The payload of an integer or a pointer. -/
def Value.word? : Value → Option Word
  | .int n | .ptr n => some n
  | .float _ | .label _ => none

namespace Instruction

/-- The first argument is missing. -/
def missing? (i : Instruction ι) : Option Fault :=
  (Fault.missingArgument i.name 1).when (i.first = none)

/-- The first argument stands for no address: it is missing, it is a double, or it is
a label without a slot. -/
def unaddressed? (i : Instruction ι) (slotOf : String → Option Nat) : Option Fault :=
  match i.first with
  | none => some (.missingArgument i.name 1)
  | some (.float _) => some (.invalidAddressArgument i.name .float)
  | some (.label l) => (Fault.unresolvableLabel l).when (slotOf l = none)
  | some (.int _) | some (.ptr _) => none

/-- The first argument stands for an address that no cell has. -/
def outside? (i : Instruction ι) (slotOf : String → Option Nat) (size : Nat) :
    Option Fault :=
  match i.address slotOf with
  | .ok a => (Fault.addressOutOfRange a size).when (a.Outside size)
  | .error _ => none

/-- The value is a double or a label, where an integer or a pointer is wanted. -/
def mismatched? (i : Instruction ι) (v : Value) : Option Fault :=
  match v with
  | .float _ => some (.typeMismatch i.name .float)
  | .label _ => some (.typeMismatch i.name .label)
  | .int _ | .ptr _ => none

end Instruction

namespace Machine

/-- The counter is outside the store. -/
def strayed? (m : Machine ι) : Option Fault :=
  (Fault.programCounterOutOfRange m.registers.pc m.store.size).when
    (m.registers.pc.Outside m.store.size)

/-- The stack is up to its ceiling. -/
def overflow? (m : Machine ι) : Option Fault :=
  (Fault.stackOverflow m.registers.sp m.registers.ep m.registers.hp).when
    (m.registers.sp.toInt + 1 = m.registers.ep.toInt)

/-- The stack is empty. -/
def underflow? (m : Machine ι) : Option Fault :=
  (Fault.stackUnderflow m.registers.sp).when (m.registers.sp.toInt = -1)

/-- A block of `n` cells would reach below the ceiling. -/
def exhausted? (m : Machine ι) (n : Word) : Option Fault :=
  (Fault.outOfMemory n.toInt.toNat m.registers.ep m.registers.hp).when
    (m.registers.hp.toInt - n.toInt < m.registers.ep.toInt)

/-- A frame of `n` cells would reach the heap. -/
def crowded? (m : Machine ι) (n : Word) : Option Fault :=
  (Fault.stackOverflow m.seated.registers.sp m.registers.ep m.registers.hp).when
    (m.registers.hp.toInt ≤ max m.registers.sp.toInt 0 + n.toInt)

end Machine

/-- What an operation can have done to the stack before it fails. -/
inductive Progress where
  | none
  /-- The operand has been popped. -/
  | popped
  /-- An empty stack has been made one cell deep. -/
  | seated
deriving DecidableEq, Repr

/-- The machine that is left. -/
def Progress.leave (p : Progress) (m : Machine ι) : Machine ι :=
  match p with
  | .none => m
  | .popped => m.popped
  | .seated => m.seated

namespace Standard

open Machine

/-- The checks of an operation in the order in which they are made. -/
def faults (op : Standard) (slotOf : String → Option Nat) (i : Instruction ι)
    (m : Machine ι) : List (Option Fault) :=
  match op with
  | .ldc => [i.missing?, m.overflow?]
  | .ldo => [i.unaddressed? slotOf, i.outside? slotOf m.memory.size, m.overflow?]
  | .sro => [i.unaddressed? slotOf, m.underflow?, i.outside? slotOf m.memory.size]
  | .print => [m.underflow?]
  | .new =>
      [m.underflow?,
        m.top?.bind i.mismatched?,
        (m.top?.bind Value.word?).bind fun n =>
          (Fault.invalidAllocationSize i.name n).when (n.toInt < 0),
        (m.top?.bind Value.word?).bind m.exhausted?]
  | .enter =>
      [i.missing?,
        i.first.bind i.mismatched?,
        (i.first.bind Value.word?).bind fun n =>
          (Fault.invalidFrameSize n).when (n.toInt < 1),
        (i.first.bind Value.word?).bind m.crowded?]
  | .ujp => [i.unaddressed? slotOf]
  | .halt => []

/-- How far an operation has come with the stack when it meets a fault: two of them
pop their operand before some of their checks, and one seats the stack. -/
def progress : Standard → Fault → Progress
  | .sro, .addressOutOfRange .. => .popped
  | .new, .typeMismatch .. | .new, .invalidAllocationSize .. | .new, .outOfMemory .. =>
      .popped
  | .enter, .stackOverflow .. => .seated
  | _, _ => .none

/-- What an operation does when it succeeds. -/
def effect (op : Standard) (i : Instruction ι) (m : Machine ι) : Machine ι :=
  match op with
  | .ldc => (i.first.map m.pushed).getD m
  | .ldo =>
      match i.address m.labelSlot? with
      | .ok a => ((m.memory.cell? a).map m.pushed).getD m
      | .error _ => m
  | .sro =>
      match i.address m.labelSlot?, m.top? with
      | .ok a, some v => { m.popped with memory := m.memory.put a v }
      | _, _ => m
  | .print => (m.top?.map m.popped.print).getD m
  | .new =>
      match m.top?.bind Value.word? with
      | some n =>
          { m with
            memory := m.memory.put m.registers.sp (.ptr (m.registers.hp - n))
            registers := { m.registers with hp := m.registers.hp - n } }
      | none => m
  | .enter =>
      match i.first.bind Value.word? with
      | some n =>
          { m.seated with
            registers := { m.seated.registers with ep := m.seated.registers.sp + n } }
      | none => m
  | .ujp =>
      match i.address m.labelSlot? with
      | .ok a => m.jump a
      | .error _ => m
  | .halt => m.halt

/-- How an operation ends and what it leaves, by its checks. -/
def outcome (op : Standard) (i : Instruction ι) (m : Machine ι) :
    EStateM.Result Fault (Machine ι) Unit :=
  match Fault.first? (op.faults m.labelSlot? i m) with
  | some f => .error f ((op.progress f).leave m)
  | none => .ok () (op.effect i m)

end Standard

namespace Instruction

variable {i : Instruction ι} {slotOf : String → Option Nat}

theorem argument_of_none (h : i.first = none) :
    i.argument .first = .error (.missingArgument i.name 1) := by
  rw [argument, argument?, h]
  rfl

theorem argument_of_some {v : Value} (h : i.first = some v) : i.argument .first = .ok v := by
  rw [argument, argument?, h]

/-- The check gives the fault with which the address is refused. -/
theorem unaddressed?_eq (i : Instruction ι) (slotOf : String → Option Nat) :
    i.unaddressed? slotOf =
      match i.address slotOf with
      | .ok _ => none
      | .error f => some f := by
  unfold unaddressed? address
  cases i.first with
  | none => rfl
  | some v =>
      cases v with
      | int a => rfl
      | ptr a => rfl
      | float x => rfl
      | label l =>
          dsimp only
          cases slotOf l with
          | none => exact Fault.when_pos rfl
          | some slot => exact Fault.when_neg (by simp)

theorem unaddressed?_of_ok {a : Word} (h : i.address slotOf = .ok a) :
    i.unaddressed? slotOf = none := by
  rw [unaddressed?_eq, h]

theorem unaddressed?_of_error {f : Fault} (h : i.address slotOf = .error f) :
    i.unaddressed? slotOf = some f := by
  rw [unaddressed?_eq, h]

/-- There are three ways to stand for no address. -/
theorem unaddressed?_cases {f : Fault} (h : i.unaddressed? slotOf = some f) :
    f = .missingArgument i.name 1 ∨ f = .invalidAddressArgument i.name .float ∨
      ∃ l, f = .unresolvableLabel l := by
  unfold unaddressed? at h
  split at h
  next =>
    cases h
    exact Or.inl rfl
  next =>
    cases h
    exact Or.inr (Or.inl rfl)
  next l _ => exact Or.inr (Or.inr ⟨l, (Fault.eq_of_when h).symm⟩)
  next => cases h
  next => cases h

theorem outside?_cases {size : Nat} {f : Fault} (h : i.outside? slotOf size = some f) :
    ∃ a, f = .addressOutOfRange a size := by
  unfold outside? at h
  split at h
  next a _ => exact ⟨a, (Fault.eq_of_when h).symm⟩
  next => cases h

theorem mismatched?_cases {v : Value} {f : Fault} (h : i.mismatched? v = some f) :
    ∃ kind, f = .typeMismatch i.name kind := by
  cases v with
  | float x =>
      cases h
      exact ⟨_, rfl⟩
  | label l =>
      cases h
      exact ⟨_, rfl⟩
  | int n => cases h
  | ptr n => cases h

theorem outside?_of_ok {a : Word} (h : i.address slotOf = .ok a) (size : Nat) :
    i.outside? slotOf size = (Fault.addressOutOfRange a size).when (a.Outside size) := by
  rw [outside?, h]

theorem missing?_of_some {v : Value} (h : i.first = some v) : i.missing? = none :=
  Fault.when_neg (by rw [h]; simp)

/-- A payload is taken from exactly the values that are not refused for their kind. -/
theorem wordOf_eq (i : Instruction ι) (v : Value) :
    (∃ n, i.wordOf v = .ok n ∧ v.word? = some n ∧ i.mismatched? v = none) ∨
      ∃ kind, i.wordOf v = .error (.typeMismatch i.name kind) ∧
        i.mismatched? v = some (.typeMismatch i.name kind) := by
  cases v with
  | int n => exact Or.inl ⟨n, rfl, rfl, rfl⟩
  | ptr n => exact Or.inl ⟨n, rfl, rfl, rfl⟩
  | float x => exact Or.inr ⟨.float, rfl, rfl⟩
  | label l => exact Or.inr ⟨.label, rfl, rfl⟩

end Instruction

namespace Machine

variable {m : Machine ι}

theorem InOrder.underflow?_of_none (h : m.InOrder) (htop : m.top? = none) :
    m.underflow? = some (.stackUnderflow m.registers.sp) :=
  Fault.when_pos (h.top?_eq_none_iff.mp htop)

theorem InOrder.underflow?_of_some (h : m.InOrder) {v : Value} (htop : m.top? = some v) :
    m.underflow? = none :=
  Fault.when_neg (h.sp_ne_of_some htop)

end Machine

namespace Standard

open Machine

variable {m : Machine ι} {i : Instruction ι}

theorem outcome_of_fault {op : Standard} {f : Fault}
    (h : Fault.first? (op.faults m.labelSlot? i m) = some f) :
    op.outcome i m = .error f ((op.progress f).leave m) := by
  rw [outcome, h]

theorem outcome_of_none {op : Standard}
    (h : Fault.first? (op.faults m.labelSlot? i m) = none) :
    op.outcome i m = .ok () (op.effect i m) := by
  rw [outcome, h]

theorem faults_advance (op : Standard) (slotOf : String → Option Nat) (i : Instruction ι)
    (m : Machine ι) : op.faults slotOf i m.advance = op.faults slotOf i m := by
  cases op <;> rfl

/-- The kinds of fault that an operation can fail with. -/
def MayRaise : Standard → Fault → Prop
  | .ldc, .missingArgument .. | .ldc, .stackOverflow .. => True
  | .ldo, .missingArgument .. | .ldo, .invalidAddressArgument .. => True
  | .ldo, .unresolvableLabel .. | .ldo, .addressOutOfRange .. => True
  | .ldo, .stackOverflow .. => True
  | .sro, .missingArgument .. | .sro, .invalidAddressArgument .. => True
  | .sro, .unresolvableLabel .. | .sro, .stackUnderflow .. => True
  | .sro, .addressOutOfRange .. => True
  | .print, .stackUnderflow .. => True
  | .new, .stackUnderflow .. | .new, .typeMismatch .. => True
  | .new, .invalidAllocationSize .. | .new, .outOfMemory .. => True
  | .enter, .missingArgument .. | .enter, .typeMismatch .. => True
  | .enter, .invalidFrameSize .. | .enter, .stackOverflow .. => True
  | .ujp, .missingArgument .. | .ujp, .invalidAddressArgument .. => True
  | .ujp, .unresolvableLabel .. => True
  | _, _ => False

theorem mayRaise_of_mem_faults {op : Standard} {slotOf : String → Option Nat} {f : Fault}
    (member : some f ∈ op.faults slotOf i m) : op.MayRaise f := by
  cases op <;> simp only [faults, List.mem_cons, List.not_mem_nil, or_false] at member
  case ldc =>
    rcases member with hmissing | hfull
    · cases Fault.eq_of_when hmissing.symm
      trivial
    · cases Fault.eq_of_when hfull.symm
      trivial
  case ldo =>
    rcases member with hargument | houtside | hfull
    · obtain rfl | rfl | ⟨l, rfl⟩ := Instruction.unaddressed?_cases hargument.symm <;>
        trivial
    · obtain ⟨a, rfl⟩ := Instruction.outside?_cases houtside.symm
      trivial
    · cases Fault.eq_of_when hfull.symm
      trivial
  case sro =>
    rcases member with hargument | hempty | houtside
    · obtain rfl | rfl | ⟨l, rfl⟩ := Instruction.unaddressed?_cases hargument.symm <;>
        trivial
    · cases Fault.eq_of_when hempty.symm
      trivial
    · obtain ⟨a, rfl⟩ := Instruction.outside?_cases houtside.symm
      trivial
  case print =>
    cases Fault.eq_of_when member.symm
    trivial
  case new =>
    rcases member with hempty | hkind | hneg | hroom
    · cases Fault.eq_of_when hempty.symm
      trivial
    · obtain ⟨v, _, hv⟩ := Option.bind_eq_some_iff.mp hkind.symm
      obtain ⟨kind, rfl⟩ := Instruction.mismatched?_cases hv
      trivial
    · obtain ⟨n, _, hn⟩ := Option.bind_eq_some_iff.mp hneg.symm
      cases Fault.eq_of_when hn
      trivial
    · obtain ⟨n, _, hn⟩ := Option.bind_eq_some_iff.mp hroom.symm
      cases Fault.eq_of_when hn
      trivial
  case enter =>
    rcases member with hmissing | hkind | hsmall | hroom
    · cases Fault.eq_of_when hmissing.symm
      trivial
    · obtain ⟨v, _, hv⟩ := Option.bind_eq_some_iff.mp hkind.symm
      obtain ⟨kind, rfl⟩ := Instruction.mismatched?_cases hv
      trivial
    · obtain ⟨n, _, hn⟩ := Option.bind_eq_some_iff.mp hsmall.symm
      cases Fault.eq_of_when hn
      trivial
    · obtain ⟨n, _, hn⟩ := Option.bind_eq_some_iff.mp hroom.symm
      cases Fault.eq_of_when hn
      trivial
  case ujp =>
    obtain rfl | rfl | ⟨l, rfl⟩ := Instruction.unaddressed?_cases member.symm <;> trivial

/-- A failed operation has met one of its faults and leaves what it had done by then. -/
theorem outcome_eq_error {op : Standard} {f : Fault} {n : Machine ι}
    (h : op.outcome i m = .error f n) :
    op.MayRaise f ∧ n = (op.progress f).leave m := by
  unfold outcome at h
  split at h
  next g hfirst =>
    cases h
    exact ⟨mayRaise_of_mem_faults (Fault.mem_of_first? hfirst), rfl⟩
  next => cases h

end Standard

/-- The checks of an instruction in the order in which they are made. Padding has none. -/
def Instruction.faults (i : Instruction ι) (slotOf : String → Option Nat) (m : Machine ι) :
    List (Option Fault) :=
  match i.operation? with
  | some op => op.faults slotOf i m
  | none => []

end CellMachine
