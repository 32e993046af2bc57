import CellMachine.Machine.Zones

/-!
Labels and addresses. An argument names an address directly, by an integer or a
pointer, or by the label of an instruction. A label stands for the first slot
that carries it.
-/

namespace CellMachine.Machine

variable {ι : Type}

/-- The slot of a label, from the index that was made when the program was loaded. -/
def labelSlot? (m : Machine ι) (label : String) : Option Nat := m.labels[label]?

/-- The slot of a label, by a search through the store. -/
def searchLabel? (m : Machine ι) (label : String) : Option Nat :=
  m.store.findIdx? (·.hasLabel label)

/-- The address that a value stands for as an argument of the named instruction. -/
def resolve (m : Machine ι) (instruction : String) : Value → Except Fault Word
  | .int address | .ptr address => .ok address
  | .label label =>
      match m.labelSlot? label with
      | some slot => .ok (Word.wrap slot)
      | none => .error (.unresolvableLabel label)
  | v@(.float _) => .error (.invalidAddressArgument instruction v.kind)

/-- The address that the first argument of an instruction stands for. -/
def target (i : Instruction ι) : Exec ι Word := fun m =>
  match i.argument .first >>= m.resolve i.name with
  | .ok address => .ok address m
  | .error f => .error f m

end CellMachine.Machine
