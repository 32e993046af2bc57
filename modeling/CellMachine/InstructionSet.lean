import CellMachine.Attempt
import CellMachine.Instruction
import CellMachine.LoadError
import Std.Data.TreeMap.Lemmas

/-!
Instruction sets: definitions by name. The first definition of a name stays, and
a second one is refused. Definitions are listed in the order of their names.
-/

namespace CellMachine

/-- Every definition is filed under its own name. -/
structure InstructionSet (ι : Type) where
  entries : Std.TreeMap String (Definition ι)
  named : ∀ (name : String) (d : Definition ι), entries[name]? = some d → d.name = name

namespace InstructionSet

variable {ι : Type}

def empty : InstructionSet ι where
  entries := ∅
  named := by simp

def find? (s : InstructionSet ι) (name : String) : Option (Definition ι) :=
  s.entries[name]?

def contains (s : InstructionSet ι) (name : String) : Bool := s.entries.contains name

def size (s : InstructionSet ι) : Nat := s.entries.size

def isEmpty (s : InstructionSet ι) : Bool := s.entries.isEmpty

/-- All definitions in the order of their names. -/
def definitions (s : InstructionSet ι) : List (Definition ι) := s.entries.toList.map Prod.snd

/-- Files a definition under its name, in place of an earlier one. -/
def insert (s : InstructionSet ι) (d : Definition ι) : InstructionSet ι where
  entries := s.entries.insert d.name d
  named := by
    intro name e h
    rw [Std.TreeMap.getElem?_insert] at h
    split at h
    next same =>
      cases h
      exact Std.LawfulEqCmp.eq_of_compare same
    next => exact s.named name e h

/-- Adds a definition under a name that is still free. -/
def register (d : Definition ι) : Attempt LoadError (InstructionSet ι) Unit := fun s =>
  if s.contains d.name then
    .error (.duplicateOpcode d.name) s
  else
    .ok () (s.insert d)

/-- Adds definitions in order, up to the first whose name is taken. -/
def registerAll (ds : List (Definition ι)) : Attempt LoadError (InstructionSet ι) Unit :=
  ds.forM register

/-- The instruction without arguments for a name. -/
def instruction (s : InstructionSet ι) (name : String) : Except LoadError (Instruction ι) :=
  match s.find? name with
  | some d => .ok { opcode := .defined d }
  | none => .error (.unknownOpcode name)

end InstructionSet

end CellMachine
