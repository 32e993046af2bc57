import CellMachine.Config

/-!
What can go wrong before a program runs: while a machine is made, while an
instruction set is filled, and while a program is loaded or marked.
-/

namespace CellMachine

inductive LoadError where
  | invalidConfig (flaw : Config.Flaw)
  | unknownOpcode (name : String)
  | duplicateOpcode (name : String)
  | programTooLarge (length capacity : Nat)
  | overlayAddressOutOfRange (address : Word) (size : Nat)
  | instructionIndexOutOfRange (index capacity : Nat)
deriving DecidableEq, Repr

def LoadError.message : LoadError → String
  | .invalidConfig flaw => "Invalid machine configuration: " ++ flaw.message
  | .unknownOpcode name => s!"Unknown opcode '{name}'"
  | .duplicateOpcode name => s!"Opcode '{name}' is already registered"
  | .programTooLarge length capacity =>
      s!"Program has {length} instructions but the program store holds {capacity}"
  | .overlayAddressOutOfRange address size =>
      s!"Memory overlay address {address} outside main memory of {size} cells"
  | .instructionIndexOutOfRange index capacity =>
      s!"Instruction index {index} outside program store of {capacity} instructions"

end CellMachine
