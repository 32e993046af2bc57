import CellMachine.Value

/-!
What can go wrong while an instruction runs. A fault ends the instruction and
leaves the machine running, with all that was done before the fault.
-/

namespace CellMachine

inductive Fault where
  /-- The stack would reach its ceiling, or the ceiling would reach the heap. -/
  | stackOverflow (sp ep hp : Word)
  | stackUnderflow (sp : Word)
  /-- The heap would reach below the ceiling of the stack. -/
  | outOfMemory (requested : Nat) (ep hp : Word)
  /-- A value of this kind stands for no address. -/
  | invalidAddressArgument (instruction : String) (kind : Kind)
  /-- A value of this kind has no integer payload. -/
  | typeMismatch (instruction : String) (kind : Kind)
  | unresolvableLabel (label : String)
  | programCounterOutOfRange (pc : Word) (capacity : Nat)
  | addressOutOfRange (address : Word) (size : Nat)
  | missingArgument (instruction : String) (position : Nat)
  | invalidFrameSize (requested : Word)
  | invalidAllocationSize (instruction : String) (requested : Word)
deriving DecidableEq, Repr

def Fault.message : Fault → String
  | .stackOverflow sp ep hp => s!"Stack overflow: SP={sp} EP={ep} HP={hp}"
  | .stackUnderflow sp =>
      s!"Stack underflow: attempt to pop on empty stack (SP={sp})"
  | .outOfMemory requested ep hp =>
      s!"Out of memory: requested {requested} cells with EP={ep} HP={hp}"
  | .invalidAddressArgument instruction kind =>
      s!"Unable to convert {kind.name} argument of instruction {instruction} to a physical address"
  | .typeMismatch instruction kind =>
      s!"Argument for instruction {instruction} must be an int or a ptr, not {kind.name}"
  | .unresolvableLabel label => s!"Unresolvable label '{label}'"
  | .programCounterOutOfRange pc capacity =>
      s!"Program counter {pc} outside program store of {capacity} instructions"
  | .addressOutOfRange address size =>
      s!"Address {address} outside main memory of {size} cells"
  | .missingArgument instruction position =>
      s!"Instruction {instruction} requires argument {position}"
  | .invalidFrameSize requested =>
      s!"Frame size must be at least 1, got {requested}"
  | .invalidAllocationSize instruction requested =>
      s!"Instruction {instruction} cannot allocate {requested} cells"

end CellMachine
