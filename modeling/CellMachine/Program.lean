import CellMachine.Instruction
import CellMachine.Memory

/-!
A program: its instructions and the cells that it wants seeded at every start.
-/

namespace CellMachine

structure Program (ι : Type) where
  instructions : List (Instruction ι)
  overlay : List Seed := []

namespace Program

variable {ι : Type}

def length (p : Program ι) : Nat := p.instructions.length

/-- The first seed that a memory of `size` cells has no cell for. -/
def misplaced? (p : Program ι) (size : Nat) : Option Seed :=
  p.overlay.find? fun s => decide (s.Outside size)

/-- The instructions, followed by padding up to `capacity` slots. -/
def padded (p : Program ι) (capacity : Nat) : Array (Instruction ι) :=
  (p.instructions ++ List.replicate (capacity - p.length) Instruction.padding).toArray

end Program

end CellMachine
