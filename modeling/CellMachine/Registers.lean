import CellMachine.Config

/-!
The five registers. The stack occupies the cells `0` to `sp` and may grow while
it stays below `ep`; the heap occupies the cells from `hp` upwards. Registers are
plain words that instructions and hosts may set, so whether they describe such a
layout is a property of their values.
-/

namespace CellMachine

structure Registers where
  /-- The program-store index of the next instruction. -/
  pc : Word
  /-- The frame pointer, which is left to the instructions. -/
  fp : Word
  /-- The top cell of the stack, `-1` when the stack is empty. -/
  sp : Word
  /-- The extension pointer, the ceiling of the stack. -/
  ep : Word
  /-- The lowest cell of the heap. -/
  hp : Word
deriving DecidableEq, Repr

namespace Registers

/-- The registers of a machine that starts. Sizes beyond the words wrap. -/
def initial (c : Config) : Registers where
  pc := 0
  fp := 0
  sp := -1
  ep := Word.wrap c.maxStack
  hp := Word.wrap c.memorySize

/-- Stack, free cells and heap follow one another in a memory of `size` cells. -/
def Consistent (r : Registers) (size : Nat) : Prop :=
  r.sp < r.ep ∧ r.ep ≤ r.hp ∧ r.hp ≤ Word.wrap size

instance (r : Registers) (size : Nat) : Decidable (r.Consistent size) :=
  inferInstanceAs (Decidable (_ ∧ _ ∧ _))

/-- The number of cells that the stack occupies. -/
def stackDepth (r : Registers) : Nat := (r.sp + 1).toInt.toNat

end Registers

end CellMachine
