import CellMachine.Word

/-!
The sizes of a machine, which are fixed when it is made. A configuration has a
flaw when a bank would be empty, when some cell would have no address, or when
the stack may not fit into memory.
-/

namespace CellMachine

structure Config where
  /-- Slots of the program store. -/
  storeSize : Nat
  /-- Cells of main memory, which stack and heap share. -/
  memorySize : Nat
  /-- Cells below the first ceiling of the stack. -/
  maxStack : Nat
deriving DecidableEq, Repr

namespace Config

protected def default : Config := ⟨1024, 1024, 512⟩

inductive Flaw where
  | emptyStore
  | emptyMemory
  | unaddressableMemory (size : Nat)
  | stackTooLarge (stack memory : Nat)
deriving DecidableEq, Repr

def Flaw.message : Flaw → String
  | .emptyStore => "program store size must be positive"
  | .emptyMemory => "main memory size must be positive"
  | .unaddressableMemory size => s!"main memory size {size} is not addressable"
  | .stackTooLarge stack memory =>
      s!"max stack size {stack} exceeds main memory size {memory}"

/-- The first flaw of a configuration. -/
def flaw? (c : Config) : Option Flaw :=
  if c.storeSize = 0 then
    some .emptyStore
  else if c.memorySize = 0 then
    some .emptyMemory
  else if (Word.ofNat? c.memorySize).isNone then
    some (.unaddressableMemory c.memorySize)
  else if c.memorySize < c.maxStack then
    some (.stackTooLarge c.maxStack c.memorySize)
  else
    none

end Config

end CellMachine
