import CellMachine.Machine.Basic

/-!
Snapshots: all that execution changes in a machine, at one moment. The program
store and its breakpoints are not part of it.
-/

namespace CellMachine

structure Snapshot where
  registers : Registers
  memory : Memory
  output : String
  running : Bool
deriving DecidableEq, Repr

def Machine.snapshot {ι : Type} (m : Machine ι) : Snapshot where
  registers := m.registers
  memory := m.memory
  output := m.output.text
  running := m.running

namespace Snapshot

/-- Snapshots agree when registers, text and state of running are the same and
the memories agree. One with a NaN in memory does not agree with itself. -/
def equals (s t : Snapshot) : Bool :=
  s.registers == t.registers && s.memory.equals t.memory &&
    s.output == t.output && s.running == t.running

def stackDepth (s : Snapshot) : Nat := s.registers.stackDepth

/-- The number of cells from `hp` upwards, none when `hp` is negative. -/
def heapSize (s : Snapshot) : Nat :=
  if s.registers.hp < 0 then 0 else s.memory.size - s.registers.hp.toInt.toNat

end Snapshot

end CellMachine
