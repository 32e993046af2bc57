import CellMachine.Program
import CellMachine.StandardSet

/-!
Four small programs that show the machine at work.
-/

namespace CellMachine

inductive Demo where
  /-- Prints a seeded cell and a constant. -/
  | globals
  /-- Allocates two blocks and prints where they are. -/
  | heap
  /-- Pushes in a loop until the stack is full. -/
  | overflow
  /-- Prints once and never halts. -/
  | spin
deriving DecidableEq, Repr

namespace Demo

def all : List Demo := [.globals, .heap, .overflow, .spin]

def name : Demo → String
  | .globals => "globals"
  | .heap => "heap"
  | .overflow => "overflow"
  | .spin => "spin"

def ofName? (s : String) : Option Demo := all.find? fun d => d.name == s

def title : Demo → String
  | .globals => "Globals"
  | .heap => "Heap"
  | .overflow => "Overflow"
  | .spin => "Spin"

/-- The double 2.0. -/
def two : Binary64 := ⟨0x4000000000000000⟩

def program : Demo → Program Empty
  | .globals =>
      { instructions :=
          [{ Standard.ldo.instruction (some (.int 20)) with
             comment := Remark.ofString? "seeded global" },
            Standard.print.instruction,
            Standard.ldc.instruction (some (.int 42)),
            Standard.print.instruction,
            Standard.halt.instruction]
        overlay := [⟨20, .float two⟩] }
  | .heap =>
      { instructions :=
          [Standard.ldc.instruction (some (.int 3)),
            Standard.new.instruction,
            Standard.print.instruction,
            Standard.ldc.instruction (some (.int 4)),
            Standard.new.instruction,
            Standard.print.instruction,
            Standard.halt.instruction] }
  | .overflow =>
      { instructions :=
          [{ Standard.ldc.instruction (some (.int 1)) with label := Remark.ofString? "loop" },
            Standard.ujp.instruction (some (.label "loop"))] }
  | .spin =>
      { instructions :=
          [Standard.ldc.instruction (some (.int 7)), Standard.print.instruction] }

end Demo

end CellMachine
