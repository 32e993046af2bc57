import CellMachine.Attempt
import CellMachine.Fault
import CellMachine.Word

/-!
Main memory: a fixed number of cells, addressed by words from zero. A seed is a
cell content that a program wants in place when it starts.
-/

namespace CellMachine

structure Seed where
  address : Word
  value : Value
deriving DecidableEq, Repr

/-- No memory of `size` cells has the cell that the seed is meant for. -/
def Seed.Outside (s : Seed) (size : Nat) : Prop :=
  s.address.toInt < 0 ∨ (size : Int) ≤ s.address.toInt

instance (s : Seed) (size : Nat) : Decidable (s.Outside size) :=
  inferInstanceAs (Decidable (_ ∨ _))

structure Memory where
  cells : Array Value
deriving DecidableEq, Repr

namespace Memory

/-- A memory in which every cell is zero. -/
def zeros (size : Nat) : Memory := ⟨Array.replicate size Value.zero⟩

def size (m : Memory) : Nat := m.cells.size

/-- The cell at an address. -/
def locate (m : Memory) (address : Word) : Except Fault (Fin m.cells.size) :=
  match Word.index? address m.cells.size with
  | some i => .ok i
  | none => .error (.addressOutOfRange address m.cells.size)

def read (m : Memory) (address : Word) : Except Fault Value :=
  match m.locate address with
  | .ok i => .ok m.cells[i]
  | .error f => .error f

def set (m : Memory) (i : Fin m.cells.size) (v : Value) : Memory :=
  ⟨m.cells.set i v⟩

def write (address : Word) (v : Value) : Attempt Fault Memory Unit := fun m =>
  match m.locate address with
  | .ok i => .ok () (m.set i v)
  | .error f => .error f m

/-- Makes every cell zero. -/
def clear (m : Memory) : Memory := zeros m.size

/-- Writes the seeds in order up to the first that has no cell. -/
def sow (seeds : List Seed) : Attempt Fault Memory Unit :=
  seeds.forM fun s => write s.address s.value

/-- Two memories agree when they have as many cells and these agree in order. -/
def equals (m n : Memory) : Bool := m.cells.isEqv n.cells Value.equals

@[simp] theorem size_zeros (n : Nat) : (zeros n).size = n := by
  simp [zeros, size]

@[simp] theorem size_set (m : Memory) (i : Fin m.cells.size) (v : Value) :
    (m.set i v).size = m.size := by
  simp [set, size]

@[simp] theorem size_clear (m : Memory) : m.clear.size = m.size := size_zeros _

end Memory

end CellMachine
