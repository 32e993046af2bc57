import CellMachine.Binary64.Shortest
import CellMachine.Word

/-!
The content of a memory cell. Cells are dynamically typed: an integer, a double,
a pointer into memory or a label of the program. Pointers are integers that
remember what they are for; where an address or an amount is wanted either will do.
-/

namespace CellMachine

inductive Kind where
  | int
  | float
  | ptr
  | label
deriving DecidableEq, Repr

def Kind.name : Kind → String
  | .int => "int"
  | .float => "float"
  | .ptr => "ptr"
  | .label => "label"

inductive Value where
  | int (n : Word)
  | float (x : Binary64)
  | ptr (address : Word)
  | label (name : String)
deriving DecidableEq, Repr

namespace Value

/-- The content of a cell that nothing was written to. -/
def zero : Value := .int 0

def kind : Value → Kind
  | .int _ => .int
  | .float _ => .float
  | .ptr _ => .ptr
  | .label _ => .label

/-- The payload of an integer or a pointer, or else the kind of the value. -/
def word : Value → Except Kind Word
  | .int n | .ptr n => .ok n
  | v => .error v.kind

def float? : Value → Option Binary64
  | .float x => some x
  | _ => none

def label? : Value → Option String
  | .label name => some name
  | _ => none

def isPointer : Value → Bool
  | .ptr _ => true
  | _ => false

/-- What is printed for a value. A whole double is marked as a double by `.0`. -/
def text : Value → String
  | .int n | .ptr n => toString n.toInt
  | .float x => if x.isFinite && x.fraction == 0 then x.text ++ ".0" else x.text
  | .label name => name

/-- Values agree when they have one kind and one payload, where doubles agree
numerically. Unlike `=`, this identifies the two zeros and no NaN with itself. -/
def equals : Value → Value → Bool
  | .int a, .int b | .ptr a, .ptr b => a == b
  | .float x, .float y => x.equals y
  | .label a, .label b => a == b
  | _, _ => false

def isNaN : Value → Bool
  | .float x => x.isNaN
  | _ => false

theorem equals_self (v : Value) : v.equals v = !v.isNaN := by
  cases v <;> simp [equals, isNaN, Binary64.equals_self]

end Value

end CellMachine
