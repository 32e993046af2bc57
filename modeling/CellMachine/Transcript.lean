import CellMachine.Value

/-!
The text that a program has printed and nobody has collected yet.
-/

namespace CellMachine

structure Transcript where
  text : String
deriving DecidableEq, Repr

namespace Transcript

def empty : Transcript := ⟨""⟩

def isEmpty (t : Transcript) : Bool := t.text.isEmpty

def append (t : Transcript) (s : String) : Transcript := ⟨t.text ++ s⟩

def print (t : Transcript) (v : Value) : Transcript := t.append v.text

/-- Takes the text out. -/
def drain (t : Transcript) : String × Transcript := (t.text, empty)

end Transcript

end CellMachine
