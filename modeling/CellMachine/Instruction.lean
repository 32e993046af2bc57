import CellMachine.Fault

/-!
Instructions. An opcode says what an instruction does and how that is described.
Its action is one of the standard operations or an operation of the host; `ι` is
the type of the host's operations, `Empty` for a machine without any. Padding
fills the slots of the program store that a program leaves free, and is told
apart from every definition, whatever its name.
-/

namespace CellMachine

inductive Standard where
  | ldc
  | ldo
  | sro
  | print
  | new
  | enter
  | ujp
  | halt
deriving DecidableEq, Repr

inductive Action (ι : Type) where
  | standard (op : Standard)
  | host (op : ι)
deriving DecidableEq, Repr

/-- How an opcode is described to people. -/
structure Doc where
  name : String
  /-- The name with the arguments that the opcode takes. -/
  display : String
  semantics : String
  description : String
deriving DecidableEq, Repr

structure Definition (ι : Type) extends Doc where
  action : Action ι
deriving DecidableEq, Repr

inductive Opcode (ι : Type) where
  | padding
  | defined (d : Definition ι)
deriving DecidableEq, Repr

namespace Opcode

variable {ι : Type}

def paddingDoc : Doc where
  name := "nop"
  display := "nop"
  semantics := "PC ← PC + 1"
  description := "Padding for unused program-store slots; does nothing."

def doc : Opcode ι → Doc
  | .padding => paddingDoc
  | .defined d => d.toDoc

def isPadding : Opcode ι → Bool
  | .padding => true
  | .defined _ => false

end Opcode

/-- A text that is not empty, for labels and comments. -/
structure Remark where
  text : String
  nonempty : text ≠ ""
deriving DecidableEq, Repr

/-- The empty text is no remark. -/
def Remark.ofString? (s : String) : Option Remark :=
  if h : s = "" then none else some ⟨s, h⟩

/-- An instruction has up to two arguments. -/
inductive Position where
  | first
  | second
deriving DecidableEq, Repr

def Position.number : Position → Nat
  | .first => 1
  | .second => 2

structure Instruction (ι : Type) where
  opcode : Opcode ι
  first : Option Value := none
  second : Option Value := none
  label : Option Remark := none
  comment : Option Remark := none
  breakpoint : Bool := false
deriving DecidableEq, Repr

namespace Instruction

variable {ι : Type}

def padding : Instruction ι := { opcode := .padding }

def name (i : Instruction ι) : String := i.opcode.doc.name

def argument? (i : Instruction ι) : Position → Option Value
  | .first => i.first
  | .second => i.second

/-- The argument at a position, which has to be there. -/
def argument (i : Instruction ι) (p : Position) : Except Fault Value :=
  match i.argument? p with
  | some v => .ok v
  | none => .error (.missingArgument i.name p.number)

/-- The integer payload of a value that this instruction works on. -/
def wordOf (i : Instruction ι) (v : Value) : Except Fault Word :=
  v.word.mapError (.typeMismatch i.name)

/-- The integer payload of the argument at a position. -/
def wordArgument (i : Instruction ι) (p : Position) : Except Fault Word :=
  i.argument p >>= i.wordOf

def hasLabel (i : Instruction ι) (label : String) : Bool :=
  i.label.any fun r => r.text == label

/-- The name and the arguments, divided by blanks. -/
def text (i : Instruction ι) : String :=
  " ".intercalate (i.name :: ([i.first, i.second].filterMap id).map Value.text)

end Instruction

end CellMachine
