import CellMachine.InstructionSet

/-!
The standard instruction set and its four groups.
-/

namespace CellMachine.Standard

def doc : Standard → Doc
  | .ldc =>
      { name := "ldc", display := "ldc c"
        semantics := "SP ← SP + 1; S[SP] ← c"
        description := "Pushes the constant argument (of any type) onto the stack." }
  | .ldo =>
      { name := "ldo", display := "ldo q"
        semantics := "SP ← SP + 1; S[SP] ← S[q]"
        description := "Pushes the value stored at absolute address q onto the stack." }
  | .sro =>
      { name := "sro", display := "sro q"
        semantics := "S[q] ← S[SP]; SP ← SP - 1"
        description := "Pops the top of the stack into absolute address q." }
  | .print =>
      { name := "print", display := "print"
        semantics := "print S[SP]; SP ← SP - 1"
        description :=
          "Prints the value on top of the stack to the standard output, then pops it. " ++
          "Floats always print with a decimal point, even when whole." }
  | .new =>
      { name := "new", display := "new"
        semantics := "HP ← HP - S[SP]; S[SP] ← HP"
        description :=
          "Pops a size from the stack, allocates that many cells from the heap, " ++
          "and pushes a pointer to the new block." }
  | .enter =>
      { name := "enter", display := "enter m"
        semantics := "EP ← SP + m"
        description :=
          "Reserves m stack cells above SP by moving the extension pointer. " ++
          "Fails if m is less than 1 or the reservation would reach the heap." }
  | .ujp =>
      { name := "ujp", display := "ujp a"
        semantics := "PC ← a"
        description := "Jumps unconditionally to the address or label a." }
  | .halt =>
      { name := "halt", display := "halt"
        semantics := "stop"
        description := "Stops the machine." }

def definition {ι : Type} (op : Standard) : Definition ι :=
  { toDoc := op.doc, action := .standard op }

def loadAndStore : List Standard := [.ldc, .ldo, .sro]

def output : List Standard := [.print]

def storage : List Standard := [.new, .enter]

def control : List Standard := [.ujp, .halt]

/-- All standard operations, group after group. -/
def all : List Standard := loadAndStore ++ output ++ storage ++ control

/-- The set of the standard definitions. Their names differ, so none is refused. -/
def instructionSet {ι : Type} : InstructionSet ι :=
  (InstructionSet.registerAll (all.map definition)).state .empty

def instruction {ι : Type} (op : Standard) (argument : Option Value := none) :
    Instruction ι :=
  { opcode := .defined op.definition, first := argument }

end CellMachine.Standard
