import CellMachine.InstructionSet
import CellMachine.Program
import CellMachine.Registers
import CellMachine.Transcript
import Std.Data.TreeMap.Basic

/-!
A machine: registers, main memory, the program store and the printed text. A
program is loaded as a whole or not at all. Loading, and every restart after it,
puts the machine back to its start: cleared memory with the program's seeds,
initial registers, no text.
-/

namespace CellMachine

/-- Where the labels of a store stand. -/
abbrev LabelIndex := Std.TreeMap String Nat

/-- The first slot of each label. -/
def LabelIndex.ofStore {ι : Type} (store : Array (Instruction ι)) : LabelIndex :=
  store.toList.zipIdx.foldl
    (fun index (i, slot) =>
      match i.label with
      | some label => index.insertIfNew label.text slot
      | none => index)
    ∅

structure Machine (ι : Type) where
  config : Config
  registers : Registers
  memory : Memory
  store : Array (Instruction ι)
  labels : LabelIndex
  /-- The seeds of the loaded program. -/
  overlay : List Seed
  output : Transcript
  running : Bool

/-- A computation of a machine, which a fault may cut short. -/
abbrev Exec (ι : Type) := Attempt Fault (Machine ι)

namespace Machine

variable {ι : Type}

/-- Goes back to the start of the loaded program. -/
def restart (m : Machine ι) : Machine ι :=
  { m with
    registers := .initial m.config
    memory := (Memory.sow m.overlay).state m.memory.clear
    output := .empty
    running := true }

/-- A machine whose store holds nothing but padding. -/
def create (c : Config) : Except LoadError (Machine ι) :=
  match c.flaw? with
  | some flaw => .error (.invalidConfig flaw)
  | none => .ok <| restart
      { config := c
        registers := .initial c
        memory := .zeros c.memorySize
        store := Array.replicate c.storeSize .padding
        labels := ∅
        overlay := []
        output := .empty
        running := false }

/-- Puts a program into the store and restarts. -/
def load (m : Machine ι) (p : Program ι) : Except LoadError (Machine ι) :=
  if m.config.storeSize < p.length then
    .error (.programTooLarge p.length m.config.storeSize)
  else
    match p.misplaced? m.config.memorySize with
    | some s => .error (.overlayAddressOutOfRange s.address m.config.memorySize)
    | none =>
        let store := p.padded m.config.storeSize
        .ok (restart { m with store, labels := .ofStore store, overlay := p.overlay })

def print (m : Machine ι) (v : Value) : Machine ι :=
  { m with output := m.output.print v }

/-- The text that tells a reader of the output that the program is over. -/
def haltMarker : String := "\nMachine halted"

def halt (m : Machine ι) : Machine ι :=
  { m with running := false, output := m.output.append haltMarker }

/-- Takes the printed text out. -/
def drain (m : Machine ι) : String × Machine ι :=
  let (text, output) := m.output.drain
  (text, { m with output })

/-- The instruction at a program-store address. -/
def instructionAt? (m : Machine ι) (address : Word) : Option (Instruction ι) :=
  (Word.index? address m.store.size).map fun i => m.store[i]

/-- The next instruction. -/
def current? (m : Machine ι) : Option (Instruction ι) := m.instructionAt? m.registers.pc

def isAtBreakpoint (m : Machine ι) : Bool := m.current?.any Instruction.breakpoint

/-- Sets or removes the breakpoint of a slot, and tells whether it is now set. -/
def toggleBreakpoint (m : Machine ι) (slot : Nat) : Except LoadError (Bool × Machine ι) :=
  match m.store[slot]? with
  | some i =>
      let marked := !i.breakpoint
      .ok (marked,
        { m with store := m.store.setIfInBounds slot { i with breakpoint := marked } })
  | none => .error (.instructionIndexOutOfRange slot m.store.size)

end Machine

end CellMachine
