import CellMachine.Machine.Labels

/-!
Execution. A step fetches the instruction at the program counter, moves the
counter to the next slot and then performs the instruction's action, so an
action sees the advanced counter and a faulty instruction has been passed.
-/

namespace CellMachine

/-- What the operations of a host do. -/
class Host (ι : Type) where
  perform : ι → Instruction ι → Exec ι Unit

instance : Host Empty where
  perform op := nomatch op

namespace Standard

open Machine

variable {ι : Type}

/-- Pops the number of cells that an instruction is to allocate. -/
def popSize (i : Instruction ι) : Exec ι Nat := do
  let size ← pop
  let n ← Attempt.ofExcept (i.wordOf size)
  if n < 0 then
    throw (.invalidAllocationSize i.name n)
  return n.toInt.toNat

def perform (op : Standard) (i : Instruction ι) : Exec ι Unit :=
  match op with
  | .ldc => do
      let v ← Attempt.ofExcept (i.argument .first)
      push v
  | .ldo => do
      let address ← target i
      let v ← readCell address
      push v
  | .sro => do
      let address ← target i
      let v ← pop
      writeCell address v
  | .print => do
      let v ← pop
      modify (Machine.print · v)
  | .new => do
      let units ← popSize i
      let block ← allocate units
      push block
  | .enter => do
      let frame ← Attempt.ofExcept (i.wordArgument .first)
      Machine.enter frame
  | .ujp => do
      let address ← target i
      modifyRegisters fun r => { r with pc := address }
  | .halt => modify Machine.halt

end Standard

variable {ι : Type}

/-- Fetches the next instruction and moves the counter past it. -/
def Machine.fetch : Exec ι (Instruction ι) := fun m =>
  let pc := m.registers.pc
  match m.instructionAt? pc with
  | some i => .ok i { m with registers := { m.registers with pc := pc + 1 } }
  | none => .error (.programCounterOutOfRange pc m.store.size) m

def Instruction.perform [Host ι] (i : Instruction ι) : Exec ι Unit :=
  match i.opcode with
  | .padding => pure ()
  | .defined d =>
      match d.action with
      | .standard op => op.perform i
      | .host op => Host.perform op i

/-- Executes the next instruction. A machine that has halted does nothing. -/
def Machine.step [Host ι] : Exec ι Unit := do
  if (← get).running then
    let i ← fetch
    i.perform

end CellMachine
