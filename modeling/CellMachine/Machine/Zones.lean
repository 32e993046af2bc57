import CellMachine.Machine.Basic

/-!
The two zones of memory. The stack grows upwards from cell zero to below its
ceiling `ep`, and the heap downwards from the last cell, never below `ep`. An
operation that fails leaves the registers as they were, except that `enter`
makes an empty stack one cell deep before it looks for room.
-/

namespace CellMachine.Machine

variable {ι : Type}

def getRegisters : Exec ι Registers := fun m => .ok m.registers m

def modifyRegisters (f : Registers → Registers) : Exec ι Unit := fun m =>
  .ok () { m with registers := f m.registers }

def readCell (address : Word) : Exec ι Value := fun m =>
  match m.memory.read address with
  | .ok v => .ok v m
  | .error f => .error f m

def writeCell (address : Word) (v : Value) : Exec ι Unit := fun m =>
  match m.memory.locate address with
  | .ok i => .ok () { m with memory := m.memory.set i v }
  | .error f => .error f m

@[simp] theorem run_getRegisters (m : Machine ι) :
    getRegisters.run m = .ok m.registers m := rfl

@[simp] theorem run_modifyRegisters (f : Registers → Registers) (m : Machine ι) :
    (modifyRegisters f).run m = .ok () { m with registers := f m.registers } := rfl

theorem run_writeCell (address : Word) (v : Value) (m : Machine ι) :
    (writeCell address v).run m =
      match m.memory.locate address with
      | .ok i => .ok () { m with memory := m.memory.set i v }
      | .error f => .error f m := rfl

def push (v : Value) : Exec ι Unit := do
  let r ← getRegisters
  if r.ep ≤ r.sp + 1 then
    throw (.stackOverflow r.sp r.ep r.hp)
  writeCell (r.sp + 1) v
  modifyRegisters fun r => { r with sp := r.sp + 1 }

/-- The ceiling is looked at first, then the cell. -/
theorem run_push (v : Value) (m : Machine ι) :
    (push v).run m =
      if m.registers.ep ≤ m.registers.sp + 1 then
        .error (.stackOverflow m.registers.sp m.registers.ep m.registers.hp) m
      else
        match m.memory.locate (m.registers.sp + 1) with
        | .ok i => .ok ()
            { m with
              memory := m.memory.set i v
              registers := { m.registers with sp := m.registers.sp + 1 } }
        | .error f => .error f m := by
  simp only [push, EStateM.run_bind, run_getRegisters]
  split
  · rfl
  · simp only [EStateM.run_bind, run_writeCell]
    cases m.memory.locate (m.registers.sp + 1) with
    | ok i => rfl
    | error f => rfl

/-- The value on top of the stack. -/
def peek : Exec ι Value := do
  let r ← getRegisters
  if r.sp < 0 then
    throw (.stackUnderflow r.sp)
  readCell r.sp

def pop : Exec ι Value := do
  let v ← peek
  modifyRegisters fun r => { r with sp := r.sp - 1 }
  return v

/-- Moves the ceiling of the stack to `frame` cells above its top. -/
def enter (frame : Word) : Exec ι Unit := do
  if frame < 1 then
    throw (.invalidFrameSize frame)
  modifyRegisters fun r => { r with sp := if r.sp < 0 then 0 else r.sp }
  let r ← getRegisters
  match Word.add? r.sp frame with
  | some ep =>
      if r.hp ≤ ep then
        throw (.stackOverflow r.sp r.ep r.hp)
      modifyRegisters fun r => { r with ep }
  | none => throw (.stackOverflow r.sp r.ep r.hp)

/-- Where the heap would begin after taking `units` more cells. -/
def heapBelow? (hp : Word) (units : Nat) : Option Word := do
  Word.sub? hp (← Word.ofNat? units)

/-- Takes cells from below the heap, and gives a pointer to the first of them. -/
def allocate (units : Nat) : Exec ι Value := do
  let r ← getRegisters
  match heapBelow? r.hp units with
  | some hp =>
      if hp < r.ep then
        throw (.outOfMemory units r.ep r.hp)
      modifyRegisters fun r => { r with hp }
      return .ptr hp
  | none => throw (.outOfMemory units r.ep r.hp)

/-- The cells of the stack, bottom first. There is no such list when `sp` was
set to an address above the last cell. -/
def stack? (m : Machine ι) : Option (List Value) :=
  if m.registers.stackDepth ≤ m.memory.size then
    some (m.memory.cells.toList.take m.registers.stackDepth)
  else
    none

/-- The cells of the heap, lowest first: all cells when `hp` is negative. -/
def heap (m : Machine ι) : List Value :=
  m.memory.cells.toList.drop m.registers.hp.toInt.toNat

def heapSize (m : Machine ι) : Nat := m.heap.length

end CellMachine.Machine
