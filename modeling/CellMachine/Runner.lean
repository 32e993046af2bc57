import CellMachine.Machine.Step

/-!
Running a machine. A run goes on until the machine has halted, an instruction
faults, the step limit is used up, or the next instruction has a breakpoint. The
limit spans all runs of a runner. A breakpoint at which the last run paused does
not stop the next one before it has executed that instruction.
-/

namespace CellMachine

structure Limits where
  maxSteps : Option Nat := none
  stopAtBreakpoints : Bool := true
deriving DecidableEq, Repr

structure Runner where
  limits : Limits := {}
  /-- The breakpoint at which the last run paused. -/
  pausedAt : Option Word := none
  /-- The instructions that all runs have executed together. -/
  totalSteps : Nat := 0
deriving DecidableEq, Repr

inductive StopReason where
  | halted
  | breakpoint (pc : Word)
  | stepLimit
  | fault (pc : Word) (fault : Fault)
deriving DecidableEq, Repr

/-- One turn of a run: it ends the run or executes one instruction. -/
inductive Turn (ι : Type) where
  | stopped (reason : StopReason) (runner : Runner) (machine : Machine ι)
  | stepped (runner : Runner) (machine : Machine ι)

/-- A finished run: why it stopped, how many instructions it executed, what they
printed, and what it leaves. -/
structure Outcome (ι : Type) where
  reason : StopReason
  steps : Nat
  output : String
  runner : Runner
  machine : Machine ι

namespace Runner

variable {ι : Type}

def isExhausted (r : Runner) : Bool :=
  r.limits.maxSteps.any fun limit => decide (limit ≤ r.totalSteps)

/-- The next instruction has a breakpoint at which this runner has yet to pause. -/
def mustPause (r : Runner) (m : Machine ι) : Bool :=
  r.limits.stopAtBreakpoints && m.isAtBreakpoint && r.pausedAt != some m.registers.pc

variable [Host ι]

def turn (r : Runner) (m : Machine ι) : Turn ι :=
  let pc := m.registers.pc
  if !m.running then
    .stopped .halted r m
  else if r.isExhausted then
    .stopped .stepLimit r m
  else if r.mustPause m then
    .stopped (.breakpoint pc) { r with pausedAt := some pc } m
  else
    match Machine.step.run m with
    | .ok _ m => .stepped { r with pausedAt := none, totalSteps := r.totalSteps + 1 } m
    | .error f m => .stopped (.fault pc f) { r with pausedAt := none } m

/-- Goes on with a run that has executed `steps` instructions. -/
def runFrom (steps : Nat) : Nat → Runner → Machine ι → Option (Outcome ι)
  | 0, _, _ => none
  | fuel + 1, r, m =>
      match r.turn m with
      | .stopped reason runner m =>
          let (output, machine) := m.drain
          some { reason, steps, output, runner, machine }
      | .stepped r m => runFrom (steps + 1) fuel r m

/-- Runs the machine for at most `fuel` turns, and has no outcome if the run
takes more. A run under a step limit takes no more turns than the limit has
steps left, and one to stop. -/
def run (fuel : Nat) (r : Runner) (m : Machine ι) : Option (Outcome ι) :=
  r.runFrom 0 fuel m

/-- Executes one instruction outside any run and forgets the last pause. -/
def step (r : Runner) (m : Machine ι) : Except Fault Unit × Runner × Machine ι :=
  let r := { r with pausedAt := none }
  match Machine.step.run m with
  | .ok _ m => (.ok (), r, m)
  | .error f m => (.error f, r, m)

end Runner

end CellMachine
