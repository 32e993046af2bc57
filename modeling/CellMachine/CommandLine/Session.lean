import CellMachine.CommandLine.Options
import CellMachine.Journal

/-!
A session of the command line: it sets up a demo, runs it to its end and shows
what the program prints and the journal, in the order in which they arise. At a
breakpoint it reports where the machine stands and goes on.
-/

namespace CellMachine.CommandLine

/-- What a session shows. -/
inductive Piece where
  | event (e : Event)
  | text (s : String)

structure Response where
  exitCode : Nat
  output : String
  /-- What is said apart from the output, about the arguments. -/
  complaint : String := ""
deriving DecidableEq, Repr

/-- Program text and those events that are at least as important as `least`. -/
def render (least : Level) (pieces : List Piece) : String :=
  String.join (pieces.map fun
    | .text s => s
    | .event e => if least.rank ≤ e.level.rank then e.line else "")

def restarted (m : Machine Empty) : Event := .restarted m.registers.ep m.registers.hp

/-- Toggles the breakpoint of each slot in order. -/
def markAll (slots : List Nat) (m : Machine Empty) : Except LoadError (Machine Empty) :=
  slots.foldlM (fun m slot => (m.toggleBreakpoint slot).map Prod.snd) m

/-- The machine with the demo loaded and marked, and the events up to there. -/
def setup (o : Options) : List Event × Except LoadError (Machine Empty) :=
  match Machine.create o.config with
  | .error e => ([], .error e)
  | .ok m =>
      match m.load o.demo.program with
      | .error e => ([restarted m], .error e)
      | .ok loaded =>
          ([restarted m,
              .loaded o.demo.program.length loaded.labels.size loaded.overlay.length,
              restarted loaded],
            markAll o.breakAt loaded)

/-- Runs the machine through all its breakpoints, at most `pauses` of them. Each
run may take `turns` turns. Without a stack that can be shown at a breakpoint
there is no answer. -/
def drive (turns : Nat) : (pauses : Nat) → Runner → Machine Empty → Option (List Piece × Nat)
  | 0, _, _ => none
  | pauses + 1, r, m => do
      let o ← r.run turns m
      let events := Journal.ofRun #[] turns r m
      let shown := events.toList.map .event ++ [.text o.output]
      match o.reason with
      | .halted => some (shown ++ [.text "\n"], 0)
      | .stepLimit =>
          some (shown ++ [.text "\n", .event (.limitReached o.runner.totalSteps)], 0)
      | .fault pc f => some (shown ++ [.text "\n", .event (.runtimeError pc f)], 2)
      | .breakpoint pc =>
          let stack ← o.machine.stack?
          let now := o.machine.registers
          let report : Event := .continuing pc now.sp now.ep now.hp stack
          let (rest, code) ← drive turns pauses o.runner o.machine
          some (shown ++ .event report :: rest, code)

/-- The session that the options ask for. Each pause is followed by a step, so
neither the pauses nor the turns of a run outnumber the steps by more than one. -/
def Options.session? (o : Options) : Option (List Piece × Nat) :=
  let (events, made) := setup o
  let pieces := events.map Piece.event
  match made with
  | .error e => some (pieces ++ [.event (.setupFailed e)], 1)
  | .ok m => do
      let runner : Runner :=
        { limits := { maxSteps := some o.maxSteps
                      stopAtBreakpoints := !o.ignoreBreakpoints } }
      let (rest, code) ← drive (o.maxSteps + 1) (o.maxSteps + 2) runner m
      some (pieces ++ .event (.running o.demo) :: rest, code)

/-- The answer to arguments that are read in some way. The reading gives the
options of a session or is an answer in itself. -/
def answer? (read : List String → Except Response Options) (args : List String) :
    Option Response :=
  match read args with
  | .error response => some response
  | .ok o => do
      let (pieces, code) ← o.session?
      some { exitCode := code, output := render (.threshold o.verbosity) pieces }

/-- Reads arguments as a request. Malformed ones get exit code 2 and no output. -/
def read (args : List String) : Except Response Options :=
  match Request.ofArguments? args with
  | none => .error { exitCode := 2, output := "", complaint := "malformed arguments\n" }
  | some .help => .error { exitCode := 0, output := "Usage: arenavm [OPTIONS] [DEMO]\n" }
  | some (.session o) => .ok o

def respond? (args : List String) : Option Response := answer? read args

end CellMachine.CommandLine
