import CellMachine.Demo
import CellMachine.LoadError
import CellMachine.Runner

/-!
The journal of a session: what happened, how important it is, and the line that
reports it. Events are read off the machine before an instruction; the machine
itself keeps no journal.
-/

namespace CellMachine

inductive Level where
  | trace
  | debug
  | info
  | warn
  | error
deriving DecidableEq, Repr

namespace Level

/-- Names are set flush right in five columns. -/
def name : Level → String
  | .trace => "TRACE"
  | .debug => "DEBUG"
  | .info => " INFO"
  | .warn => " WARN"
  | .error => "ERROR"

def rank : Level → Nat
  | .trace => 0
  | .debug => 1
  | .info => 2
  | .warn => 3
  | .error => 4

/-- The least level that is reported: the more often a session is asked to be
verbose, the lower. -/
def threshold : Nat → Level
  | 0 => .info
  | 1 => .debug
  | _ => .trace

end Level

/-- A double as a journal shows it: with an exponent from `10 ^ 16` on and below
`10 ^ -4`, otherwise as it is printed. -/
def Binary64.journalText (x : Binary64) : String :=
  let lead := x.shortest.leading
  if x.isFinite && (decide (lead < -4) || decide (16 ≤ lead)) then
    x.signed (String.ofList x.shortest.scientific)
  else
    (Value.float x).text

/-- A character within quotes. Marks and control characters are escaped, and all
characters beyond the ASCII range stand for themselves. -/
def escaped (c : Char) : List Char :=
  match c with
  | '"' => ['\\', '"']
  | '\\' => ['\\', '\\']
  | '\n' => ['\\', 'n']
  | '\r' => ['\\', 'r']
  | '\t' => ['\\', 't']
  | '\x00' => ['\\', '0']
  | c =>
      if c.toNat < 0x20 || c.toNat == 0x7f then
        '\\' :: 'u' :: '\x7b' :: Nat.toDigits 16 c.toNat ++ ['\x7d']
      else
        [c]

def quoted (s : String) : String :=
  String.ofList ('"' :: s.toList.flatMap escaped ++ ['"'])

/-- A value with its kind, as a journal shows the stack. -/
def Value.tagged : Value → String
  | .int n => s!"Int({n})"
  | .float x => "Float(" ++ x.journalText ++ ")"
  | .ptr address => s!"Ptr({address})"
  | .label name => "Label(" ++ quoted name ++ ")"

inductive Event where
  | loaded (instructions labels overlay : Nat)
  | restarted (ep hp : Word)
  | dispatched (pc : Word) (instruction : String)
  | allocated (units : Nat) (hp : Word)
  | frameReserved (sp frame ep : Word)
  | halted (pc : Word)
  | paused (pc : Word)
  | faulted (pc : Word) (fault : Fault)
  | running (demo : Demo)
  | continuing (pc sp ep hp : Word) (stack : List Value)
  | limitReached (steps : Nat)
  | setupFailed (error : LoadError)
  | runtimeError (pc : Word) (fault : Fault)
deriving DecidableEq, Repr

namespace Event

def level : Event → Level
  | .dispatched .. => .trace
  | .loaded .. | .restarted .. | .allocated .. | .frameReserved .. | .paused .. => .debug
  | .halted .. | .running .. | .continuing .. | .limitReached .. => .info
  | .faulted .. => .warn
  | .setupFailed .. | .runtimeError .. => .error

def message : Event → String
  | .loaded .. => "program loaded"
  | .restarted .. => "machine restarted"
  | .dispatched .. => "dispatch"
  | .allocated .. => "heap block allocated"
  | .frameReserved .. => "frame reserved"
  | .halted .. => "machine halted"
  | .paused .. => "paused at breakpoint"
  | .faulted .. => "instruction faulted"
  | .running .. => "running"
  | .continuing .. => "breakpoint, continuing"
  | .limitReached .. => "step limit reached"
  | .setupFailed e => s!"Setup failed: {e.message}"
  | .runtimeError pc f => s!"Runtime error at instruction {pc}: {f.message}"

/-- The names and texts of what the event reports besides its message. -/
def fields : Event → List (String × String)
  | .loaded instructions labels overlay =>
      [("instructions", toString instructions), ("labels", toString labels),
        ("overlay", toString overlay)]
  | .restarted ep hp => [("ep", toString ep), ("hp", toString hp)]
  | .dispatched pc instruction => [("pc", toString pc), ("instruction", instruction)]
  | .allocated units hp => [("units", toString units), ("hp", toString hp)]
  | .frameReserved sp frame ep =>
      [("sp", toString sp), ("frame_size", toString frame), ("ep", toString ep)]
  | .halted pc | .paused pc => [("pc", toString pc)]
  | .faulted pc f => [("pc", toString pc), ("fault", f.message)]
  | .running demo => [("demo", demo.title)]
  | .continuing pc sp ep hp stack =>
      [("pc", toString pc), ("sp", toString sp), ("ep", toString ep), ("hp", toString hp),
        ("stack", "[" ++ ", ".intercalate (stack.map Value.tagged) ++ "]")]
  | .limitReached steps => [("steps", toString steps)]
  | .setupFailed _ | .runtimeError .. => []

def line (e : Event) : String :=
  e.level.name ++ " " ++ e.message ++
    String.join (e.fields.map fun (name, text) => " " ++ name ++ "=" ++ text) ++ "\n"

end Event

namespace Journal

variable {ι : Type}

/-- What a standard operation does that is worth a line, started in `m`. -/
def ofStandard (op : Standard) (i : Instruction ι) (m : Machine ι) : List Event :=
  match op with
  | .new =>
      match (Standard.popSize i).run m with
      | .ok units m =>
          match (Machine.allocate units).run m with
          | .ok _ m => [.allocated units m.registers.hp]
          | .error .. => []
      | .error .. => []
  | .enter =>
      match i.wordArgument .first with
      | .ok frame =>
          match (Machine.enter frame).run m with
          | .ok _ m => [.frameReserved m.registers.sp frame m.registers.ep]
          | .error .. => []
      | .error _ => []
  | .halt => [.halted m.registers.pc]
  | _ => []

/-- The events of one step, without its fault. -/
def ofStep (m : Machine ι) : List Event :=
  match Machine.fetch.run m with
  | .error .. => []
  | .ok i next =>
      .dispatched m.registers.pc i.text ::
        match i.opcode with
        | .defined { action := .standard op, .. } => ofStandard op i next
        | _ => []

/-- The events of a turn, given those of the step that it may take. -/
def ofTurn (step : List Event) : Turn ι → List Event
  | .stepped .. => step
  | .stopped (.fault pc f) .. => step ++ [.faulted pc f]
  | .stopped (.breakpoint pc) .. => [.paused pc]
  | .stopped .halted .. | .stopped .stepLimit .. => []

/-- Adds the events of a run to those before it. -/
def ofRun [Host ι] (events : Array Event) : Nat → Runner → Machine ι → Array Event
  | 0, _, _ => events
  | fuel + 1, r, m =>
      let step := ofStep m
      let turn := r.turn m
      let events := events.appendList (ofTurn step turn)
      match turn with
      | .stopped .. => events
      | .stepped r m => ofRun events fuel r m

end Journal

end CellMachine
