import CellMachine.Demo

/-!
The arguments of the command line. An option that takes a number takes it from
the next argument or after an equals sign. Options and the name of a demo may
come in any order; after `--` no argument is an option. All but `--break-at` and
`--verbose` may be given once only. Where help is asked for, the arguments after
that are not read.
-/

namespace CellMachine.CommandLine

structure Options where
  demo : Demo := .globals
  config : Config := ⟨64, 64, 16⟩
  maxSteps : Nat := 10000
  breakAt : List Nat := []
  ignoreBreakpoints : Bool := false
  verbosity : Nat := 0
deriving DecidableEq, Repr

/-- The options that take a number. -/
inductive NumberOption where
  | programStore
  | memory
  | maxStack
  | maxSteps
  | breakAt
deriving DecidableEq, Repr

namespace NumberOption

def all : List NumberOption := [.programStore, .memory, .maxStack, .maxSteps, .breakAt]

def name : NumberOption → String
  | .programStore => "program-store"
  | .memory => "memory"
  | .maxStack => "max-stack"
  | .maxSteps => "max-steps"
  | .breakAt => "break-at"

def ofName? (s : String) : Option NumberOption := all.find? fun o => o.name == s

end NumberOption

/-- An unsigned number of 64 bits: decimal digits, perhaps after a plus sign. -/
def number? (s : String) : Option Nat :=
  let digits :=
    match s.toList with
    | '+' :: cs => cs
    | cs => cs
  if digits.isEmpty || !digits.all Char.isDigit then
    none
  else
    let n := digits.foldl (fun n c => 10 * n + (c.toNat - '0'.toNat)) 0
    if n < 0x10000000000000000 then some n else none

/-- What the arguments say, piece by piece. -/
inductive Item where
  | demo (d : Demo)
  | number (option : NumberOption) (n : Nat)
  | ignoreBreakpoints
  | verbose (times : Nat)
  | help
deriving DecidableEq, Repr

/-- What one argument says by itself. -/
inductive Reading where
  | item (i : Item)
  /-- The next argument is the number of this option. -/
  | awaitsNumber (option : NumberOption)
  | endOfOptions
deriving DecidableEq, Repr

/-- The item of an argument that is not an option. -/
def positional? (arg : String) : Option Item := (Demo.ofName? arg).map .demo

def reading? (arg : String) : Option Reading :=
  if arg = "--" then
    some .endOfOptions
  else
    match arg.toList with
    | '-' :: '-' :: body =>
        let name := String.ofList (body.takeWhile (· != '='))
        match body.dropWhile (· != '=') with
        | [] =>
            if name = "ignore-breakpoints" then
              some (.item .ignoreBreakpoints)
            else if name = "verbose" then
              some (.item (.verbose 1))
            else if name = "help" then
              some (.item .help)
            else
              (NumberOption.ofName? name).map .awaitsNumber
        | _ :: value => do
            let option ← NumberOption.ofName? name
            let n ← number? (String.ofList value)
            return .item (.number option n)
    | '-' :: c :: cs =>
        match (c :: cs).dropWhile (· == 'v') with
        | [] => some (.item (.verbose (c :: cs).length))
        | 'h' :: _ => some (.item .help)
        | _ => none
    | _ => (positional? arg).map .item

def items? : List String → Option (List Item)
  | [] => some []
  | arg :: rest =>
      match reading? arg, rest with
      | none, _ => none
      | some .endOfOptions, rest => rest.mapM positional?
      | some (.item .help), _ => some [.help]
      | some (.item i), rest => (items? rest).map (i :: ·)
      | some (.awaitsNumber _), [] => none
      | some (.awaitsNumber option), value :: rest => do
          let n ← number? value
          let more ← items? rest
          return .number option n :: more

/-- The only element, if there is one. Several elements are refused. -/
def atMostOne? {α : Type} : List α → Option (Option α)
  | [] => some none
  | [a] => some (some a)
  | _ => none

namespace Item

def demo? : Item → Option Demo
  | .demo d => some d
  | _ => none

def number? (option : NumberOption) : Item → Option Nat
  | .number o n => if o = option then some n else none
  | _ => none

def ignoreBreakpoints? : Item → Option Unit
  | .ignoreBreakpoints => some ()
  | _ => none

def verbosity : Item → Nat
  | .verbose times => times
  | _ => 0

end Item

def Options.ofItems? (items : List Item) : Option Options := do
  let usual : Options := {}
  let demo ← atMostOne? (items.filterMap Item.demo?)
  let store ← atMostOne? (items.filterMap (Item.number? .programStore))
  let memory ← atMostOne? (items.filterMap (Item.number? .memory))
  let maxStack ← atMostOne? (items.filterMap (Item.number? .maxStack))
  let maxSteps ← atMostOne? (items.filterMap (Item.number? .maxSteps))
  let ignore ← atMostOne? (items.filterMap Item.ignoreBreakpoints?)
  return {
    demo := demo.getD usual.demo
    config :=
      { storeSize := store.getD usual.config.storeSize
        memorySize := memory.getD usual.config.memorySize
        maxStack := maxStack.getD usual.config.maxStack }
    maxSteps := maxSteps.getD usual.maxSteps
    breakAt := items.filterMap (Item.number? .breakAt)
    ignoreBreakpoints := ignore.isSome
    verbosity := items.foldl (fun n i => n + i.verbosity) 0 }

/-- What the arguments ask for. -/
inductive Request where
  | help
  | session (o : Options)
deriving DecidableEq, Repr

/-- The request of the arguments, none if they are malformed. -/
def Request.ofArguments? (args : List String) : Option Request := do
  let items ← items? args
  let o ← Options.ofItems? items
  return if items.contains .help then .help else .session o

end CellMachine.CommandLine
