import CellMachine.CommandLine.Session

/-!
The command line: runs a demo and shows its output and journal.
-/

open CellMachine.CommandLine in
def main (args : List String) : IO UInt32 := do
  match respond? args with
  | some r =>
      IO.print r.output
      IO.eprint r.complaint
      return r.exitCode.toUInt32
  -- Every session has fuel for all the steps that its limit allows.
  | none => return 3
