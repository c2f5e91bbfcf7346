import Scriptlet.CommandLine

/-!
# The program

Reads the file that the arguments name, and writes the outcome.
-/

open Scriptlet.CommandLine in
/-- Runs the tool: the outcome is decided by `Scriptlet.CommandLine`, and only
written here. -/
def main (args : List String) : IO UInt32 := do
  let contents ←
    match request? args with
    | some (.check o) => try some <$> IO.FS.readBinFile o.file catch _ => pure none
    | _ => pure none
  let result := outcome args fun _ => contents
  IO.print result.out
  IO.eprint result.err
  pure (UInt32.ofNat result.status)
