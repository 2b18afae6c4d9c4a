import Scriptlet.CommandLine.Clock
import Scriptlet.CommandLine.Respond

/-!
The command line: reads files and standard input, and prints.
-/

namespace Scriptlet.CommandLine

def readFile? (path : String) : IO (Option String) := do
  try return some (← IO.FS.readFile path)
  catch _ => return none

/-- Prints what a step has added, and gives the machine with empty output. -/
def flushOutput (reports : List Report) (m : Machine) : IO Machine := do
  let out ← IO.getStdout
  out.write m.output.bytes
  out.flush
  (← IO.getStderr).putStr (Report.render reports)
  return { m with output := .empty none }

partial def interact (a : Arguments) (settings : Settings) (m : Machine) : IO Unit := do
  let out ← IO.getStdout
  out.putStr prompt
  out.flush
  let line ← (← IO.getStdin).getLine
  if line.isEmpty then out.putStrLn ""
  else
    let now ← readClock
    let (reports, m) := processLine a (.standard settings fun _ => now) line m
    interact a settings (← flushOutput reports m)

def refuse (refusal : Refusal) : IO UInt32 := do
  (← IO.getStderr).putStr (Outcome.ofRefusal refusal).err
  return refused.toUInt32

def usage : String :=
  "Usage: [--tokens] [--ast] [--config CONFIG] [--max-loop-iterations N] [--max-call-depth N] " ++
    "[--allow-builtin-shadowing] [FILE]"

def start (arguments : List String) : IO UInt32 := do
  let some a := Arguments.ofList? arguments
    | (← IO.getStderr).putStrLn usage
      return misused.toUInt32
  let config ← match a.config with
    | some path => readFile? path
    | none => pure none
  match settings a fun _ => config with
  | .error refusal => refuse refusal
  | .ok settings =>
    match a.file with
    | none =>
      interact a settings startMachine
      return success.toUInt32
    | some path =>
      let some source ← readFile? path | refuse (.unreadableFile path)
      let now ← readClock
      let (reports, m) := process a (.standard settings fun _ => now) source startMachine
      discard (flushOutput reports m)
      return (codeOf reports).toUInt32

end Scriptlet.CommandLine

def main (arguments : List String) : IO UInt32 := Scriptlet.CommandLine.start arguments
