import Scriptlet.Frames
import Scriptlet.Machine.Operation
import Scriptlet.Settings

/-!
The host of a machine: its limits, its functions, and how much stack there is. A program runs on a
budget of native stack, 1.5 MiB of it. How many calls, loops and operators that holds depends on the
platform, so each check of the stack is a question to the host, which may answer it in any way; the
standard host counts the calls in progress. The functions of a host may be any as well. They reach
frames through the functions that they are given, but no other part of the machine.
-/

namespace Scriptlet

/-- The part of a machine that a function of the host can reach. -/
structure Heap where
  frames : Frames
  nextIdentity : Nat

/-- The functions of a host, by their codes. One gets how many calls of such functions there were
before, since it may look at the world outside, its arguments, and the heap. It fails with a
message. -/
abbrev Natives := (code earlier : Nat) → List Value → Heap → Except String Value × Heap

structure Host where
  settings : Settings
  natives : Natives
  /-- Whether the stack holds at a check, by the number of the check and of calls in progress. -/
  stack : (check depth : Nat) → Bool

def Natives.builtins (clock : Nat → Option Float) : Natives := fun code earlier arguments heap =>
  match Builtin.ofCode? code with
  | some builtin => (builtin.apply (clock earlier) arguments, heap)
  | none => (.ok .nil, heap)

namespace Host

/-- The budget of native stack, as a number of calls in progress. -/
def stackBudget : Nat := 256

def standard (settings : Settings) (clock : Nat → Option Float) : Host where
  settings := settings
  natives := .builtins clock
  stack _ depth := depth < stackBudget

end Host

end Scriptlet
