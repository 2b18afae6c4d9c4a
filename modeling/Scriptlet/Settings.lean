/-!
Limits under which programs run.
-/

namespace Scriptlet

structure Settings where
  /-- The most rounds of one execution of a loop; zero means no limit. -/
  maxLoopIterations : UInt64 := 10000
  maxCallDepth : UInt64 := 64
  allowBuiltinShadowing : Bool := false
  deriving DecidableEq, Repr, Inhabited

namespace Settings

/-- Rounds of a loop without a limit: more than any run can make. -/
def unlimitedRounds : Nat := UInt64.size

def roundLimit (s : Settings) : Nat :=
  if s.maxLoopIterations = 0 then unlimitedRounds else s.maxLoopIterations.toNat

end Settings

end Scriptlet
