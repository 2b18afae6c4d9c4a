import Std.Time.DateTime.Timestamp

/-!
The clock of the host.
-/

namespace Scriptlet.CommandLine

/-- Seconds since 1970, if it is not before. -/
def readClock : IO (Option Float) := do
  let nanoseconds := (← Std.Time.Timestamp.now).toNanosecondsSinceUnixEpoch.val
  return if nanoseconds < 0 then none else some (Float.ofNat nanoseconds.toNat / 1000000000)

end Scriptlet.CommandLine
