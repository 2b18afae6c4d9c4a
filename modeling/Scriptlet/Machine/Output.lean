/-!
Where programs print: bytes in order, perhaps with room for only so many. What does not fit is cut
at the byte.
-/

namespace Scriptlet

structure Output where
  bytes : ByteArray
  capacity : Option Nat

namespace Output

def empty (capacity : Option Nat) : Output := ⟨.empty, capacity⟩

def fits (output : Output) (count : Nat) : Bool :=
  match output.capacity with
  | some capacity => output.bytes.size + count ≤ capacity
  | none => true

def room (output : Output) (count : Nat) : Nat :=
  match output.capacity with
  | some capacity => min count (capacity - output.bytes.size)
  | none => count

def write (output : Output) (text : String) : Output :=
  let bytes := text.toUTF8
  { output with bytes := output.bytes ++ bytes.extract 0 (output.room bytes.size) }

def failure : String := "disk full"

/-- The text of bytes that are cut from a text; a character that was cut shows as a replacement. -/
def decode (bytes : ByteArray) : String :=
  match String.fromUTF8? bytes with
  | some text => text
  | none =>
    let cut := [1, 2, 3].findSome? fun count => String.fromUTF8? (bytes.extract 0 (bytes.size - count))
    cut.getD "" ++ "�"

def textFrom (output : Output) (start : Nat) : String :=
  decode (output.bytes.extract start output.bytes.size)

end Output

end Scriptlet
