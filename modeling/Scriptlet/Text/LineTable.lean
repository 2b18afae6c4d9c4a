import Scriptlet.Text.Position

/-!
The lines of a text with the byte offset at which each begins, for turning byte offsets of the
UTF-8 form into places. The line is found by bisection over the offsets.
-/

namespace Scriptlet

structure Line where
  offset : Nat
  chars : List Char
  deriving DecidableEq, Repr

namespace Line

/-- How many of the characters fill exactly the given number of bytes, if some number of them does. -/
def charsIn : List Char → Nat → Option Nat
  | _, 0 => some 0
  | [], _ + 1 => none
  | c :: cs, n + 1 =>
    if c.utf8Size ≤ n + 1 then (charsIn cs (n + 1 - c.utf8Size)).map (· + 1) else none

/-- The column at a byte offset of the text; an offset inside a character counts as column one. -/
def columnAt (line : Line) (offset : Nat) : Nat :=
  match charsIn line.chars (offset - line.offset) with
  | some count => count + 1
  | none => 1

end Line

structure LineTable where
  lines : Array Line
  size : Nat
  deriving Repr

namespace LineTable

def split (offset : Nat) : List Char → Line × List Line
  | [] => (⟨offset, []⟩, [])
  | c :: cs =>
    if c = '\n' then
      let (line, lines) := split (offset + 1) cs
      (⟨offset, []⟩, line :: lines)
    else
      let (line, lines) := split (offset + c.utf8Size) cs
      (⟨offset, c :: line.chars⟩, lines)

def ofText (text : String) : LineTable :=
  let (line, lines) := split 0 text.toList
  ⟨(line :: lines).toArray, text.utf8ByteSize⟩

/-- How many lines begin at or before `offset`, when those before `lo` do and those from `hi` do not. -/
def bisect (lines : Array Line) (offset lo hi : Nat) (bound : hi ≤ lines.size) : Nat :=
  if inside : lo < hi then
    let mid := lo + (hi - lo) / 2
    have below : mid < hi := by omega
    if lines[mid].offset ≤ offset then
      bisect lines offset (mid + 1) hi bound
    else
      bisect lines offset lo mid (by omega)
  else
    lo
termination_by hi - lo

def linesTo (table : LineTable) (offset : Nat) : Nat :=
  bisect table.lines offset 0 table.lines.size (Nat.le_refl _)

/-- The place of a byte offset; every offset past the end is the end. -/
def position (table : LineTable) (offset : Nat) : Position :=
  let offset := min offset table.size
  let number := table.linesTo offset
  match table.lines[number - 1]? with
  | some line => ⟨number, line.columnAt offset⟩
  | none => .first

def finish (table : LineTable) : Position := table.position table.size

end LineTable

end Scriptlet
