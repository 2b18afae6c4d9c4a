/-!
White space of every script: the characters that a line may hold and still count as blank.
-/

namespace Scriptlet.Text

/-- First and last code point of each range of white space, in order. -/
def spaceRanges : List (Nat × Nat) :=
  [(0x9, 0xd), (0x20, 0x20), (0x85, 0x85), (0xa0, 0xa0), (0x1680, 0x1680), (0x2000, 0x200a),
    (0x2028, 0x2029), (0x202f, 0x202f), (0x205f, 0x205f), (0x3000, 0x3000)]

def isSpace (c : Char) : Bool :=
  spaceRanges.any fun (low, high) => low ≤ c.toNat && c.toNat ≤ high

def isBlankLine (s : String) : Bool := s.toList.all isSpace

end Scriptlet.Text
