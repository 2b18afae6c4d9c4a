/-!
Decimal numbers `digits · 10 ^ exponent`, as they are read from a text and written to one. Reading
rounds to the nearest double, a half to the even neighbour; writing is positional and never uses
an exponent.
-/

namespace Scriptlet

structure Decimal where
  digits : Nat
  exponent : Int
  deriving DecidableEq, Repr

namespace Decimal

def toFloat (d : Decimal) : Float :=
  match d.exponent with
  | .ofNat n => Float.ofScientific d.digits false n
  | .negSucc n => Float.ofScientific d.digits true (n + 1)

def naturalOf (cs : List Char) : Nat :=
  cs.foldl (fun n c => 10 * n + (c.toNat - '0'.toNat)) 0

def ofChars (cs : List Char) : Decimal :=
  let whole := cs.takeWhile (· ≠ '.')
  let fraction := (cs.dropWhile (· ≠ '.')).drop 1
  ⟨naturalOf (whole ++ fraction), -fraction.length⟩

def text (d : Decimal) : String :=
  let digits := Nat.toDigits 10 d.digits
  match d.exponent with
  | .ofNat n => if d.digits = 0 then "0" else String.ofList (digits ++ List.replicate n '0')
  | .negSucc n =>
    let padded := List.replicate (n + 2 - digits.length) '0' ++ digits
    let whole := padded.length - (n + 1)
    String.ofList (padded.take whole ++ '.' :: padded.drop whole)

end Decimal

end Scriptlet
