import Scriptlet.Number.Decimal

/-!
The text of a double: the fewest digits that read back as the same double, and of two such
decimals the nearer one, the upper at a tie.
-/

namespace Scriptlet.Number

/-- Magnitude `mantissa · 2 ^ exponent` of a finite double. -/
structure Dyadic where
  mantissa : Nat
  exponent : Int
  deriving DecidableEq, Repr

def Dyadic.ofFloat (x : Float) : Dyadic :=
  let bits := x.toBits.toNat
  let fraction := bits % Nat.pow 2 52
  let scale := bits / Nat.pow 2 52 % Nat.pow 2 11
  if scale = 0 then ⟨fraction, -1074⟩ else ⟨Nat.pow 2 52 + fraction, Int.ofNat scale - 1075⟩

/-- Every dyadic number is a decimal, since `2 ^ -n = 5 ^ n · 10 ^ -n`. -/
def Dyadic.toDecimal (d : Dyadic) : Decimal :=
  match d.exponent with
  | .ofNat n => ⟨d.mantissa * Nat.pow 2 n, 0⟩
  | .negSucc n => ⟨d.mantissa * Nat.pow 5 (n + 1), -(n + 1)⟩

/-- The neighbour of `exact` without its last `drop` digits that reads back as `x`. -/
def neighbour? (x : Float) (exact : Decimal) (drop : Nat) : Option Decimal :=
  let unit := Nat.pow 10 drop
  let lower : Decimal := ⟨exact.digits / unit, exact.exponent + drop⟩
  let upper : Decimal := ⟨exact.digits / unit + 1, exact.exponent + drop⟩
  if lower.toFloat = x then
    if upper.toFloat = x ∧ unit ≤ 2 * (exact.digits % unit) then some upper else some lower
  else if upper.toFloat = x then some upper
  else none

def shortestFrom (x : Float) (exact : Decimal) : Nat → Decimal
  | 0 => exact
  | drop + 1 =>
    match neighbour? x exact (drop + 1) with
    | some d => d
    | none => shortestFrom x exact drop

def shortest (x : Float) : Decimal :=
  let exact := (Dyadic.ofFloat x).toDecimal
  if exact.digits = 0 then ⟨0, 0⟩ else shortestFrom x exact (Nat.toDigits 10 exact.digits).length

def isNegative (x : Float) : Bool := Nat.pow 2 63 ≤ x.toBits.toNat

def text (x : Float) : String :=
  if x.isNaN then "NaN"
  else
    let magnitude := if x.isFinite then (shortest x.abs).text else "inf"
    if isNegative x then "-" ++ magnitude else magnitude

end Scriptlet.Number
