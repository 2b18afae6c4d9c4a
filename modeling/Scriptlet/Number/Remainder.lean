import Scriptlet.Number.Shortest

/-!
The remainder of a division of doubles whose quotient is cut toward zero. It is exact and takes the
sign of the dividend.
-/

namespace Scriptlet.Number

/-- The magnitude of the remainder of two finite magnitudes, the divisor not zero. -/
def Dyadic.remainder (a b : Dyadic) : Dyadic :=
  let exponent := min a.exponent b.exponent
  let left := a.mantissa * Nat.pow 2 (a.exponent - exponent).toNat
  let right := b.mantissa * Nat.pow 2 (b.exponent - exponent).toNat
  ⟨left % right, exponent⟩

def remainder (x y : Float) : Float :=
  if x.isNaN || y.isNaN || x.isInf || y == 0 then 0 / 0
  else if y.isInf then x
  else
    let magnitude := ((Dyadic.ofFloat x).remainder (Dyadic.ofFloat y)).toDecimal.toFloat
    if isNegative x then -magnitude else magnitude

end Scriptlet.Number
