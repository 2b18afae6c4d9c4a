import Scriptlet.Fault
import Scriptlet.Number.Remainder
import Scriptlet.Value

/-!
What operators and builtins do to values.
-/

namespace Scriptlet

namespace Value

def applyUnary (operator : Token) (operand : Value) : Except Fault Value :=
  match operator.kind with
  | .minus =>
    match operand with
    | .number x => .ok (.number (-x))
    | _ => .error .operandNotNumber
  | .bang => .ok (.boolean !operand.isTruthy)
  | _ => .error (.unknownUnary operator.lexeme)

def applyNumeric? : Kind → Option (Float → Float → Value)
  | .minus => some fun x y => .number (x - y)
  | .star => some fun x y => .number (x * y)
  | .slash => some fun x y => .number (x / y)
  | .percent => some fun x y => .number (Number.remainder x y)
  | .greater => some fun x y => .boolean (y < x)
  | .greaterEqual => some fun x y => .boolean (y ≤ x)
  | .less => some fun x y => .boolean (x < y)
  | .lessEqual => some fun x y => .boolean (x ≤ y)
  | _ => none

def applyBinary (operator : Token) (left right : Value) : Except Fault Value :=
  match operator.kind with
  | .equalEqual => .ok (.boolean (left.equals right))
  | .bangEqual => .ok (.boolean !left.equals right)
  | .plus =>
    match left, right with
    | .number x, .number y => .ok (.number (x + y))
    | .string s, .string t => .ok (.string (s ++ t))
    | _, _ => .error .operandsNotAddable
  | kind =>
    match applyNumeric? kind, left, right with
    | some apply, .number x, .number y => .ok (apply x y)
    | some _, _, _ => .error .operandsNotNumbers
    | none, _, _ => .error (.unknownBinary operator.lexeme)

def decides (operator : Token) (left : Value) : Except Fault Bool :=
  match operator.kind with
  | .orWord => .ok left.isTruthy
  | .andWord => .ok !left.isTruthy
  | _ => .error (.unknownLogical operator.lexeme)

end Value

namespace Builtin

/-- The result of a builtin, or a message; `clock` is the reading at this moment. -/
def apply (clock : Option Float) (builtin : Builtin) (arguments : List Value) :
    Except String Value :=
  let first := arguments.getD 0 .nil
  let second := arguments.getD 1 .nil
  match builtin with
  | .clock =>
    match clock with
    | some seconds => .ok (.number seconds)
    | none => .error "Time went backwards."
  | .str => .ok (.string first.text)
  | .len =>
    match first.string? with
    | some s => .ok (.number (Float.ofNat s.length))
    | none => .error s!"Expected a string but got a {first.typeName}."
  | .assert => if first.isTruthy then .ok .nil else .error "Assertion failed."
  | .assertEq =>
    if first.equals second then .ok .nil
    else .error s!"Assertion failed: {first.inspect} != {second.inspect}."

end Builtin

end Scriptlet
