import Scriptlet.Machine

/-!
Evaluation of expressions. The stack is checked before the parts of an operator, an assignment or a
call. Operands are evaluated from left to right before an operator is looked at; how a call is made
is left open.
-/

namespace Scriptlet

abbrev Caller := Value → Token → List Value → Eval Value

mutual

def evaluate (host : Host) (call : Caller) : Expr → Eval Value
  | .literal value => pure (.ofConstant value)
  | .identifier name => Eval.lookUp name
  | .grouping inner => evaluate host call inner
  | .unary operator operand => do
    Eval.checkStack host operator
    let operand ← evaluate host call operand
    Eval.settle operator (Value.applyUnary operator operand)
  | .binary left operator right => do
    Eval.checkStack host operator
    let left ← evaluate host call left
    let right ← evaluate host call right
    Eval.settle operator (Value.applyBinary operator left right)
  | .logical left operator right => do
    Eval.checkStack host operator
    let left ← evaluate host call left
    if ← Eval.settle operator (Value.decides operator left) then pure left
    else evaluate host call right
  | .assignment name value => do
    Eval.checkStack host name
    let value ← evaluate host call value
    Eval.assign name value
    pure value
  | .call callee paren arguments => do
    Eval.checkStack host paren
    let callee ← evaluate host call callee
    let arguments ← evaluateAll host call arguments
    call callee paren arguments

def evaluateAll (host : Host) (call : Caller) : List Expr → Eval (List Value)
  | [] => pure []
  | e :: es => do
    let value ← evaluate host call e
    let values ← evaluateAll host call es
    pure (value :: values)

end

def evaluateOr (host : Host) (call : Caller) (absent : Value) : Option Expr → Eval Value
  | some e => evaluate host call e
  | none => pure absent

end Scriptlet
