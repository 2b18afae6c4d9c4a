import Scriptlet.Machine.Evaluate

/-!
Execution of statements and calls. A loop makes at most as many rounds as the settings allow, each
execution of it counted on its own. A call runs the body of the function in a new frame inside the
frame where the function was declared. The stack is checked before a loop and before a call, be it
of a declared function or of one of the host.
-/

namespace Scriptlet

/-- A loop that may still make so many of its `limit` rounds. One more is an error. -/
def runLoop (limit : Nat) (keyword : Token) (condition : Eval Bool) (body : Eval Flow)
    (increment : Eval Unit) : Nat → Eval Flow
  | 0 => do
    if ← condition then Eval.raise (.loopLimit limit) keyword else pure .normal
  | rounds + 1 => do
    if ← condition then
      match ← body with
      | .returning value => pure (.returning value)
      | .normal =>
        increment
        runLoop limit keyword condition body increment rounds
    else
      pure .normal

mutual

def execute (host : Host) (call : Caller) : Stmt → Eval Flow
  | .expression value => do
    discard (evaluate host call value)
    pure .normal
  | .print keyword value => do
    let value ← evaluate host call value
    Eval.write keyword (value.text ++ "\n")
    pure .normal
  | .block body => Eval.inScope (executeAll host call body)
  | .conditional condition thenBranch elseBranch => do
    if (← evaluate host call condition).isTruthy then execute host call thenBranch
    else
      match elseBranch with
      | some branch => execute host call branch
      | none => pure .normal
  | .whileLoop keyword condition body => do
    Eval.checkStack host keyword
    runLoop host.settings.roundLimit keyword (Value.isTruthy <$> evaluate host call condition)
      (execute host call body) (pure ()) host.settings.roundLimit
  | .forLoop keyword initializer condition increment body => do
    Eval.checkStack host keyword
    Eval.inScope do
      match initializer with
      | some first => discard (execute host call first)
      | none => pure ()
      runLoop host.settings.roundLimit keyword
        (Value.isTruthy <$> evaluateOr host call (.boolean true) condition)
        (execute host call body) (discard (evaluateOr host call .nil increment))
        host.settings.roundLimit
  | .variableDecl name initializer constant => do
    Eval.guardBuiltin host.settings name
    let value ← evaluateOr host call .nil initializer
    Eval.define name ⟨value, constant⟩
    pure .normal
  | .functionDecl name parameters body => do
    Eval.guardBuiltin host.settings name
    let value ← Eval.makeClosure name parameters body
    Eval.define name ⟨value, false⟩
    pure .normal
  | .returnStmt _ value => .returning <$> evaluateOr host call .nil value

/-- Statements in order, up to the first that returns. -/
def executeAll (host : Host) (call : Caller) : List Stmt → Eval Flow
  | [] => pure .normal
  | s :: ss => do
    match ← execute host call s with
    | .returning value => pure (.returning value)
    | .normal => executeAll host call ss

end

def guardArity (paren : Token) (expected : Nat) (arguments : List Value) : Eval Unit :=
  if arguments.length = expected then pure ()
  else Eval.raise (.argumentCount expected arguments.length) paren

/-- Calls a value. `calls` is how many calls of declared functions may nest in this one; where the
settings allow no more than these, it is never used up. -/
def callValue (host : Host) : (calls : Nat) → Caller
  | calls, .function f, paren, arguments => do
    guardArity paren f.parameters.length arguments
    Eval.guardCall host paren
    match calls with
    | 0 => Eval.raise .stackOverflow paren
    | calls + 1 =>
      let frame := Frame.defineAll ⟨[], some f.scope⟩ (f.parameters.map Token.lexeme) arguments
      let flow ← Eval.inCall (Eval.inFrame frame (executeAll host (callValue host calls) f.body))
      match flow with
      | .returning value => pure value
      | .normal => pure .nil
  | _, .native f, paren, arguments => do
    guardArity paren f.arity arguments
    Eval.guardCall host paren
    Eval.inCall (Eval.applyNative host paren f.code arguments)
  | _, _, paren, _ => Eval.raise .notCallable paren

end Scriptlet
