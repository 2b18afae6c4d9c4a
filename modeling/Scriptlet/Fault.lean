import Scriptlet.Report
import Scriptlet.Token

/-!
Runtime errors: the cause, and the token nearest to it.
-/

namespace Scriptlet

inductive Fault where
  | undefinedVariable (name : String)
  | constantAssignment (name : String)
  | builtinRedefinition (name : String)
  | operandNotNumber
  | operandsNotNumbers
  | operandsNotAddable
  | unknownUnary (lexeme : String)
  | unknownBinary (lexeme : String)
  | unknownLogical (lexeme : String)
  | notCallable
  | argumentCount (expected got : Nat)
  | stackOverflow
  | loopLimit (limit : Nat)
  | outputFailed (reason : String)
  | nativeFailed (message : String)
  deriving DecidableEq, Repr

def Fault.message : Fault → String
  | .undefinedVariable name => s!"Undefined variable '{name}'."
  | .constantAssignment name => s!"Cannot assign to constant '{name}'."
  | .builtinRedefinition name => s!"Cannot redefine builtin '{name}'."
  | .operandNotNumber => "Operand must be a number."
  | .operandsNotNumbers => "Operands must be numbers."
  | .operandsNotAddable => "Operands must be two numbers or two strings."
  | .unknownUnary lexeme => s!"Unknown unary operator '{lexeme}'."
  | .unknownBinary lexeme => s!"Unknown binary operator '{lexeme}'."
  | .unknownLogical lexeme => s!"Unknown logical operator '{lexeme}'."
  | .notCallable => "Can only call functions."
  | .argumentCount expected got => s!"Expected {expected} arguments but got {got}."
  | .stackOverflow => "Stack overflow."
  | .loopLimit limit => s!"Loop exceeded maximum of {limit} iterations."
  | .outputFailed reason => s!"Could not write output: {reason}."
  | .nativeFailed message => message

structure RuntimeError where
  fault : Fault
  token : Token
  deriving DecidableEq

def RuntimeError.report (e : RuntimeError) : Report :=
  ⟨.runtime, e.token.position.line, some e.token.position.column, e.fault.message⟩

end Scriptlet
