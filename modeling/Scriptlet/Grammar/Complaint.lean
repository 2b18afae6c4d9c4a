import Scriptlet.Report
import Scriptlet.Token

/-!
Syntax errors: what the grammar misses or refuses, and the token at which it was noticed.
-/

namespace Scriptlet

inductive Complaint where
  | expression
  | endOfExpression
  | groupEnd
  | argumentsEnd
  | expressionEnd
  | printEnd
  | returnEnd
  | blockEnd
  | variableName
  | constantValue
  | declarationEnd
  | functionName
  | parametersStart
  | parameterName
  | parametersEnd
  | bodyStart
  | ifStart
  | ifEnd
  | whileStart
  | whileEnd
  | forStart
  | forCondition
  | forEnd
  | invalidTarget
  | topLevelReturn
  | tooManyArguments
  | tooManyParameters
  | tooMuchNesting
  deriving DecidableEq, Repr

def Complaint.message : Complaint → String
  | .expression => "Expect expression."
  | .endOfExpression => "Expect end of expression."
  | .groupEnd => "Expect ')' after expression."
  | .argumentsEnd => "Expect ')' after arguments."
  | .expressionEnd => "Expect ';' after expression."
  | .printEnd => "Expect ';' after value."
  | .returnEnd => "Expect ';' after return value."
  | .blockEnd => "Expect '\x7d' after block."
  | .variableName => "Expect variable name."
  | .constantValue => "Expect '=' after constant name."
  | .declarationEnd => "Expect ';' after variable declaration."
  | .functionName => "Expect function name."
  | .parametersStart => "Expect '(' after function name."
  | .parameterName => "Expect parameter name."
  | .parametersEnd => "Expect ')' after parameters."
  | .bodyStart => "Expect '\x7b' before function body."
  | .ifStart => "Expect '(' after 'if'."
  | .ifEnd => "Expect ')' after if condition."
  | .whileStart => "Expect '(' after 'while'."
  | .whileEnd => "Expect ')' after condition."
  | .forStart => "Expect '(' after 'for'."
  | .forCondition => "Expect ';' after loop condition."
  | .forEnd => "Expect ')' after for clauses."
  | .invalidTarget => "Invalid assignment target."
  | .topLevelReturn => "Can't return from top-level code."
  | .tooManyArguments => "Can't have more than 255 arguments."
  | .tooManyParameters => "Can't have more than 255 parameters."
  | .tooMuchNesting => "Too much nesting."

structure SyntaxError where
  complaint : Complaint
  token : Token
  deriving DecidableEq

def SyntaxError.report (e : SyntaxError) : Report :=
  ⟨.parse, e.token.position.line, some e.token.position.column, e.complaint.message⟩

end Scriptlet
