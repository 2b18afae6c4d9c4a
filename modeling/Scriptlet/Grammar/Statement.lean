import Scriptlet.Grammar.Expression

/-!
The grammar of statements and declarations. A statement and a function body each take one level of
nesting; a declaration takes none of its own. Errors inside a block are recorded, and the block goes
on at the next statement boundary.
-/

namespace Scriptlet

namespace Parse

def variableDecl (whole : Parse Expr) : Parse Stmt := do
  let keyword ← take
  let name ← expect .identifier .variableName
  let initializer ← match ← accept (· = .equal) with
    | some _ => some <$> whole
    | none => pure none
  let constant := keyword.kind = .constWord
  if constant && initializer.isNone then recordHere .constantValue
  discard (expect .semicolon .declarationEnd)
  pure (.variableDecl name initializer constant)

def functionDecl (body : Parse (List Stmt)) : Parse Stmt := do
  discard take
  let name ← expect .identifier .functionName
  discard (expect .leftParen .parametersStart)
  let parameters ← listed .tooManyParameters (expect .identifier .parameterName)
  discard (expect .rightParen .parametersEnd)
  discard (expect .leftBrace .bodyStart)
  let body ← body
  pure (.functionDecl name parameters body)

def block (item : Parse Stmt) : Parse (List Stmt) := do
  let body ← itemsUntil (fun kind => kind = .rightBrace || kind = .endOfInput) item skipInBlock
    (← upcoming)
  discard (expect .rightBrace .blockEnd)
  pure body

def expressionStmt (whole : Parse Expr) : Parse Stmt := do
  let value ← whole
  discard (expect .semicolon .expressionEnd)
  pure (.expression value)

def printStmt (whole : Parse Expr) : Parse Stmt := do
  let keyword ← take
  let value ← whole
  discard (expect .semicolon .printEnd)
  pure (.print keyword value)

def optional (stop : Kind) (whole : Parse Expr) : Parse (Option Expr) := do
  if (← lookahead) = stop then pure none else some <$> whole

def returnStmt (inFunction : Bool) (whole : Parse Expr) : Parse Stmt := do
  let keyword ← take
  if !inFunction then record ⟨.topLevelReturn, keyword⟩
  let value ← optional .semicolon whole
  discard (expect .semicolon .returnEnd)
  pure (.returnStmt keyword value)

/-- An `if`; an `else` belongs to the nearest one. -/
def conditional (whole : Parse Expr) (branch : Parse Stmt) : Parse Stmt := do
  discard take
  discard (expect .leftParen .ifStart)
  let condition ← whole
  discard (expect .rightParen .ifEnd)
  let thenBranch ← branch
  match ← accept (· = .elseWord) with
  | some _ => return .conditional condition thenBranch (some (← branch))
  | none => return .conditional condition thenBranch none

def whileLoop (whole : Parse Expr) (body : Parse Stmt) : Parse Stmt := do
  let keyword ← take
  discard (expect .leftParen .whileStart)
  let condition ← whole
  discard (expect .rightParen .whileEnd)
  return .whileLoop keyword condition (← body)

def forInitializer (whole : Parse Expr) : Parse (Option Stmt) := do
  match ← lookahead with
  | .semicolon =>
    discard take
    pure none
  | .letWord | .constWord => some <$> variableDecl whole
  | _ => some <$> expressionStmt whole

def forLoop (whole : Parse Expr) (body : Parse Stmt) : Parse Stmt := do
  let keyword ← take
  discard (expect .leftParen .forStart)
  let initializer ← forInitializer whole
  let condition ← optional .semicolon whole
  discard (expect .semicolon .forCondition)
  let increment ← optional .rightParen whole
  discard (expect .rightParen .forEnd)
  return .forLoop keyword initializer condition increment (← body)

/-- A statement whose parts are one level deeper: expressions, statements and block items. -/
def statementOver (inFunction : Bool) (whole : Parse Expr) (branch item : Parse Stmt) :
    Parse Stmt := do
  match ← lookahead with
  | .ifWord => conditional whole branch
  | .whileWord => whileLoop whole branch
  | .forWord => forLoop whole branch
  | .returnWord => returnStmt inFunction whole
  | .printWord => printStmt whole
  | .leftBrace =>
    discard take
    .block <$> block item
  | _ => expressionStmt whole

def declarationOver (whole : Parse Expr) (body : Parse (List Stmt)) (stmt : Parse Stmt) :
    Parse Stmt := do
  match ← lookahead with
  | .letWord | .constWord => variableDecl whole
  | .functionWord => functionDecl body
  | _ => stmt

mutual

def statement : Nat → Bool → Parse Stmt
  | 0, _, c => fail .tooMuchNesting c
  | room + 1, inFunction, c =>
    statementOver inFunction (expression room) (statement room inFunction)
      (declaration room inFunction) c

def declaration : Nat → Bool → Parse Stmt
  | 0, _, c =>
    declarationOver (expression 0) (fail .tooMuchNesting) (fail .tooMuchNesting) c
  | room + 1, inFunction, c =>
    declarationOver (expression (room + 1)) (block (declaration room true))
      (statementOver inFunction (expression room) (statement room inFunction)
        (declaration room inFunction)) c

end

theorem statement_succ (room : Nat) (inFunction : Bool) :
    statement (room + 1) inFunction =
      statementOver inFunction (expression room) (statement room inFunction)
        (declaration room inFunction) := rfl

theorem declaration_zero (inFunction : Bool) :
    declaration 0 inFunction =
      declarationOver (expression 0) (fail .tooMuchNesting) (statement 0 inFunction) := rfl

theorem declaration_succ (room : Nat) (inFunction : Bool) :
    declaration (room + 1) inFunction =
      declarationOver (expression (room + 1)) (block (declaration room true))
        (statement (room + 1) inFunction) := rfl

end Parse

end Scriptlet
