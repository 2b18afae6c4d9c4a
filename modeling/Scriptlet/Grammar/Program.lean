import Scriptlet.Grammar.Statement

/-!
Reading whole token lists. A tree is returned only if no error was met; otherwise all errors are, in
the order in which they were recorded.
-/

namespace Scriptlet

namespace Grammar

def nestingLimit : Nat := 64

def declaration : Parse Stmt := Parse.declaration nestingLimit false

def statement : Parse Stmt := Parse.statement nestingLimit false

def statements : Parse Program := do
  Parse.itemsUntil (· = .endOfInput) declaration Parse.skip (← Parse.upcoming)

/-- What a routine gave, unless errors were recorded or it failed. -/
def settle {α : Type} : EStateM.Result SyntaxError Cursor α → Except (List SyntaxError) α
  | .ok x c => if c.errors.isEmpty then .ok x else .error c.errors
  | .error e c => .error (c.record e).errors

def programFrom (c : Cursor) : Except (List SyntaxError) Program := settle (statements c)

def program (tokens : List Token) : Except (List SyntaxError) Program :=
  programFrom (.ofTokens tokens)

def wholeExpression : Parse Expr := do
  let value ← Parse.expression nestingLimit
  if (← Parse.lookahead) ≠ .endOfInput then Parse.recordHere .endOfExpression
  pure value

def expression (tokens : List Token) : Except (List SyntaxError) Expr :=
  settle (wholeExpression (.ofTokens tokens))

end Grammar

end Scriptlet
