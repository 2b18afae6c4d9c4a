import Scriptlet.Token

/-!
Programs as trees. A tree keeps the tokens that diagnostics point at: operators, names, the
keywords of statements that can fail, and the closing parenthesis of a call.
-/

namespace Scriptlet

inductive Constant where
  | nil
  | boolean (value : Bool)
  | number (value : Float)
  | string (value : String)
  deriving DecidableEq

inductive Expr where
  | literal (value : Constant)
  | identifier (name : Token)
  | grouping (inner : Expr)
  | unary (operator : Token) (operand : Expr)
  | binary (left : Expr) (operator : Token) (right : Expr)
  | logical (left : Expr) (operator : Token) (right : Expr)
  | assignment (name : Token) (value : Expr)
  | call (callee : Expr) (paren : Token) (arguments : List Expr)

inductive Stmt where
  | expression (value : Expr)
  | print (keyword : Token) (value : Expr)
  | block (body : List Stmt)
  | conditional (condition : Expr) (thenBranch : Stmt) (elseBranch : Option Stmt)
  | whileLoop (keyword : Token) (condition : Expr) (body : Stmt)
  | forLoop (keyword : Token) (initializer : Option Stmt) (condition increment : Option Expr)
      (body : Stmt)
  | variableDecl (name : Token) (initializer : Option Expr) (constant : Bool)
  | functionDecl (name : Token) (parameters : List Token) (body : List Stmt)
  | returnStmt (keyword : Token) (value : Option Expr)

abbrev Program := List Stmt

end Scriptlet
