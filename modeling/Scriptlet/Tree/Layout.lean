import Scriptlet.Number.Shortest
import Scriptlet.Tree

/-!
Trees as text. The canonical layout is source text again: one statement on a line, two spaces for
each enclosing block. The parenthesized layout also wraps every operator and assignment, so that the
shape of the tree can be seen.
-/

namespace Scriptlet

inductive Layout where
  | canonical
  | parenthesized
  deriving DecidableEq, Repr

namespace Layout

def group : Layout → String → String
  | .canonical, text => text
  | .parenthesized, text => "(" ++ text ++ ")"

def indent (level : Nat) : String := String.ofList (List.replicate (2 * level) ' ')

end Layout

def Constant.text : Constant → String
  | .nil => "nil"
  | .boolean value => if value then "true" else "false"
  | .number value => Number.text value
  | .string value => "\"" ++ value ++ "\""

mutual

def Expr.text (layout : Layout) : Expr → String
  | .literal value => value.text
  | .identifier name => name.lexeme
  | .grouping inner => "(" ++ inner.text layout ++ ")"
  | .unary operator operand => layout.group (operator.lexeme ++ operand.text layout)
  | .binary left operator right =>
    layout.group (left.text layout ++ " " ++ operator.lexeme ++ " " ++ right.text layout)
  | .logical left operator right =>
    layout.group (left.text layout ++ " " ++ operator.lexeme ++ " " ++ right.text layout)
  | .assignment name value => layout.group (name.lexeme ++ " = " ++ value.text layout)
  | .call callee _ arguments =>
    callee.text layout ++ "(" ++ ", ".intercalate (Expr.texts layout arguments) ++ ")"

def Expr.texts (layout : Layout) : List Expr → List String
  | [] => []
  | e :: es => e.text layout :: Expr.texts layout es

end

def Expr.textOf? (layout : Layout) (before : String) : Option Expr → String
  | some e => before ++ e.text layout
  | none => ""

mutual

/-- A statement inside `level` blocks, without indentation and line break of its own. -/
def Stmt.text (layout : Layout) (level : Nat) : Stmt → String
  | .expression value => value.text layout ++ ";"
  | .print _ value => "print " ++ value.text layout ++ ";"
  | .block body => "\x7b\n" ++ Stmt.lines layout (level + 1) body ++ Layout.indent level ++ "\x7d"
  | .conditional condition thenBranch elseBranch =>
    "if (" ++ condition.text layout ++ ") " ++ thenBranch.text layout level ++
      match elseBranch with
      | some branch => " else " ++ branch.text layout level
      | none => ""
  | .whileLoop _ condition body =>
    "while (" ++ condition.text layout ++ ") " ++ body.text layout level
  | .forLoop _ initializer condition increment body =>
    "for (" ++
      (match initializer with
        | some first => first.text layout level
        | none => ";") ++
      Expr.textOf? layout " " condition ++ ";" ++ Expr.textOf? layout " " increment ++ ") " ++
      body.text layout level
  | .variableDecl name initializer constant =>
    (if constant then "const " else "let ") ++ name.lexeme ++
      Expr.textOf? layout " = " initializer ++ ";"
  | .functionDecl name parameters body =>
    "function " ++ name.lexeme ++ "(" ++ ", ".intercalate (parameters.map Token.lexeme) ++ ") " ++
      "\x7b\n" ++ Stmt.lines layout (level + 1) body ++ Layout.indent level ++ "\x7d"
  | .returnStmt _ value => "return" ++ Expr.textOf? layout " " value ++ ";"

def Stmt.lines (layout : Layout) (level : Nat) : List Stmt → String
  | [] => ""
  | s :: ss =>
    Layout.indent level ++ s.text layout level ++ "\n" ++ Stmt.lines layout level ss

end

def Program.text (layout : Layout) (program : Program) : String := Stmt.lines layout 0 program

end Scriptlet
