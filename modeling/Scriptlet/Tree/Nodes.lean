import Scriptlet.Tree

/-!
The nodes of a tree in the order of the text: every node before its children, and children from left
to right.
-/

namespace Scriptlet

inductive Node where
  | expr (node : Expr)
  | stmt (node : Stmt)

mutual

def Expr.nodes (e : Expr) : List Node :=
  .expr e ::
    match e with
    | .literal _ => []
    | .identifier _ => []
    | .grouping inner => inner.nodes
    | .unary _ operand => operand.nodes
    | .binary left _ right => left.nodes ++ right.nodes
    | .logical left _ right => left.nodes ++ right.nodes
    | .assignment _ value => value.nodes
    | .call callee _ arguments => callee.nodes ++ Expr.nodesOfAll arguments

def Expr.nodesOfAll : List Expr → List Node
  | [] => []
  | e :: es => e.nodes ++ Expr.nodesOfAll es

end

def Expr.nodesOf? : Option Expr → List Node
  | some e => e.nodes
  | none => []

mutual

def Stmt.nodes (s : Stmt) : List Node :=
  .stmt s ::
    match s with
    | .expression value => value.nodes
    | .print _ value => value.nodes
    | .block body => Stmt.nodesOfAll body
    | .conditional condition thenBranch elseBranch =>
      condition.nodes ++ thenBranch.nodes ++
        match elseBranch with
        | some branch => branch.nodes
        | none => []
    | .whileLoop _ condition body => condition.nodes ++ body.nodes
    | .forLoop _ initializer condition increment body =>
      (match initializer with
        | some first => first.nodes
        | none => []) ++ Expr.nodesOf? condition ++ Expr.nodesOf? increment ++ body.nodes
    | .variableDecl _ initializer _ => Expr.nodesOf? initializer
    | .functionDecl _ _ body => Stmt.nodesOfAll body
    | .returnStmt _ value => Expr.nodesOf? value

def Stmt.nodesOfAll : List Stmt → List Node
  | [] => []
  | s :: ss => s.nodes ++ Stmt.nodesOfAll ss

end

def Stmt.nodesOf? : Option Stmt → List Node
  | some s => s.nodes
  | none => []

theorem Stmt.nodes_conditional (condition : Expr) (thenBranch : Stmt) (elseBranch : Option Stmt) :
    (Stmt.conditional condition thenBranch elseBranch).nodes =
      .stmt (.conditional condition thenBranch elseBranch) ::
        (condition.nodes ++ thenBranch.nodes ++ Stmt.nodesOf? elseBranch) := by
  cases elseBranch <;> simp only [Stmt.nodes, Stmt.nodesOf?]

theorem Stmt.nodes_forLoop (keyword : Token) (initializer : Option Stmt)
    (condition increment : Option Expr) (body : Stmt) :
    (Stmt.forLoop keyword initializer condition increment body).nodes =
      .stmt (.forLoop keyword initializer condition increment body) ::
        (Stmt.nodesOf? initializer ++ Expr.nodesOf? condition ++ Expr.nodesOf? increment ++
          body.nodes) := by
  cases initializer <;> simp only [Stmt.nodes, Stmt.nodesOf?]

namespace Node

def identifier? : Node → Option Token
  | .expr (.identifier name) => some name
  | _ => none

def isStmt : Node → Bool
  | .stmt _ => true
  | .expr _ => false

end Node

end Scriptlet
