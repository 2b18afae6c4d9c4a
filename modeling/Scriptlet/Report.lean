/-!
Diagnostics as a reader sees them: what went wrong, at which stage and where.
-/

namespace Scriptlet

inductive Stage where
  | lexer
  | parse
  | runtime
  deriving DecidableEq, Repr

def Stage.name : Stage → String
  | .lexer => "Lexer"
  | .parse => "Parse"
  | .runtime => "Runtime"

structure Report where
  stage : Stage
  line : Nat
  column : Option Nat
  message : String
  deriving DecidableEq, Repr

namespace Report

def text (r : Report) : String :=
  let place := match r.column with
    | some column => s!"{r.line}:{column}"
    | none => s!"{r.line}"
  s!"[{r.stage.name} Error] Line {place} - {r.message}"

def render (reports : List Report) : String :=
  String.join (reports.map fun r => r.text ++ "\n")

end Report

end Scriptlet
