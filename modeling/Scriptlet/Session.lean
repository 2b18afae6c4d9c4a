import Scriptlet.Grammar.Program
import Scriptlet.Machine.Execute
import Scriptlet.Token.Scan

/-!
What a host does with a machine: run programs and source texts, evaluate expressions, call functions.
Global names stay from one operation to the next, also after an error.
-/

namespace Scriptlet

/-- Compiles a source text: lexical errors first, then syntax errors, or else a program. -/
def compile (source : String) : Except (List Report) Program :=
  let scan := Scan.ofText source
  match Grammar.program scan.tokens with
  | .ok program => if scan.errors.isEmpty then .ok program else .error scan.reports
  | .error errors => .error (scan.reports ++ errors.map SyntaxError.report)

namespace Host

/-- Calls a value; as many calls may nest as the settings allow. -/
def call (host : Host) : Caller := callValue host host.settings.maxCallDepth.toNat

def evaluate (host : Host) (e : Expr) : Eval Value := Scriptlet.evaluate host host.call e

def executeBlock (host : Host) (body : List Stmt) : Eval Flow :=
  Eval.inScope (executeAll host host.call body)

def interpret (host : Host) (program : Program) : Eval Unit :=
  (executeAll host host.call program).asProgram

/-- Runs a source text; nothing runs unless all of it compiles. -/
def run (host : Host) (source : String) (m : Machine) : Except (List Report) Unit × Machine :=
  match compile source with
  | .error reports => (.error reports, m)
  | .ok program =>
    match host.interpret program m with
    | .ok _ m => (.ok (), m)
    | .error e m => (.error [e.report], m)

end Host

end Scriptlet
