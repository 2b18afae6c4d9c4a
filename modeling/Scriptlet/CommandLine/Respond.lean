import Scriptlet.CommandLine.Arguments
import Scriptlet.CommandLine.Directory
import Scriptlet.Session
import Scriptlet.Text.Blank
import Scriptlet.Tree.Layout

/-!
What the command line does. A source is listed as tokens, written back in canonical layout, or run.
Without a file, lines are read and processed one by one on the same machine, and an error in one does
not end the others.
-/

namespace Scriptlet.CommandLine

inductive Refusal where
  | unreadableConfig (path : String)
  | invalidConfig (path : String)
  | unreadableFile (path : String)
  deriving DecidableEq, Repr

def Refusal.message : Refusal → String
  | .unreadableConfig path => s!"Failed to read config file '{path}'"
  | .invalidConfig path => s!"Invalid config file '{path}'"
  | .unreadableFile path => s!"Failed to read the input file '{path}'"

def success : Nat := 0
def refused : Nat := 1
def misused : Nat := 2
def notCompiled : Nat := 65
def failed : Nat := 70

/-- The settings of a run: those of the arguments over those of the configuration file. -/
def settings (a : Arguments) (readFile : String → Option String) : Except Refusal Settings :=
  match a.config with
  | none => .ok (a.given.override {})
  | some path =>
    match readFile path with
    | none => .error (.unreadableConfig path)
    | some text =>
      match Settings.ofText? text with
      | none => .error (.invalidConfig path)
      | some settings => .ok (a.given.override settings)

def padLeft (width n : Nat) : String :=
  let digits := Nat.toDigits 10 n
  String.ofList (List.replicate (width - digits.length) ' ' ++ digits)

def padRight (width n : Nat) : String :=
  let digits := Nat.toDigits 10 n
  String.ofList (digits ++ List.replicate (width - digits.length) ' ')

def tokenLine (t : Token) : String :=
  padLeft 4 t.position.line ++ ":" ++ padRight 4 t.position.column ++ " " ++ t.kind.name ++ " " ++
    t.lexeme ++ "\n"

def print (text : String) (m : Machine) : Machine := m.modifyOutput (·.write text)

def codeOf (reports : List Report) : Nat :=
  match reports.head? with
  | none => success
  | some report => if report.stage = .runtime then failed else notCompiled

def process (a : Arguments) (host : Host) (source : String) (m : Machine) :
    List Report × Machine :=
  if a.tokens then
    let scan := Scan.ofText source
    (scan.reports, print (String.join (scan.tokens.map tokenLine)) m)
  else if a.tree then
    match compile source with
    | .ok program => ([], print (Program.text .canonical program) m)
    | .error reports => (reports, m)
  else
    match host.run source m with
    | (.ok _, m) => ([], m)
    | (.error reports, m) => (reports, m)

def processLine (a : Arguments) (host : Host) (line : String) (m : Machine) :
    List Report × Machine :=
  if Text.isBlankLine line then ([], m) else process a host line m

def prompt : String := "> "

def splitLines : List Char → List (List Char)
  | [] => []
  | c :: cs =>
    if c = '\n' then [c] :: splitLines cs
    else
      match splitLines cs with
      | [] => [[c]]
      | line :: lines => (c :: line) :: lines

def processLines (a : Arguments) (host : Host) : List String → Machine → List Report × Machine
  | [], m => ([], print (prompt ++ "\n") m)
  | line :: lines, m =>
    let (reports, m) := processLine a host line (print prompt m)
    let (more, m) := processLines a host lines m
    (reports ++ more, m)

structure Outcome where
  code : Nat
  out : String
  err : String
  deriving DecidableEq, Repr

namespace Outcome

def ofRefusal (refusal : Refusal) : Outcome := ⟨refused, "", s!"Error: {refusal.message}\n"⟩

def misuse : Outcome := ⟨misused, "", ""⟩

end Outcome

def startMachine : Machine := (Machine.fresh (.empty none)).installBuiltins

/-- A whole run, from its arguments, working directory and standard input. -/
def respond (arguments : List String) (directory : Directory) (input : String)
    (clock : Nat → Option Float) : Outcome :=
  match Arguments.ofList? arguments with
  | none => .misuse
  | some a =>
    match settings a directory.read? with
    | .error refusal => .ofRefusal refusal
    | .ok settings =>
      let host := Host.standard settings clock
      match a.file with
      | none =>
        let lines := (splitLines input.toList).map String.ofList
        let (reports, m) := processLines a host lines startMachine
        ⟨success, m.output.textFrom 0, Report.render reports⟩
      | some path =>
        match directory.read? path with
        | none => .ofRefusal (.unreadableFile path)
        | some source =>
          let (reports, m) := process a host source startMachine
          ⟨codeOf reports, m.output.textFrom 0, Report.render reports⟩

end Scriptlet.CommandLine
