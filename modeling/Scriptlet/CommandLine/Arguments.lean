import Scriptlet.Number.Decimal
import Scriptlet.Settings.Json

/-!
The arguments of the command line. Options stand before or after the file; each may be given once,
its value behind `=` or as the next argument, and `--` ends them.
-/

namespace Scriptlet.CommandLine

structure Arguments where
  file : Option String := none
  tokens : Bool := false
  tree : Bool := false
  config : Option String := none
  maxLoopIterations : Option UInt64 := none
  maxCallDepth : Option UInt64 := none
  allowBuiltinShadowing : Bool := false
  deriving DecidableEq, Repr

namespace Arguments

/-- A number that fits 64 bits, perhaps with a plus sign. -/
def count? (s : String) : Option UInt64 :=
  let digits := match s.toList with
    | '+' :: digits => digits
    | digits => digits
  if digits.isEmpty || !digits.all Char.isDigit then none
  else if Decimal.naturalOf digits < UInt64.size then some (Decimal.naturalOf digits).toUInt64
  else none

def path? (s : String) : Option String := if s.isEmpty then none else some s

/-- Whether an argument is read as an option: a dash alone is not. -/
def isOption (s : String) : Bool :=
  match s.toList with
  | '-' :: _ :: _ => true
  | _ => false

def addFile (a : Arguments) (s : String) : Option Arguments :=
  if a.file.isSome then none else (path? s).map fun path => { a with file := some path }

def addFlag? (a : Arguments) : String → Option (Option Arguments)
  | "--tokens" => some (if a.tokens then none else some { a with tokens := true })
  | "--ast" => some (if a.tree then none else some { a with tree := true })
  | "--allow-builtin-shadowing" =>
    some (if a.allowBuiltinShadowing then none else some { a with allowBuiltinShadowing := true })
  | _ => none

def addValue (a : Arguments) (name value : String) : Option Arguments :=
  match name with
  | "--config" =>
    if a.config.isSome then none else (path? value).map fun path => { a with config := some path }
  | "--max-loop-iterations" =>
    if a.maxLoopIterations.isSome then none
    else (count? value).map fun n => { a with maxLoopIterations := some n }
  | "--max-call-depth" =>
    if a.maxCallDepth.isSome then none
    else (count? value).map fun n => { a with maxCallDepth := some n }
  | _ => none

def attached? (s : String) : Option (String × String) :=
  match s.toList.dropWhile (· ≠ '=') with
  | _ :: value => some (String.ofList (s.toList.takeWhile (· ≠ '=')), String.ofList value)
  | [] => none

def read (a : Arguments) : List String → Option Arguments
  | [] => some a
  | "--" :: files => files.foldlM addFile a
  | s :: rest =>
    if !isOption s then do read (← addFile a s) rest
    else
      match attached? s with
      | some (name, value) => do read (← addValue a name value) rest
      | none =>
        match addFlag? a s with
        | some flagged => do read (← flagged) rest
        | none =>
          match rest with
          | value :: rest => if isOption value then none else do read (← addValue a s value) rest
          | [] => none

def ofList? (arguments : List String) : Option Arguments := read {} arguments

def given (a : Arguments) : Settings.Given where
  maxLoopIterations := a.maxLoopIterations
  maxCallDepth := a.maxCallDepth
  allowBuiltinShadowing := if a.allowBuiltinShadowing then some true else none

end Arguments

end Scriptlet.CommandLine
