import Scriptlet.Number.Decimal
import Scriptlet.Settings

/-!
Settings from JSON text: an object with the settings by name, or an array with the first of them in
order. What is left out keeps its default, and unknown names are skipped; a name given twice, a value
of the wrong kind and anything that is not JSON are refused.
-/

namespace Scriptlet

inductive Json where
  | null
  | boolean (value : Bool)
  /-- With its value if it is written as a natural number. -/
  | number (value : Option Nat)
  | string
  | array (items : List Json)
  /-- Names are absent where they hold half of a surrogate pair. -/
  | object (members : List (Option String × Json))

namespace Json

def isBlank (c : Char) : Bool := c = ' ' || c = '\t' || c = '\n' || c = '\r'

def skipBlanks (cs : List Char) : List Char := cs.dropWhile isBlank

def hexDigit? (c : Char) : Option Nat :=
  if '0' ≤ c ∧ c ≤ '9' then some (c.toNat - '0'.toNat)
  else if 'a' ≤ c ∧ c ≤ 'f' then some (c.toNat - 'a'.toNat + 10)
  else if 'A' ≤ c ∧ c ≤ 'F' then some (c.toNat - 'A'.toNat + 10)
  else none

def escape? : Char → Option Char
  | '"' => some '"'
  | '\\' => some '\\'
  | '/' => some '/'
  | 'b' => some '\x08'
  | 'f' => some '\x0c'
  | 'n' => some '\n'
  | 'r' => some '\r'
  | 't' => some '\t'
  | _ => none

def units : List Char → Option (List Nat × List Char)
  | [] => none
  | '"' :: rest => some ([], rest)
  | '\\' :: 'u' :: a :: b :: c :: d :: rest => do
    let unit := (((← hexDigit? a) * 16 + (← hexDigit? b)) * 16 + (← hexDigit? c)) * 16 + (← hexDigit? d)
    let (us, rest) ← units rest
    return (unit :: us, rest)
  | '\\' :: letter :: rest => do
    let c ← escape? letter
    let (us, rest) ← units rest
    return (c.toNat :: us, rest)
  | c :: rest => do
    if c < ' ' then none
    let (us, rest) ← units rest
    return (c.toNat :: us, rest)

/-- The characters of code units; a surrogate counts only as one of a pair. -/
def characters? : List Nat → Option (List Char)
  | [] => some []
  | high :: low :: rest =>
    if 0xd800 ≤ high ∧ high < 0xdc00 then
      if 0xdc00 ≤ low ∧ low < 0xe000 then
        (characters? rest).map (Char.ofNat (0x10000 + (high - 0xd800) * 0x400 + (low - 0xdc00)) :: ·)
      else none
    else if 0xdc00 ≤ high ∧ high < 0xe000 then none
    else (characters? (low :: rest)).map (Char.ofNat high :: ·)
  | [unit] => if 0xd800 ≤ unit ∧ unit < 0xe000 then none else some [Char.ofNat unit]

def digits? (cs : List Char) : Option (List Char × List Char) :=
  match cs.takeWhile Char.isDigit with
  | [] => none
  | digits => some (digits, cs.dropWhile Char.isDigit)

def fraction? : List Char → Option (Bool × List Char)
  | '.' :: cs => (digits? cs).map fun (_, rest) => (true, rest)
  | cs => some (false, cs)

def exponent? : List Char → Option (Bool × List Char)
  | c :: cs =>
    if c = 'e' || c = 'E' then
      let cs := if cs.head? = some '+' || cs.head? = some '-' then cs.drop 1 else cs
      (digits? cs).map fun (_, rest) => (true, rest)
    else some (false, c :: cs)
  | [] => some (false, [])

def number? (cs : List Char) : Option (Json × List Char) := do
  let negative := cs.head? = some '-'
  let (digits, rest) ← digits? (if negative then cs.drop 1 else cs)
  if digits.head? = some '0' ∧ digits.length ≠ 1 then none
  let (fractional, rest) ← fraction? rest
  let (scaled, rest) ← exponent? rest
  let value := if negative || fractional || scaled then none else some (Decimal.naturalOf digits)
  return (.number value, rest)

mutual

/-- A value at the front of the text. No value nests deeper than the fuel, the length of the text. -/
def value? : Nat → List Char → Option (Json × List Char)
  | 0, _ => none
  | fuel + 1, cs =>
    match skipBlanks cs with
    | 'n' :: 'u' :: 'l' :: 'l' :: rest => some (.null, rest)
    | 't' :: 'r' :: 'u' :: 'e' :: rest => some (.boolean true, rest)
    | 'f' :: 'a' :: 'l' :: 's' :: 'e' :: rest => some (.boolean false, rest)
    | '"' :: rest => (units rest).map fun (_, rest) => (.string, rest)
    | '[' :: rest =>
      match skipBlanks rest with
      | ']' :: rest => some (.array [], rest)
      | rest => (items? fuel rest).map fun (items, rest) => (.array items, rest)
    | '{' :: rest =>
      match skipBlanks rest with
      | '}' :: rest => some (.object [], rest)
      | rest => (members? fuel rest).map fun (members, rest) => (.object members, rest)
    | cs => number? cs

def items? : Nat → List Char → Option (List Json × List Char)
  | 0, _ => none
  | fuel + 1, cs => do
    let (item, rest) ← value? fuel cs
    match skipBlanks rest with
    | ']' :: rest => some ([item], rest)
    | ',' :: rest => (items? fuel rest).map fun (items, rest) => (item :: items, rest)
    | _ => none

def members? : Nat → List Char → Option (List (Option String × Json) × List Char)
  | 0, _ => none
  | fuel + 1, cs => do
    let '"' :: rest := skipBlanks cs | none
    let (us, rest) ← units rest
    let ':' :: rest := skipBlanks rest | none
    let (value, rest) ← value? fuel rest
    let member := ((characters? us).map String.ofList, value)
    match skipBlanks rest with
    | '}' :: rest => some ([member], rest)
    | ',' :: rest => (members? fuel rest).map fun (members, rest) => (member :: members, rest)
    | _ => none

end

def ofText? (text : String) : Option Json := do
  let cs := text.toList
  let (value, rest) ← value? (2 * cs.length + 2) cs
  if (skipBlanks rest).isEmpty then some value else none

def count? : Json → Option UInt64
  | .number (some n) => if n < UInt64.size then some n.toUInt64 else none
  | _ => none

def boolean? : Json → Option Bool
  | .boolean b => some b
  | _ => none

end Json

namespace Settings

structure Given where
  maxLoopIterations : Option UInt64 := none
  maxCallDepth : Option UInt64 := none
  allowBuiltinShadowing : Option Bool := none

namespace Given

def add (given : Given) (name : String) (value : Json) : Option Given :=
  match name with
  | "max_loop_iterations" =>
    if given.maxLoopIterations.isSome then none
    else value.count?.map fun n => { given with maxLoopIterations := some n }
  | "max_call_depth" =>
    if given.maxCallDepth.isSome then none
    else value.count?.map fun n => { given with maxCallDepth := some n }
  | "allow_builtin_shadowing" =>
    if given.allowBuiltinShadowing.isSome then none
    else value.boolean?.map fun b => { given with allowBuiltinShadowing := some b }
  | _ => some given

def names : List String := ["max_loop_iterations", "max_call_depth", "allow_builtin_shadowing"]

def override (given : Given) (settings : Settings) : Settings where
  maxLoopIterations := given.maxLoopIterations.getD settings.maxLoopIterations
  maxCallDepth := given.maxCallDepth.getD settings.maxCallDepth
  allowBuiltinShadowing := given.allowBuiltinShadowing.getD settings.allowBuiltinShadowing

end Given

def ofJson? : Json → Option Settings
  | .object members => do
    let given ← members.foldlM (fun (given : Given) (name, value) => do given.add (← name) value) {}
    return given.override {}
  | .array items => do
    if Given.names.length < items.length then none
    let given ← (Given.names.zip items).foldlM (fun (given : Given) (name, value) => given.add name value) {}
    return given.override {}
  | _ => none

def ofText? (text : String) : Option Settings := do ofJson? (← Json.ofText? text)

end Settings

end Scriptlet
