import Scriptlet.Number.Shortest
import Scriptlet.Text.Quoted
import Scriptlet.Tree

/-!
Values of running programs. A function is equal only to itself: each one has an identity of its own,
given to it when it was made.
-/

namespace Scriptlet

abbrev FrameId := Nat

inductive Builtin where
  | clock
  | str
  | len
  | assert
  | assertEq
  deriving DecidableEq, Repr

namespace Builtin

def all : List Builtin := [.clock, .str, .len, .assert, .assertEq]

def name : Builtin → String
  | .clock => "clock"
  | .str => "str"
  | .len => "len"
  | .assert => "assert"
  | .assertEq => "assert_eq"

def arity : Builtin → Nat
  | .clock => 0
  | .str => 1
  | .len => 1
  | .assert => 1
  | .assertEq => 2

def code : Builtin → Nat
  | .clock => 0
  | .str => 1
  | .len => 2
  | .assert => 3
  | .assertEq => 4

def ofName? (name : String) : Option Builtin := all.find? fun builtin => builtin.name == name

def ofCode? (code : Nat) : Option Builtin := all[code]?

end Builtin

structure Closure where
  identity : Nat
  name : Token
  parameters : List Token
  body : List Stmt
  scope : FrameId

/-- A function of the host, which tells its functions apart by their codes. -/
structure Native where
  identity : Nat
  name : String
  arity : Nat
  code : Nat
  deriving DecidableEq, Repr

inductive Value where
  | nil
  | boolean (value : Bool)
  | number (value : Float)
  | string (value : String)
  | function (closure : Closure)
  | native (function : Native)

namespace Value

def ofConstant : Constant → Value
  | .nil => .nil
  | .boolean b => .boolean b
  | .number x => .number x
  | .string s => .string s

/-- Everything but `nil` and `false` counts as true. -/
def isTruthy : Value → Bool
  | .nil => false
  | .boolean b => b
  | _ => true

/-- Equality as programs see it: numbers compare as numbers, functions by identity. -/
def equals : Value → Value → Bool
  | .nil, .nil => true
  | .boolean a, .boolean b => a == b
  | .number a, .number b => a == b
  | .string a, .string b => a == b
  | .function f, .function g => f.identity == g.identity
  | .native f, .native g => f.identity == g.identity
  | _, _ => false

def typeName : Value → String
  | .nil => "nil"
  | .boolean _ => "bool"
  | .number _ => "number"
  | .string _ => "string"
  | .function _ => "function"
  | .native _ => "function"

def text : Value → String
  | .nil => "nil"
  | .boolean b => if b then "true" else "false"
  | .number x => Number.text x
  | .string s => s
  | .function f => s!"<fn {f.name.lexeme}>"
  | .native f => s!"<native fn {f.name}>"

/-- A value as messages show it: strings are quoted. -/
def inspect : Value → String
  | .string s => Text.quoted s
  | v => v.text

def string? : Value → Option String
  | .string s => some s
  | _ => none

def number? : Value → Option Float
  | .number x => some x
  | _ => none

end Value

end Scriptlet
