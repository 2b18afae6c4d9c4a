import Scriptlet.Number.Decimal
import Scriptlet.Report
import Scriptlet.Token.Lexeme

/-!
Scanning a text: the tokens it holds, each with its place, and the characters that belong to none.
Blanks and comments only move the place. The token list always ends with an end-of-input token
just past the last character.
-/

namespace Scriptlet

inductive LexicalFault where
  | unexpected (character : Char)
  | unterminated
  deriving DecidableEq, Repr

def LexicalFault.message : LexicalFault → String
  | .unexpected c => s!"Unexpected character '{c}'."
  | .unterminated => "Unterminated string."

structure LexicalError where
  fault : LexicalFault
  position : Position
  deriving DecidableEq, Repr

def LexicalError.report (e : LexicalError) : Report :=
  ⟨.lexer, e.position.line, some e.position.column, e.fault.message⟩

namespace Lexeme

def text (l : Lexeme) : String := String.ofList l.chars

def inner (l : Lexeme) : String := String.ofList l.chars.tail.dropLast

def token? (l : Lexeme) (position : Position) : Option Token :=
  match l.form with
  | .word => some ⟨(Kind.ofWord? l.text).getD .identifier, l.text, none, position⟩
  | .number => some ⟨.number, l.text, some (.number (Decimal.ofChars l.chars).toFloat), position⟩
  | .string => some ⟨.string, l.text, some (.string l.inner), position⟩
  | .symbol kind => some ⟨kind, l.text, none, position⟩
  | .blank | .comment | .unclosedString | .stray => none

def error? (l : Lexeme) (position : Position) : Option LexicalError :=
  match l.form with
  | .unclosedString => some ⟨.unterminated, position⟩
  | .stray => l.chars.head?.map fun c => ⟨.unexpected c, position⟩
  | .blank | .comment | .word | .number | .string | .symbol _ => none

def place (position : Position) : List Lexeme → List (Lexeme × Position)
  | [] => []
  | l :: ls => (l, position) :: place (position.after l.chars) ls

end Lexeme

structure Scan where
  tokens : List Token
  errors : List LexicalError
  deriving DecidableEq

namespace Scan

def ofChars (cs : List Char) : Scan :=
  let placed := Lexeme.place .first (Lexeme.all cs)
  { tokens := placed.filterMap (fun (l, p) => l.token? p) ++ [.finish (Position.first.after cs)]
    errors := placed.filterMap fun (l, p) => l.error? p }

def ofText (text : String) : Scan := ofChars text.toList

def reports (s : Scan) : List Report := s.errors.map LexicalError.report

end Scan

end Scriptlet
