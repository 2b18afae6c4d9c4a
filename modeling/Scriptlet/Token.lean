import Scriptlet.Text.Position

/-!
Tokens of the language: their kinds, the reserved words and the literal a token carries.
-/

namespace Scriptlet

inductive Kind where
  | leftParen
  | rightParen
  | leftBrace
  | rightBrace
  | comma
  | dot
  | minus
  | plus
  | semicolon
  | slash
  | star
  | percent
  | bang
  | bangEqual
  | equal
  | equalEqual
  | greater
  | greaterEqual
  | less
  | lessEqual
  | identifier
  | string
  | number
  | andWord
  | classWord
  | constWord
  | elseWord
  | falseWord
  | forWord
  | functionWord
  | ifWord
  | letWord
  | nilWord
  | orWord
  | printWord
  | returnWord
  | superWord
  | thisWord
  | trueWord
  | whileWord
  | endOfInput
  deriving DecidableEq, Repr, Inhabited

namespace Kind

def name : Kind → String
  | .leftParen => "LEFT_PAREN"
  | .rightParen => "RIGHT_PAREN"
  | .leftBrace => "LEFT_BRACE"
  | .rightBrace => "RIGHT_BRACE"
  | .comma => "COMMA"
  | .dot => "DOT"
  | .minus => "MINUS"
  | .plus => "PLUS"
  | .semicolon => "SEMICOLON"
  | .slash => "SLASH"
  | .star => "STAR"
  | .percent => "PERCENT"
  | .bang => "BANG"
  | .bangEqual => "BANG_EQUAL"
  | .equal => "EQUAL"
  | .equalEqual => "EQUAL_EQUAL"
  | .greater => "GREATER"
  | .greaterEqual => "GREATER_EQUAL"
  | .less => "LESS"
  | .lessEqual => "LESS_EQUAL"
  | .identifier => "IDENTIFIER"
  | .string => "STRING"
  | .number => "NUMBER"
  | .andWord => "AND"
  | .classWord => "CLASS"
  | .constWord => "CONST"
  | .elseWord => "ELSE"
  | .falseWord => "FALSE"
  | .forWord => "FOR"
  | .functionWord => "FUN"
  | .ifWord => "IF"
  | .letWord => "LET"
  | .nilWord => "NIL"
  | .orWord => "OR"
  | .printWord => "PRINT"
  | .returnWord => "RETURN"
  | .superWord => "SUPER"
  | .thisWord => "THIS"
  | .trueWord => "TRUE"
  | .whileWord => "WHILE"
  | .endOfInput => "EOF"

def all : List Kind :=
  [.leftParen, .rightParen, .leftBrace, .rightBrace, .comma, .dot, .minus, .plus, .semicolon,
    .slash, .star, .percent, .bang, .bangEqual, .equal, .equalEqual, .greater, .greaterEqual,
    .less, .lessEqual, .identifier, .string, .number, .andWord, .classWord, .constWord, .elseWord,
    .falseWord, .forWord, .functionWord, .ifWord, .letWord, .nilWord, .orWord, .printWord,
    .returnWord, .superWord, .thisWord, .trueWord, .whileWord, .endOfInput]

def ofName? (name : String) : Option Kind := all.find? fun kind => kind.name == name

/-- The kind of a reserved word; some words are spelled in two ways. -/
def ofWord? : String → Option Kind
  | "and" => some .andWord
  | "class" => some .classWord
  | "const" => some .constWord
  | "else" => some .elseWord
  | "false" => some .falseWord
  | "for" => some .forWord
  | "fun" => some .functionWord
  | "function" => some .functionWord
  | "if" => some .ifWord
  | "let" => some .letWord
  | "nil" => some .nilWord
  | "null" => some .nilWord
  | "or" => some .orWord
  | "print" => some .printWord
  | "return" => some .returnWord
  | "super" => some .superWord
  | "this" => some .thisWord
  | "true" => some .trueWord
  | "var" => some .letWord
  | "while" => some .whileWord
  | _ => none

/-- Words that open a statement; error recovery stops before them. -/
def startsStatement : Kind → Bool
  | .classWord | .functionWord | .letWord | .constWord | .forWord | .ifWord | .whileWord
  | .printWord | .returnWord => true
  | _ => false

end Kind

inductive Literal where
  | number (value : Float)
  | string (value : String)
  deriving DecidableEq

structure Token where
  kind : Kind
  lexeme : String
  literal : Option Literal
  position : Position
  deriving DecidableEq

namespace Token

def shown (t : Token) : String :=
  if t.kind = .endOfInput then "end of input" else s!"'{t.lexeme}'"

def finish (position : Position) : Token := ⟨.endOfInput, "", none, position⟩

end Token

end Scriptlet
