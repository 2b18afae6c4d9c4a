import Scriptlet.Token

/-!
A text cut into lexemes. Each lexeme is the longest one that the text ahead begins with: a blank
run, a comment, a word, a number, a string or a symbol. A string without its closing quote takes
the whole rest, and a character that begins none of these stands alone.
-/

namespace Scriptlet

inductive Form where
  | blank
  | comment
  | word
  | number
  | string
  | unclosedString
  | symbol (kind : Kind)
  | stray
  deriving DecidableEq, Repr

structure Lexeme where
  form : Form
  chars : List Char
  deriving DecidableEq, Repr

namespace Lexeme

def isBlank (c : Char) : Bool :=
  c = ' ' || c = '\t' || c = '\n' || c = '\r' || c = '\x0c'

def isWordStart (c : Char) : Bool := c.isAlpha || c = '_'

def isWordPart (c : Char) : Bool := c.isAlphanum || c = '_'

def pair? : Char → Char → Option Kind
  | '!', '=' => some .bangEqual
  | '=', '=' => some .equalEqual
  | '>', '=' => some .greaterEqual
  | '<', '=' => some .lessEqual
  | _, _ => none

def single? : Char → Option Kind
  | '(' => some .leftParen
  | ')' => some .rightParen
  | '{' => some .leftBrace
  | '}' => some .rightBrace
  | ',' => some .comma
  | '.' => some .dot
  | '-' => some .minus
  | '+' => some .plus
  | ';' => some .semicolon
  | '/' => some .slash
  | '*' => some .star
  | '%' => some .percent
  | '!' => some .bang
  | '=' => some .equal
  | '>' => some .greater
  | '<' => some .less
  | _ => none

def run (form : Form) (inside : Char → Bool) (c : Char) (cs : List Char) : Lexeme × List Char :=
  (⟨form, c :: cs.takeWhile inside⟩, cs.dropWhile inside)

/-- A number that begins with the digit `c`; a point belongs to it only before a digit. -/
def number (c : Char) (cs : List Char) : Lexeme × List Char :=
  let whole := c :: cs.takeWhile Char.isDigit
  match cs.dropWhile Char.isDigit with
  | '.' :: d :: rest =>
    if d.isDigit then
      (⟨.number, whole ++ '.' :: d :: rest.takeWhile Char.isDigit⟩, rest.dropWhile Char.isDigit)
    else
      (⟨.number, whole⟩, '.' :: d :: rest)
  | rest => (⟨.number, whole⟩, rest)

/-- A string whose opening quote `c` has been seen; it has no escapes and may span lines. -/
def string (c : Char) (cs : List Char) : Lexeme × List Char :=
  let inner := cs.takeWhile (· ≠ '"')
  match cs.dropWhile (· ≠ '"') with
  | quote :: rest => (⟨.string, c :: inner ++ [quote]⟩, rest)
  | [] => (⟨.unclosedString, c :: inner⟩, [])

/-- A symbol, of two characters if it can be, or else a character that begins nothing. -/
def symbol (c : Char) (cs : List Char) : Lexeme × List Char :=
  match cs with
  | d :: rest =>
    match pair? c d, single? c with
    | some kind, _ => (⟨.symbol kind, [c, d]⟩, rest)
    | none, some kind => (⟨.symbol kind, [c]⟩, cs)
    | none, none => (⟨.stray, [c]⟩, cs)
  | [] =>
    match single? c with
    | some kind => (⟨.symbol kind, [c]⟩, [])
    | none => (⟨.stray, [c]⟩, [])

def first (c : Char) (cs : List Char) : Lexeme × List Char :=
  if isBlank c then run .blank isBlank c cs
  else if isWordStart c then run .word isWordPart c cs
  else if c.isDigit then number c cs
  else if c = '"' then string c cs
  else if c = '/' ∧ cs.head? = some '/' then run .comment (· ≠ '\n') c cs
  else symbol c cs

theorem first_tiles (c : Char) (cs : List Char) :
    (first c cs).1.chars ++ (first c cs).2 = c :: cs := by
  unfold first
  split
  · simp [run]
  split
  · simp [run]
  split
  · unfold number
    have whole : cs.takeWhile Char.isDigit ++ cs.dropWhile Char.isDigit = cs :=
      List.takeWhile_append_dropWhile
    split <;> rename_i rest eq
    · split <;> simp [← eq, whole]
    · simp [whole]
  split
  · unfold string
    have inner : cs.takeWhile (· ≠ '"') ++ cs.dropWhile (· ≠ '"') = cs :=
      List.takeWhile_append_dropWhile
    split <;> rename_i eq
    · simp [← eq]
    · rw [eq, List.append_nil] at inner
      rw [inner, List.append_nil]
  split
  · simp [run]
  · unfold symbol
    split
    · split <;> rfl
    · split <;> rfl

theorem first_ne_nil (c : Char) (cs : List Char) : (first c cs).1.chars ≠ [] := by
  unfold first run number string symbol
  repeat' split
  all_goals simp

theorem first_shortens (c : Char) (cs : List Char) :
    (first c cs).2.length < (c :: cs).length := by
  have tiles := congrArg List.length (first_tiles c cs)
  have pos := List.length_pos_iff.mpr (first_ne_nil c cs)
  rw [List.length_append] at tiles
  omega

def all : List Char → List Lexeme
  | [] => []
  | c :: cs => (first c cs).1 :: all (first c cs).2
termination_by cs => cs.length
decreasing_by exact first_shortens c cs

end Lexeme

end Scriptlet
