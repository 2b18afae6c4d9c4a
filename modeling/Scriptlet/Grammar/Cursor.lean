import Scriptlet.Grammar.Complaint

/-!
A place in a token list, and the steps from which the grammar is built. Only the tokens before the
first end of input count. An error either ends the routine that met it or is recorded on the side
while the routine goes on; the tokens that were read and the errors that were recorded stay so in
both cases.
-/

namespace Scriptlet

structure Cursor where
  ahead : List Token
  finish : Token
  errors : List SyntaxError

namespace Cursor

/-- Just behind a token of one line. -/
def behind (t : Token) : Position :=
  ⟨t.position.line, t.position.column + t.lexeme.length⟩

/-- The start of a token list; where it has no end of input, one follows its last token. -/
def ofTokens (tokens : List Token) : Cursor where
  ahead := tokens.takeWhile (·.kind ≠ .endOfInput)
  finish :=
    match tokens.find? (·.kind = .endOfInput) with
    | some t => t
    | none => .finish ((tokens.getLast?.map behind).getD .first)
  errors := []

def peek (c : Cursor) : Token := c.ahead.headD c.finish

def kind (c : Cursor) : Kind :=
  match c.ahead with
  | t :: _ => t.kind
  | [] => .endOfInput

def record (c : Cursor) (e : SyntaxError) : Cursor := { c with errors := c.errors ++ [e] }

end Cursor

abbrev Parse (α : Type) := EStateM SyntaxError Cursor α

namespace Parse

def lookahead : Parse Kind := fun c => .ok c.kind c

def take : Parse Token := fun c =>
  match c.ahead with
  | t :: rest => .ok t { c with ahead := rest }
  | [] => .ok c.finish c

def accept (wanted : Kind → Bool) : Parse (Option Token) := fun c =>
  match c.ahead with
  | t :: rest => if wanted t.kind then .ok (some t) { c with ahead := rest } else .ok none c
  | [] => .ok none c

def fail {α : Type} (complaint : Complaint) : Parse α := fun c => .error ⟨complaint, c.peek⟩ c

def expect (kind : Kind) (complaint : Complaint) : Parse Token := do
  match ← accept (· = kind) with
  | some t => pure t
  | none => fail complaint

def record (e : SyntaxError) : Parse Unit := fun c => .ok () (c.record e)

def recordHere (complaint : Complaint) : Parse Unit := fun c =>
  .ok () (c.record ⟨complaint, c.peek⟩)

/-- The tokens ahead. Every round of a loop reads at least one of them, so no loop makes more rounds
than the list is long; loops count their rounds along it. -/
def upcoming : Parse (List Token) := fun c => .ok c.ahead c

def listLimit : Nat := 255

def listItem {α : Type} (tooMany : Complaint) (item : Parse α) (count : Nat) : Parse α := do
  if listLimit ≤ count then recordHere tooMany
  item

def commaSeparated {α : Type} (tooMany : Complaint) (item : Parse α) :
    List Token → Nat → Parse (List α)
  | [], count => do return [← listItem tooMany item count]
  | _ :: rounds, count => do
    let x ← listItem tooMany item count
    match ← accept (· = .comma) with
    | some _ => return x :: (← commaSeparated tooMany item rounds (count + 1))
    | none => return [x]

def listed {α : Type} (tooMany : Complaint) (item : Parse α) : Parse (List α) := do
  if (← lookahead) = .rightParen then pure []
  else commaSeparated tooMany item (← upcoming) 0

/-- Skips to a likely statement boundary: just after a `;` or before a word that opens a statement. -/
def skipFrom (last : Token) : List Token → List Token
  | [] => []
  | t :: rest =>
    if last.kind = .semicolon || t.kind.startsStatement then t :: rest else skipFrom t rest

def skip : List Token → List Token
  | [] => []
  | t :: rest => skipFrom t rest

/-- Like `skip`, but never past a closing brace, and without dropping one. -/
def skipInBlock : List Token → List Token
  | [] => []
  | t :: rest =>
    if t.kind = .rightBrace then t :: rest
    else if t.kind = .semicolon || rest.head?.any (·.kind.startsStatement) then rest
    else skipInBlock rest

def recovering {α : Type} (item : Parse α) (skipping : List Token → List Token) :
    Parse (Option α) := fun c =>
  match item c with
  | .ok x c => .ok (some x) c
  | .error e c => .ok none { c.record e with ahead := skipping c.ahead }

/-- Items until a kind that stops them; those that fail are left out. -/
def itemsUntil {α : Type} (stop : Kind → Bool) (item : Parse α)
    (skipping : List Token → List Token) : List Token → Parse (List α)
  | [] => pure []
  | _ :: rounds => do
    if stop (← lookahead) then return []
    let x? ← recovering item skipping
    return x?.toList ++ (← itemsUntil stop item skipping rounds)

end Parse

end Scriptlet
