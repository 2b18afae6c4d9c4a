import Scriptlet.Grammar.Cursor
import Scriptlet.Tree

/-!
The grammar of expressions. From loosest to tightest: assignment, `or`, `and`, equality,
comparison, term, factor, unary, call, primary. A whole expression and the operand of a unary
operator each take one level of nesting; `room` is the number of levels that may still be opened,
and every cycle of the grammar opens one.
-/

namespace Scriptlet

inductive Level where
  | disjunction
  | conjunction
  | equality
  | comparison
  | term
  | factor
  deriving DecidableEq, Repr

namespace Level

def all : List Level := [.disjunction, .conjunction, .equality, .comparison, .term, .factor]

def hasOperator : Level → Kind → Bool
  | .disjunction, kind => kind = .orWord
  | .conjunction, kind => kind = .andWord
  | .equality, kind => kind = .bangEqual || kind = .equalEqual
  | .comparison, kind =>
    kind = .greater || kind = .greaterEqual || kind = .less || kind = .lessEqual
  | .term, kind => kind = .minus || kind = .plus
  | .factor, kind => kind = .slash || kind = .star || kind = .percent

def node : Level → Expr → Token → Expr → Expr
  | .disjunction | .conjunction => .logical
  | .equality | .comparison | .term | .factor => .binary

end Level

def Constant.ofToken? (t : Token) : Option Constant :=
  match t.kind, t.literal with
  | .number, some (.number x) => some (.number x)
  | .string, some (.string s) => some (.string s)
  | .trueWord, _ => some (.boolean true)
  | .falseWord, _ => some (.boolean false)
  | .nilWord, _ => some .nil
  | _, _ => none

namespace Parse

def operatorChain (level : Level) (operand : Parse Expr) : List Token → Expr → Parse Expr
  | [], left => pure left
  | _ :: rounds, left => do
    match ← accept level.hasOperator with
    | some operator =>
      let right ← operand
      operatorChain level operand rounds (level.node left operator right)
    | none => pure left

/-- Operators of the given levels, the loosest first, over operands that bind tighter. -/
def operators (operand : Parse Expr) : List Level → Parse Expr
  | [], c => operand c
  | level :: tighter, c =>
    (do
      let left ← operators operand tighter
      operatorChain level (operators operand tighter) (← upcoming) left : Parse Expr) c

/-- An assignment or what binds tighter. Anything but a name before the `=` is recorded as an error
and stands for the whole. -/
def assignment (whole tighter : Parse Expr) : Parse Expr := do
  let left ← tighter
  match ← accept (· = .equal) with
  | none => pure left
  | some equals =>
    let value ← whole
    match left with
    | .identifier name => pure (.assignment name value)
    | _ =>
      record ⟨.invalidTarget, equals⟩
      pure left

def primary (whole : Parse Expr) : Parse Expr := fun c =>
  match c.ahead with
  | [] => fail .expression c
  | t :: rest =>
    let read := { c with ahead := rest }
    match Constant.ofToken? t with
    | some value => .ok (.literal value) read
    | none =>
      match t.kind with
      | .identifier => .ok (.identifier t) read
      | .leftParen =>
        (do
          let inner ← whole
          discard (expect .rightParen .groupEnd)
          pure (.grouping inner) : Parse Expr) read
      | _ => fail .expression c

def callChain (whole : Parse Expr) : List Token → Expr → Parse Expr
  | [], callee => pure callee
  | _ :: rounds, callee => do
    match ← accept (· = .leftParen) with
    | some _ =>
      let arguments ← listed .tooManyArguments whole
      let paren ← expect .rightParen .argumentsEnd
      callChain whole rounds (.call callee paren arguments)
    | none => pure callee

def call (whole : Parse Expr) : Parse Expr := do
  let callee ← primary whole
  callChain whole (← upcoming) callee

def unaryOver (deeper whole : Parse Expr) : Parse Expr := do
  match ← accept (fun kind => kind = .bang || kind = .minus) with
  | some operator => return .unary operator (← deeper)
  | none => call whole

mutual

def expression : Nat → Parse Expr
  | 0, c => fail .tooMuchNesting c
  | room + 1, c => assignment (expression room) (operators (unary room) Level.all) c

def unary : Nat → Parse Expr
  | 0, c => unaryOver (fail .tooMuchNesting) (fail .tooMuchNesting) c
  | room + 1, c =>
    unaryOver (unary room) (assignment (expression room) (operators (unary room) Level.all)) c

end

theorem expression_succ (room : Nat) :
    expression (room + 1) = assignment (expression room) (operators (unary room) Level.all) := rfl

theorem unary_zero : unary 0 = unaryOver (fail .tooMuchNesting) (expression 0) := rfl

theorem unary_succ (room : Nat) :
    unary (room + 1) = unaryOver (unary room) (expression (room + 1)) := rfl

end Parse

end Scriptlet
