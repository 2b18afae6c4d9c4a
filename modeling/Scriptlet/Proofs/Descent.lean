import Scriptlet.Grammar.Program

/-!
The grammar as a program with a state of its own. The state holds the whole token list, the index of
the next token, the errors recorded so far and two counters: of the levels of nesting that are open
and of the function bodies around. Routines call each other and themselves, loops among them, and
nothing bounds this from outside. They raise and lower the counters by single steps, so that a
counter is as before only if it was set back on every way out.

A run is a finished derivation. A routine that would go on for ever, or look at a token outside the
list, has none.
-/

namespace Scriptlet

namespace Descent

structure State where
  tokens : List Token
  current : Nat
  errors : List SyntaxError
  functions : Nat
  nesting : Nat

namespace State

/-- The start of a token list; where it does not end with an end of input, one is added. -/
def ofTokens (tokens : List Token) : State where
  tokens :=
    match tokens.getLast? with
    | none => [.finish .first]
    | some t => if t.kind = .endOfInput then tokens else tokens ++ [.finish (Cursor.behind t)]
  current := 0
  errors := []
  functions := 0
  nesting := 0

def last (s : State) : Nat := s.tokens.findIdx (·.kind = .endOfInput)

end State

/-- A single step. The end of input is never passed. -/
inductive Action : Type → Type where
  | peek : Action Token
  | take : Action Token
  | record (e : SyntaxError) : Action Unit
  | nesting : Action Nat
  | enter : Action Unit
  | leave : Action Unit
  | functions : Action Nat
  | enterFunction : Action Unit
  | leaveFunction : Action Unit

/-- What a step gives and leaves; there is nothing to look at behind the last token. -/
def Action.perform : {α : Type} → Action α → State → Option (α × State)
  | _, .peek, s => s.tokens[s.current]?.map fun t => (t, s)
  | _, .take, s => s.tokens[s.current]?.map fun t =>
    (t, if t.kind = .endOfInput then s else { s with current := s.current + 1 })
  | _, .record e, s => some ((), { s with errors := s.errors ++ [e] })
  | _, .nesting, s => some (s.nesting, s)
  | _, .enter, s => some ((), { s with nesting := s.nesting + 1 })
  | _, .leave, s => some ((), { s with nesting := s.nesting - 1 })
  | _, .functions, s => some (s.functions, s)
  | _, .enterFunction, s => some ((), { s with functions := s.functions + 1 })
  | _, .leaveFunction, s => some ((), { s with functions := s.functions - 1 })

inductive Routine : Type → Type where
  | expression : Routine Expr
  | assignment : Routine Expr
  | operators (levels : List Level) : Routine Expr
  | operatorChain (level : Level) (tighter : List Level) (left : Expr) : Routine Expr
  /-- What stands behind a unary operator. -/
  | operand : Routine Expr
  | unary : Routine Expr
  | call : Routine Expr
  | callChain (callee : Expr) : Routine Expr
  | primary : Routine Expr
  | arguments : Routine (List Expr)
  | argumentsFrom (count : Nat) : Routine (List Expr)
  | parameter : Routine Token
  | parameters : Routine (List Token)
  | parametersFrom (count : Nat) : Routine (List Token)
  | optional (stop : Kind) : Routine (Option Expr)
  | variableDecl : Routine Stmt
  | functionDecl : Routine Stmt
  | functionBody (brace : Token) : Routine (List Stmt)
  | body : Routine (List Stmt)
  | block : Routine (List Stmt)
  | blockItems : Routine (List Stmt)
  | expressionStmt : Routine Stmt
  | printStmt : Routine Stmt
  | returnStmt : Routine Stmt
  | conditional : Routine Stmt
  | whileLoop : Routine Stmt
  | forInitializer : Routine (Option Stmt)
  | forLoop : Routine Stmt
  | statement : Routine Stmt
  /-- A statement on the level that was opened for it. -/
  | plain : Routine Stmt
  | declaration : Routine Stmt
  | skip : Routine Unit
  | skipFrom (previous : Token) : Routine Unit
  | skipInBlock : Routine Unit
  | statements : Routine Program
  | wholeExpression : Routine Expr

/-- What a routine is made of: single steps and calls of routines, whose errors can be caught.
`lose` changes nothing; it is a remark that an opening brace was thrown away. -/
inductive Code : Type → Type 1 where
  | done {α : Type} (x : α) : Code α
  | raise {α : Type} (e : SyntaxError) : Code α
  | act {α β : Type} (action : Action β) (next : β → Code α) : Code α
  | lose {α : Type} (brace : Token) (next : Code α) : Code α
  | attempt {α β : Type} (r : Routine β) (next : Except SyntaxError β → Code α) : Code α

namespace Code

def bind {α β : Type} : Code α → (α → Code β) → Code β
  | .done x, f => f x
  | .raise e, _ => .raise e
  | .act action next, f => .act action fun y => (next y).bind f
  | .lose brace next, f => .lose brace (next.bind f)
  | .attempt r next, f => .attempt r fun y => (next y).bind f

instance : Monad Code where
  pure := .done
  bind := bind

variable {α : Type}

def perform (action : Action α) : Code α := .act action .done

def ofExcept : Except SyntaxError α → Code α
  | .ok x => .done x
  | .error e => .raise e

def ofBody (brace : Token) : Except SyntaxError α → Code α
  | .ok x => .done x
  | .error e => .lose brace (.raise e)

def loseBrace (t : Token) (next : Code α) : Code α :=
  if t.kind = .leftBrace then .lose t next else next

def run (r : Routine α) : Code α := .attempt r ofExcept

def lookahead : Code Kind := do return (← perform .peek).kind

def take : Code Token := perform .take

def accept (wanted : Kind → Bool) : Code (Option Token) := do
  if wanted (← lookahead) then return some (← take) else return none

def fail (complaint : Complaint) : Code α := do .raise ⟨complaint, ← perform .peek⟩

def expect (kind : Kind) (complaint : Complaint) : Code Token := do
  match ← accept (· = kind) with
  | some t => pure t
  | none => fail complaint

def record (e : SyntaxError) : Code Unit := perform (.record e)

def recordHere (complaint : Complaint) : Code Unit := do record ⟨complaint, ← perform .peek⟩

def nested (r : Routine α) : Code α := do
  if Grammar.nestingLimit ≤ (← perform .nesting) then fail .tooMuchNesting
  else
    perform .enter
    let result ← .attempt r .done
    perform .leave
    ofExcept result

/-- A routine; if it fails, the error is recorded and tokens are skipped. -/
def recovering (item : Routine α) (skipping : Routine Unit) : Code (Option α) :=
  .attempt item fun
    | .ok x => .done (some x)
    | .error e => do
      record e
      run skipping
      return none

def listItem (tooMany : Complaint) (item : Routine α) (count : Nat) : Code α := do
  if Parse.listLimit ≤ count then recordHere tooMany
  run item

def commaSeparated (tooMany : Complaint) (item : Routine α) (again : Routine (List α))
    (count : Nat) : Code (List α) := do
  let x ← listItem tooMany item count
  match ← accept (· = .comma) with
  | some _ => return x :: (← run again)
  | none => return [x]

def listed (items : Routine (List α)) : Code (List α) := do
  if (← lookahead) = .rightParen then pure [] else run items

def itemsUntil (stop : Kind → Bool) (skipping : Routine Unit) (again : Routine (List Stmt)) :
    Code (List Stmt) := do
  if stop (← lookahead) then return []
  let x? ← recovering .declaration skipping
  return x?.toList ++ (← run again)

def primaryAt (t : Token) : Code Expr := do
  match Constant.ofToken? t with
  | some value =>
    discard take
    pure (.literal value)
  | none =>
    match t.kind with
    | .identifier =>
      discard take
      pure (.identifier t)
    | .leftParen =>
      discard take
      let inner ← run .expression
      discard (expect .rightParen .groupEnd)
      pure (.grouping inner)
    | _ => fail .expression

end Code

open Code in
def Routine.code : {α : Type} → Routine α → Code α
  | _, .expression => nested .assignment
  | _, .assignment => do
    let left ← run (.operators Level.all)
    match ← accept (· = .equal) with
    | none => pure left
    | some equals =>
      let value ← run .expression
      match left with
      | .identifier name => pure (.assignment name value)
      | _ =>
        record ⟨.invalidTarget, equals⟩
        pure left
  | _, .operators [] => run .unary
  | _, .operators (level :: tighter) => do
    let left ← run (.operators tighter)
    run (.operatorChain level tighter left)
  | _, .operatorChain level tighter left => do
    match ← accept level.hasOperator with
    | some operator =>
      let right ← run (.operators tighter)
      run (.operatorChain level tighter (level.node left operator right))
    | none => pure left
  | _, .operand => nested .unary
  | _, .unary => do
    match ← accept (fun kind => kind = .bang || kind = .minus) with
    | some operator => return .unary operator (← run .operand)
    | none => run .call
  | _, .call => do
    let callee ← run .primary
    run (.callChain callee)
  | _, .callChain callee => do
    match ← accept (· = .leftParen) with
    | some _ =>
      let arguments ← run .arguments
      let paren ← expect .rightParen .argumentsEnd
      run (.callChain (.call callee paren arguments))
    | none => pure callee
  | _, .primary => do primaryAt (← perform .peek)
  | _, .arguments => listed (.argumentsFrom 0)
  | _, .argumentsFrom count =>
    commaSeparated .tooManyArguments .expression (.argumentsFrom (count + 1)) count
  | _, .parameter => expect .identifier .parameterName
  | _, .parameters => listed (.parametersFrom 0)
  | _, .parametersFrom count =>
    commaSeparated .tooManyParameters .parameter (.parametersFrom (count + 1)) count
  | _, .optional stop => do
    if (← lookahead) = stop then pure none else some <$> run .expression
  | _, .variableDecl => do
    let keyword ← take
    let name ← expect .identifier .variableName
    let initializer ← match ← accept (· = .equal) with
      | some _ => some <$> run .expression
      | none => pure none
    let constant := keyword.kind = .constWord
    if constant && initializer.isNone then recordHere .constantValue
    discard (expect .semicolon .declarationEnd)
    pure (.variableDecl name initializer constant)
  | _, .functionDecl => do
    discard take
    let name ← expect .identifier .functionName
    discard (expect .leftParen .parametersStart)
    let parameters ← run .parameters
    discard (expect .rightParen .parametersEnd)
    let brace ← expect .leftBrace .bodyStart
    let body ← run (.functionBody brace)
    pure (.functionDecl name parameters body)
  | _, .functionBody brace => do
    perform .enterFunction
    let result ← .attempt .body .done
    perform .leaveFunction
    ofBody brace result
  | _, .body => nested .block
  | _, .block => do
    let body ← run .blockItems
    discard (expect .rightBrace .blockEnd)
    pure body
  | _, .blockItems =>
    itemsUntil (fun kind => kind = .rightBrace || kind = .endOfInput) .skipInBlock .blockItems
  | _, .expressionStmt => do
    let value ← run .expression
    discard (expect .semicolon .expressionEnd)
    pure (.expression value)
  | _, .printStmt => do
    let keyword ← take
    let value ← run .expression
    discard (expect .semicolon .printEnd)
    pure (.print keyword value)
  | _, .returnStmt => do
    let keyword ← take
    if (← perform .functions) = 0 then record ⟨.topLevelReturn, keyword⟩
    let value ← run (.optional .semicolon)
    discard (expect .semicolon .returnEnd)
    pure (.returnStmt keyword value)
  | _, .conditional => do
    discard take
    discard (expect .leftParen .ifStart)
    let condition ← run .expression
    discard (expect .rightParen .ifEnd)
    let thenBranch ← run .statement
    match ← accept (· = .elseWord) with
    | some _ => return .conditional condition thenBranch (some (← run .statement))
    | none => return .conditional condition thenBranch none
  | _, .whileLoop => do
    let keyword ← take
    discard (expect .leftParen .whileStart)
    let condition ← run .expression
    discard (expect .rightParen .whileEnd)
    return .whileLoop keyword condition (← run .statement)
  | _, .forInitializer => do
    match ← lookahead with
    | .semicolon =>
      discard take
      pure none
    | .letWord | .constWord => some <$> run .variableDecl
    | _ => some <$> run .expressionStmt
  | _, .forLoop => do
    let keyword ← take
    discard (expect .leftParen .forStart)
    let initializer ← run .forInitializer
    let condition ← run (.optional .semicolon)
    discard (expect .semicolon .forCondition)
    let increment ← run (.optional .rightParen)
    discard (expect .rightParen .forEnd)
    return .forLoop keyword initializer condition increment (← run .statement)
  | _, .statement => nested .plain
  | _, .plain => do
    match ← lookahead with
    | .ifWord => run .conditional
    | .whileWord => run .whileLoop
    | .forWord => run .forLoop
    | .returnWord => run .returnStmt
    | .printWord => run .printStmt
    | .leftBrace =>
      discard take
      .block <$> run .block
    | _ => run .expressionStmt
  | _, .declaration => do
    match ← lookahead with
    | .letWord | .constWord => run .variableDecl
    | .functionWord => run .functionDecl
    | _ => run .statement
  | _, .skip => do
    let previous ← take
    run (.skipFrom previous)
  | _, .skipFrom previous => do
    let kind ← lookahead
    if kind = .endOfInput || previous.kind = .semicolon || kind.startsStatement then pure ()
    else
      let t ← take
      run (.skipFrom t)
  | _, .skipInBlock => do
    let kind ← lookahead
    if kind = .rightBrace || kind = .endOfInput then pure ()
    else
      let t ← take
      loseBrace t do
        if t.kind = .semicolon || (← lookahead).startsStatement then pure () else run .skipInBlock
  | _, .statements => itemsUntil (· = .endOfInput) .skip .statements
  | _, .wholeExpression => do
    let value ← run .expression
    if (← lookahead) ≠ .endOfInput then recordHere .endOfExpression
    pure value

/-- What can be seen of a run: the states it comes to and the braces that it throws away. -/
inductive Event where
  | reached (s : State)
  | lost (brace : Token)

/-- The runs of a code, with all that can be seen of them in order. -/
inductive Runs : {α : Type} → Code α → State → List Event →
    EStateM.Result SyntaxError State α → Prop where
  | done {α : Type} (x : α) (s : State) : Runs (.done x) s [] (.ok x s)
  | raise {α : Type} (e : SyntaxError) (s : State) :
      Runs (.raise e : Code α) s [] (.error e s)
  | act {α β : Type} {action : Action β} {next : β → Code α} {s s' : State} {y : β}
      {events : List Event} {result : EStateM.Result SyntaxError State α}
      (performed : action.perform s = some (y, s')) (rest : Runs (next y) s' events result) :
      Runs (.act action next) s (.reached s' :: events) result
  | lose {α : Type} {brace : Token} {next : Code α} {s : State} {events : List Event}
      {result : EStateM.Result SyntaxError State α} (rest : Runs next s events result) :
      Runs (.lose brace next) s (.lost brace :: events) result
  | returned {α β : Type} {r : Routine β} {next : Except SyntaxError β → Code α}
      {s s' : State} {y : β} {events more : List Event}
      {result : EStateM.Result SyntaxError State α} (called : Runs r.code s events (.ok y s'))
      (rest : Runs (next (.ok y)) s' more result) :
      Runs (.attempt r next) s (events ++ more) result
  | failed {α β : Type} {r : Routine β} {next : Except SyntaxError β → Code α}
      {s s' : State} {e : SyntaxError} {events more : List Event}
      {result : EStateM.Result SyntaxError State α} (called : Runs r.code s events (.error e s'))
      (rest : Runs (next (.error e)) s' more result) :
      Runs (.attempt r next) s (events ++ more) result

namespace Runs

variable {α β : Type} {code : Code α} {s : State} {events : List Event}
  {result : EStateM.Result SyntaxError State α}

theorem unique (h : Runs code s events result) :
    ∀ {events' : List Event} {result' : EStateM.Result SyntaxError State α},
      Runs code s events' result' → events' = events ∧ result' = result := by
  induction h with
  | done x s =>
    intro events' result' h'
    cases h'
    exact ⟨rfl, rfl⟩
  | raise e s =>
    intro events' result' h'
    cases h'
    exact ⟨rfl, rfl⟩
  | act performed _ ih =>
    intro events' result' h'
    cases h' with
    | act performed' rest' =>
      obtain ⟨rfl, rfl⟩ := Prod.mk.inj (Option.some.inj (performed.symm.trans performed'))
      obtain ⟨rfl, rfl⟩ := ih rest'
      exact ⟨rfl, rfl⟩
  | lose _ ih =>
    intro events' result' h'
    cases h' with
    | lose rest' =>
      obtain ⟨rfl, rfl⟩ := ih rest'
      exact ⟨rfl, rfl⟩
  | returned _ _ ih ih' =>
    intro events' result' h'
    cases h' with
    | returned called' rest' =>
      obtain ⟨rfl, heq⟩ := ih called'
      cases heq
      obtain ⟨rfl, rfl⟩ := ih' rest'
      exact ⟨rfl, rfl⟩
    | failed called' rest' => cases (ih called').2
  | failed _ _ ih ih' =>
    intro events' result' h'
    cases h' with
    | returned called' rest' => cases (ih called').2
    | failed called' rest' =>
      obtain ⟨rfl, heq⟩ := ih called'
      cases heq
      obtain ⟨rfl, rfl⟩ := ih' rest'
      exact ⟨rfl, rfl⟩

theorem bind_ok {f : α → Code β} {x : α} {s' : State} {more : List Event}
    {result' : EStateM.Result SyntaxError State β} (h : Runs code s events (.ok x s'))
    (k : Runs (f x) s' more result') : Runs (code >>= f) s (events ++ more) result' := by
  generalize hr : EStateM.Result.ok x s' = outcome at h
  induction h with
  | done y s =>
    cases hr
    exact k
  | raise e s => cases hr
  | act performed _ ih => exact .act performed (ih k hr)
  | lose _ ih => exact .lose (ih k hr)
  | returned called _ _ ih =>
    rw [List.append_assoc]
    exact .returned called (ih k hr)
  | failed called _ _ ih =>
    rw [List.append_assoc]
    exact .failed called (ih k hr)

theorem bind_error (f : α → Code β) {e : SyntaxError} {s' : State}
    (h : Runs code s events (.error e s')) : Runs (code >>= f) s events (.error e s') := by
  generalize hr : EStateM.Result.error e s' = outcome at h
  induction h with
  | done y s => cases hr
  | raise e s =>
    cases hr
    exact .raise _ _
  | act performed _ ih => exact .act performed (ih f hr)
  | lose _ ih => exact .lose (ih f hr)
  | returned called _ _ ih => exact .returned called (ih f hr)
  | failed called _ _ ih => exact .failed called (ih f hr)

end Runs

end Descent

end Scriptlet
