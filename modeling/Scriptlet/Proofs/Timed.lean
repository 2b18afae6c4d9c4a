import Scriptlet.Proofs.Evolution
import Scriptlet.Session

/-!
Runs against a clock. Every look at an expression, statement, round of a loop, call or enclosing
frame needs one more step than what it leads to; when no steps are left there is no result. Nothing
else bounds such a run: a loop goes on as long as its condition holds and the settings do not forbid
it, calls nest as deep as the settings allow, and a name is looked up until it is found or no frame
is left. So a run comes to an end if it has a result for some number of steps.
-/

namespace Scriptlet

/-- A run that has no result if its time is over. -/
def Timed (α : Type) := Machine → Option (EStateM.Result RuntimeError Machine α)

def Frames.nearestTimed (frames : Frames) (name : String) :
    Nat → FrameId → Option (Option (FrameId × Binding))
  | 0, _ => none
  | steps + 1, id =>
    match frames.frame? id with
    | none => some none
    | some frame =>
      match frame.binding? name, frame.enclosing with
      | some binding, _ => some (some (id, binding))
      | none, some next => nearestTimed frames name steps next
      | none, none => some none

namespace Timed

instance : Monad Timed where
  pure x := fun m => some (.ok x m)
  bind run next := fun m =>
    match run m with
    | some (.ok x m) => next x m
    | some (.error e m) => some (.error e m)
    | none => none

def outOfTime {α : Type} : Timed α := fun _ => none

def ofEval {α : Type} (run : Eval α) : Timed α := fun m => some (run m)

def lookUp (steps : Nat) (name : Token) : Timed Value := fun m =>
  (m.frames.nearestTimed name.lexeme steps m.scope).map fun found =>
    match found with
    | some (_, binding) => .ok binding.value m
    | none => .error ⟨.undefinedVariable name.lexeme, name⟩ m

def assign (steps : Nat) (name : Token) (value : Value) : Timed Unit := fun m =>
  (m.frames.nearestTimed name.lexeme steps m.scope).map fun found =>
    match found with
    | some (owner, binding) =>
      if binding.constant then .error ⟨.constantAssignment name.lexeme, name⟩ m
      else .ok () (m.modifyFrames (·.define owner name.lexeme ⟨value, false⟩))
    | none => .error ⟨.undefinedVariable name.lexeme, name⟩ m

def inFrame {α : Type} (frame : Frame) (run : Timed α) : Timed α := fun m =>
  (run (m.entering frame)).map fun result => Eval.inFrame frame (fun _ => result) m

def inScope {α : Type} (run : Timed α) : Timed α := fun m => inFrame ⟨[], some m.scope⟩ run m

def inCall {α : Type} (run : Timed α) : Timed α := fun m =>
  (run { m with depth := m.depth + 1 }).map fun result => Eval.inCall (fun _ => result) m

/-- Refuses one more round of a loop that made as many as the settings allow. -/
def guardRounds (settings : Settings) (keyword : Token) (done : Nat) : Eval Unit :=
  let limit := settings.maxLoopIterations.toNat
  if limit ≠ 0 ∧ limit ≤ done then Eval.raise (.loopLimit limit) keyword else pure ()

mutual

def evaluate (host : Host) : Nat → Expr → Timed Value
  | 0, _ => outOfTime
  | _ + 1, .literal value => pure (.ofConstant value)
  | steps + 1, .identifier name => lookUp steps name
  | steps + 1, .grouping inner => evaluate host steps inner
  | steps + 1, .unary operator operand => do
    ofEval (Eval.checkStack host operator)
    let operand ← evaluate host steps operand
    ofEval (Eval.settle operator (Value.applyUnary operator operand))
  | steps + 1, .binary left operator right => do
    ofEval (Eval.checkStack host operator)
    let left ← evaluate host steps left
    let right ← evaluate host steps right
    ofEval (Eval.settle operator (Value.applyBinary operator left right))
  | steps + 1, .logical left operator right => do
    ofEval (Eval.checkStack host operator)
    let left ← evaluate host steps left
    if ← ofEval (Eval.settle operator (Value.decides operator left)) then pure left
    else evaluate host steps right
  | steps + 1, .assignment name value => do
    ofEval (Eval.checkStack host name)
    let value ← evaluate host steps value
    assign steps name value
    pure value
  | steps + 1, .call callee paren arguments => do
    ofEval (Eval.checkStack host paren)
    let callee ← evaluate host steps callee
    let arguments ← evaluateAll host steps arguments
    call host steps callee paren arguments

def evaluateAll (host : Host) : Nat → List Expr → Timed (List Value)
  | 0, _ => outOfTime
  | _ + 1, [] => pure []
  | steps + 1, e :: es => do
    let value ← evaluate host steps e
    let values ← evaluateAll host steps es
    pure (value :: values)

def evaluateOr (host : Host) : Nat → Value → Option Expr → Timed Value
  | 0, _, _ => outOfTime
  | steps + 1, _, some e => evaluate host steps e
  | _ + 1, absent, none => pure absent

def execute (host : Host) : Nat → Stmt → Timed Flow
  | 0, _ => outOfTime
  | steps + 1, .expression value => do
    discard (evaluate host steps value)
    pure .normal
  | steps + 1, .print keyword value => do
    let value ← evaluate host steps value
    ofEval (Eval.write keyword (value.text ++ "\n"))
    pure .normal
  | steps + 1, .block body => inScope (executeAll host steps body)
  | steps + 1, .conditional condition thenBranch elseBranch => do
    if (← evaluate host steps condition).isTruthy then execute host steps thenBranch
    else executeIfAny host steps elseBranch
  | steps + 1, .whileLoop keyword condition body => do
    ofEval (Eval.checkStack host keyword)
    loop host steps keyword (some condition) body none 0
  | steps + 1, .forLoop keyword initializer condition increment body => do
    ofEval (Eval.checkStack host keyword)
    inScope do
      discard (executeIfAny host steps initializer)
      loop host steps keyword condition body increment 0
  | steps + 1, .variableDecl name initializer constant => do
    ofEval (Eval.guardBuiltin host.settings name)
    let value ← evaluateOr host steps .nil initializer
    ofEval (Eval.define name ⟨value, constant⟩)
    pure .normal
  | _ + 1, .functionDecl name parameters body => do
    ofEval (Eval.guardBuiltin host.settings name)
    let value ← ofEval (Eval.makeClosure name parameters body)
    ofEval (Eval.define name ⟨value, false⟩)
    pure .normal
  | steps + 1, .returnStmt _ value => .returning <$> evaluateOr host steps .nil value

def executeIfAny (host : Host) : Nat → Option Stmt → Timed Flow
  | 0, _ => outOfTime
  | steps + 1, some s => execute host steps s
  | _ + 1, none => pure .normal

def executeAll (host : Host) : Nat → List Stmt → Timed Flow
  | 0, _ => outOfTime
  | _ + 1, [] => pure .normal
  | steps + 1, s :: ss => do
    match ← execute host steps s with
    | .returning value => pure (.returning value)
    | .normal => executeAll host steps ss

def loop (host : Host) :
    Nat → Token → Option Expr → Stmt → Option Expr → Nat → Timed Flow
  | 0, _, _, _, _, _ => outOfTime
  | steps + 1, keyword, condition, body, increment, done => do
    if (← evaluateOr host steps (.boolean true) condition).isTruthy then
      ofEval (guardRounds host.settings keyword done)
      match ← execute host steps body with
      | .returning value => pure (.returning value)
      | .normal =>
        discard (evaluateOr host steps .nil increment)
        loop host steps keyword condition body increment (done + 1)
    else
      pure .normal

def call (host : Host) : Nat → Value → Token → List Value → Timed Value
  | 0, _, _, _ => outOfTime
  | steps + 1, .function f, paren, arguments => do
    ofEval (guardArity paren f.parameters.length arguments)
    ofEval (Eval.guardCall host paren)
    let flow ← inCall (inFrame (f.frame arguments) (executeAll host steps f.body))
    pure flow.value
  | _ + 1, .native f, paren, arguments => ofEval do
    guardArity paren f.arity arguments
    Eval.guardCall host paren
    Eval.inCall (Eval.applyNative host paren f.code arguments)
  | _ + 1, _, paren, _ => ofEval (Eval.raise .notCallable paren)

end

def interpret (host : Host) (steps : Nat) (program : Program) : Timed Unit := fun m =>
  (executeAll host steps program { m with watched := true }).map fun result =>
    Eval.asProgram (fun _ => result) m

end Timed

/-- With enough steps, a run against the clock has the result of a run. -/
def Settles {α : Type} (timed : Nat → Timed α) (run : Eval α) (m : Machine) : Prop :=
  ∃ enough, ∀ steps, enough ≤ steps → timed steps m = some (run m)

namespace Settles

variable {α β : Type} {timed other : Nat → Timed α} {run : Eval α} {m : Machine}

theorem unique {run' : Eval α} (h : Settles timed run m) (k : Settles timed run' m) :
    run m = run' m := by
  obtain ⟨enough, henough⟩ := h
  obtain ⟨more, hmore⟩ := k
  have hleft := henough (max enough more) (Nat.le_max_left _ _)
  have hright := hmore (max enough more) (Nat.le_max_right _ _)
  exact Option.some.inj (hleft.symm.trans hright)

theorem ofEval (run : Eval α) (m : Machine) : Settles (fun _ => Timed.ofEval run) run m :=
  ⟨0, fun _ _ => rfl⟩

theorem pure (x : α) (m : Machine) : Settles (fun _ => Pure.pure x) (Pure.pure x) m :=
  ⟨0, fun _ _ => rfl⟩

theorem step (h : Settles other run m) (hs : ∀ steps, timed (steps + 1) = other steps) :
    Settles timed run m := by
  obtain ⟨enough, henough⟩ := h
  refine ⟨enough + 1, fun steps hle => ?_⟩
  obtain ⟨steps, rfl⟩ := Nat.exists_eq_add_of_le' (Nat.le_trans (Nat.le_add_left 1 enough) hle)
  rw [hs]
  exact henough steps (by omega)

theorem bind {next : Nat → α → Timed β} {rest : α → Eval β} (h : Settles timed run m)
    (k : ∀ x after, run m = .ok x after → Settles (fun steps => next steps x) (rest x) after) :
    Settles (fun steps => timed steps >>= next steps) (run >>= rest) m := by
  obtain ⟨enough, henough⟩ := h
  cases hr : run m with
  | error e after =>
    refine ⟨enough, fun steps hle => ?_⟩
    rw [Eval.bind_error hr]
    simp only [Bind.bind, henough steps hle, hr]
  | ok x after =>
    obtain ⟨more, hmore⟩ := k x after hr
    refine ⟨max enough more, fun steps hle => ?_⟩
    rw [Eval.bind_ok hr, ← hmore steps (by omega)]
    simp only [Bind.bind, henough steps (by omega), hr]

theorem map (h : Settles timed run m) (f : α → β) :
    Settles (fun steps => f <$> timed steps) (f <$> run) m := by
  obtain ⟨enough, henough⟩ := h
  refine ⟨enough, fun steps hle => ?_⟩
  simp only [Functor.map, EStateM.map, henough steps hle]
  cases run m <;> rfl

theorem discard (h : Settles timed run m) :
    Settles (fun steps => Functor.discard (timed steps)) (Functor.discard run) m :=
  h.map _

theorem inFrame {frame : Frame} (h : Settles timed run (m.entering frame)) :
    Settles (fun steps => Timed.inFrame frame (timed steps)) (Eval.inFrame frame run) m := by
  obtain ⟨enough, henough⟩ := h
  refine ⟨enough, fun steps hle => ?_⟩
  simp only [Timed.inFrame, henough steps hle, Option.map_some]
  rfl

theorem inScope (h : Settles timed run (m.entering ⟨[], some m.scope⟩)) :
    Settles (fun steps => Timed.inScope (timed steps)) (Eval.inScope run) m :=
  h.inFrame

theorem inCall (h : Settles timed run { m with depth := m.depth + 1 }) :
    Settles (fun steps => Timed.inCall (timed steps)) (Eval.inCall run) m := by
  obtain ⟨enough, henough⟩ := h
  refine ⟨enough, fun steps hle => ?_⟩
  simp only [Timed.inCall, henough steps hle, Option.map_some]
  rfl

theorem asProgram {timed : Nat → Timed Flow} {run : Eval Flow}
    (h : Settles timed run { m with watched := true }) :
    Settles (fun steps m => (timed steps { m with watched := true }).map fun result =>
      Eval.asProgram (fun _ => result) m) run.asProgram m := by
  obtain ⟨enough, henough⟩ := h
  refine ⟨enough, fun steps hle => ?_⟩
  simp only [henough steps hle, Option.map_some]
  rfl

end Settles

theorem Frames.nearestTimed_of_chain {frames : Frames} {id : FrameId} {ids : List FrameId}
    (name : String) (h : frames.Chain id ids) {steps : Nat} (hs : ids.length ≤ steps) :
    frames.nearestTimed name steps id = some (frames.nearestWithin name ids.length id) := by
  induction h generalizing steps with
  | @last id frame found outermost =>
    obtain ⟨steps, rfl⟩ := Nat.exists_eq_add_of_le' hs
    simp only [List.length_cons, List.length_nil, nearestWithin_succ name _ found, outermost,
      nearestTimed, found]
    cases frame.binding? name <;> rfl
  | @more id next frame ids found enclosed rest ih =>
    obtain ⟨steps, rfl⟩ := Nat.exists_eq_add_of_le' (Nat.le_trans (Nat.succ_pos _) hs)
    simp only [List.length_cons, nearestWithin_succ name _ found, enclosed, Option.bind_some,
      nearestTimed, found]
    cases frame.binding? name with
    | some binding => rfl
    | none => exact ih (by simpa using hs)

theorem Machine.nearestTimed {m : Machine} (hl : m.Linked) (hg : m.frames.Grounded)
    (name : String) : ∃ enough, ∀ steps, enough ≤ steps →
      m.frames.nearestTimed name steps m.scope = some (m.frames.nearest? m.scope name) := by
  obtain ⟨ids, hids⟩ := hg m.scope hl.scope
  refine ⟨ids.length, fun steps hle => ?_⟩
  rw [Frames.nearestTimed_of_chain name hids hle, Frames.nearest?_of_chain name hids]

theorem lookUp_settles {m : Machine} (hl : m.Linked) (hg : m.frames.Grounded) (name : Token) :
    Settles (fun steps => Timed.lookUp steps name) (Eval.lookUp name) m := by
  obtain ⟨enough, henough⟩ := Machine.nearestTimed hl hg name.lexeme
  refine ⟨enough, fun steps hle => ?_⟩
  simp only [Timed.lookUp, henough steps hle, Eval.lookUp, Frames.get, Frames.get?]
  cases m.frames.nearest? m.scope name.lexeme <;> rfl

theorem assign_settles {m : Machine} (hl : m.Linked) (hg : m.frames.Grounded) (name : Token)
    (value : Value) :
    Settles (fun steps => Timed.assign steps name value) (Eval.assign name value) m := by
  obtain ⟨enough, henough⟩ := Machine.nearestTimed hl hg name.lexeme
  refine ⟨enough, fun steps hle => ?_⟩
  simp only [Timed.assign, henough steps hle, Eval.assign, Frames.target]
  cases m.frames.nearest? m.scope name.lexeme with
  | none => rfl
  | some found => cases hc : found.2.constant <;> simp [hc]

end Scriptlet
