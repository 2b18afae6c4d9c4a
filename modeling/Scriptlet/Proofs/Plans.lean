import Scriptlet.Proofs.Evolution

/-!
Runs laid out as plans. A plan is a tree: steps that are over at once, the result of each choosing
what comes next, and parts that run inside a new frame or a call. Every run of an expression, a
statement or a call carries out a plan of its own, and the plan shows all the machines that the run
passes through, not only the last one. What holds for all plans holds at every moment of every run.
-/

namespace Scriptlet

def Eval.after {α : Type} (run : Eval α) (m : Machine) : Machine :=
  match run m with
  | .ok _ after => after
  | .error _ after => after

def message? {α : Type} : EStateM.Result RuntimeError Machine α → Option String
  | .ok _ _ => none
  | .error e _ => some e.fault.message

namespace Eval

variable {α β : Type} {run : Eval α} {m after : Machine}

theorem after_ok {x : α} (h : run m = .ok x after) : run.after m = after := by
  simp only [Eval.after, h]

theorem after_error {e : RuntimeError} (h : run m = .error e after) : run.after m = after := by
  simp only [Eval.after, h]

theorem after_bind_ok {next : α → Eval β} {x : α} (h : run m = .ok x after) :
    (run >>= next).after m = (next x).after after := by
  simp only [Eval.after, bind_ok h]

theorem after_bind_error {next : α → Eval β} {e : RuntimeError} (h : run m = .error e after) :
    (run >>= next).after m = after :=
  after_error (bind_error h)

/-- What holds from start to end of two parts, and goes on from one to the next, holds from start
to end of their sequence. -/
theorem after_bind (R : Machine → Machine → Prop) (htrans : ∀ {a b c}, R a b → R b c → R a c)
    {next : α → Eval β} (h : R m (run.after m)) (k : ∀ x after, R after ((next x).after after)) :
    R m ((run >>= next).after m) := by
  cases hr : run m with
  | ok x after =>
    rw [after_bind_ok hr]
    rw [after_ok hr] at h
    exact htrans h (k x after)
  | error e after =>
    rw [after_bind_error hr]
    rwa [after_error hr] at h

theorem after_inFrame (frame : Frame) :
    (inFrame frame run).after m = { run.after (m.entering frame) with scope := m.scope } := by
  cases h : run (m.entering frame) with
  | ok x after => rw [after_ok (inFrame_ok h), after_ok h]
  | error e after => rw [after_error (inFrame_error h), after_error h]

theorem after_inCall (run : Eval α) (m : Machine) :
    let inside := run.after { m with depth := m.depth + 1 }
    (inCall run).after m = { inside with depth := inside.depth - 1 } := by
  cases h : run { m with depth := m.depth + 1 } with
  | ok x after => rw [after_ok (inCall_ok h), after_ok h]
  | error e after => rw [after_error (inCall_error h), after_error h]

end Eval

inductive Step : Type → Type 1 where
  | settle {α : Type} (token : Token) (result : Except Fault α) : Step α
  | lookUp (name : Token) : Step Value
  | assign (name : Token) (value : Value) : Step Unit
  | define (name : Token) (binding : Binding) : Step Unit
  | write (keyword : Token) (text : String) : Step Unit
  | makeClosure (name : Token) (parameters : List Token) (body : List Stmt) : Step Value
  | guardBuiltin (name : Token) : Step Unit
  | checkStack (token : Token) : Step Unit
  | guardCall (paren : Token) : Step Unit
  | applyNative (paren : Token) (code : Nat) (arguments : List Value) : Step Value

def Step.run (host : Host) {α : Type} : Step α → Eval α
  | .settle token result => Eval.settle token result
  | .lookUp name => Eval.lookUp name
  | .assign name value => Eval.assign name value
  | .define name binding => Eval.define name binding
  | .write keyword text => Eval.write keyword text
  | .makeClosure name parameters body => Eval.makeClosure name parameters body
  | .guardBuiltin name => Eval.guardBuiltin host.settings name
  | .checkStack token => Eval.checkStack host token
  | .guardCall paren => Eval.guardCall host paren
  | .applyNative paren code arguments => Eval.applyNative host paren code arguments

/-- What can become of a machine by a step: an assignment, a definition, or nothing that concerns
scope and depth. Frames are not concerned then either, unless a function of the host is. -/
inductive Step.Effect (host : Host) : {α : Type} → Step α → Machine → Machine → Prop where
  | assigned {m : Machine} {name : Token} {value : Value} {owner : FrameId}
      (target : m.frames.target m.scope name.lexeme = .ok owner) :
      Effect host (.assign name value) m
        (m.modifyFrames (·.define owner name.lexeme ⟨value, false⟩))
  | defined (m : Machine) (name : Token) (binding : Binding) :
      Effect host (.define name binding) m (m.modifyFrames (·.define m.scope name.lexeme binding))
  | aside {α : Type} {s : Step α} {m after : Machine}
      (frames : host.natives.Detached → after.frames = m.frames) (scope : after.scope = m.scope)
      (depth : after.depth = m.depth) (watched : after.watched = m.watched) : Effect host s m after

theorem Eval.after_settle {α : Type} (token : Token) (result : Except Fault α) (m : Machine) :
    (Eval.settle token result).after m = m := by
  cases result <;> rfl

theorem Eval.after_checkStack (host : Host) (token : Token) (m : Machine) :
    (Eval.checkStack host token).after m = m.checked := by
  rcases Eval.checkStack_cases host token m with hcheck | hcheck
  · exact Eval.after_ok hcheck
  · exact Eval.after_error hcheck

theorem Eval.after_guardCall (host : Host) (paren : Token) (m : Machine) :
    (Eval.guardCall host paren).after m = m ∨ (Eval.guardCall host paren).after m = m.checked := by
  rcases Eval.guardCall_cases host paren m with ⟨after, hguard, hafter⟩ | ⟨_, hguard⟩
  · rw [Eval.after_error hguard]
    exact hafter
  · exact .inr (Eval.after_ok hguard)

theorem Eval.after_applyNative (host : Host) (paren : Token) (code : Nat) (arguments : List Value)
    (m : Machine) :
    (Eval.applyNative host paren code arguments).after m =
      { m.withHeap (host.natives code m.nativeCalls arguments m.heap).2 with
        nativeCalls := m.nativeCalls + 1 } :=
  Eval.after_settle paren _ _

theorem Step.effect {host : Host} {α : Type} {s : Step α} {m after : Machine}
    (h : (s.run host).after m = after) : s.Effect host m after := by
  subst h
  have unchanged : ∀ {α : Type} {s : Step α} {after : Machine}, after = m →
      s.Effect host m after := by
    intro α s after h
    rw [h]
    exact .aside (fun _ => rfl) rfl rfl rfl
  have checked : ∀ {α : Type} {s : Step α} {after : Machine}, after = m.checked →
      s.Effect host m after := by
    intro α s after h
    rw [h]
    exact .aside (fun _ => rfl) rfl rfl rfl
  cases s with
  | settle token result => exact unchanged (Eval.after_settle token result m)
  | lookUp name => exact unchanged (Eval.after_settle name (m.frames.get m.scope name.lexeme) m)
  | assign name value =>
    change Effect host _ m ((Eval.assign name value).after m)
    unfold Eval.after Eval.assign
    cases htarget : m.frames.target m.scope name.lexeme with
    | ok owner => exact .assigned htarget
    | error fault => exact unchanged rfl
  | define name binding => exact .defined m name binding
  | write keyword text =>
    change Effect host _ m ((Eval.write keyword text).after m)
    unfold Eval.after Eval.write
    dsimp only
    cases m.output.fits text.utf8ByteSize with
    | true => exact .aside (fun _ => rfl) rfl rfl rfl
    | false => exact .aside (fun _ => rfl) rfl rfl rfl
  | makeClosure name parameters body => exact .aside (fun _ => rfl) rfl rfl rfl
  | guardBuiltin name =>
    apply unchanged
    change (Eval.guardBuiltin host.settings name).after m = m
    unfold Eval.after Eval.guardBuiltin
    split <;> rename_i h <;> split at h <;> cases h <;> rfl
  | checkStack token => exact checked (Eval.after_checkStack host token m)
  | guardCall paren =>
    rcases Eval.after_guardCall host paren m with hafter | hafter
    · exact unchanged hafter
    · exact checked hafter
  | applyNative paren code arguments =>
    change Effect host _ m ((Eval.applyNative host paren code arguments).after m)
    rw [Eval.after_applyNative]
    refine .aside (fun detached => ?_) rfl rfl rfl
    rw [detached.heap]
    rfl

/-- What a run does, up to its result. The new frame of a part may depend on the scope around it. A
part that is a call begins with the guard of calls. -/
inductive Plan : Type → Type 1 where
  | done {α : Type} (x : α) : Plan α
  | step {α β : Type} (s : Step β) (next : β → Plan α) : Plan α
  | inFrame {α β : Type} (frame : FrameId → Frame) (body : Plan β) (next : β → Plan α) : Plan α
  | call {α β : Type} (paren : Token) (body : Plan β) (next : β → Plan α) : Plan α

namespace Plan

def bind {α β : Type} : Plan α → (α → Plan β) → Plan β
  | .done x, rest => rest x
  | .step s next, rest => .step s fun x => (next x).bind rest
  | .inFrame frame body next, rest => .inFrame frame body fun x => (next x).bind rest
  | .call paren body next, rest => .call paren body fun x => (next x).bind rest

instance : Monad Plan where
  pure := .done
  bind := bind

def runInFrame {α : Type} (frame : FrameId → Frame) (body : Eval α) : Eval α := fun m =>
  Eval.inFrame (frame m.scope) body m

theorem after_runInFrame {α : Type} (frame : FrameId → Frame) (body : Eval α) (m : Machine) :
    (runInFrame frame body).after m =
      { body.after (m.entering (frame m.scope)) with scope := m.scope } :=
  Eval.after_inFrame (frame m.scope)

def runCall {α : Type} (host : Host) (paren : Token) (body : Eval α) : Eval α := do
  Eval.guardCall host paren
  Eval.inCall body

def run (host : Host) {α : Type} : Plan α → Eval α
  | .done x => pure x
  | .step s next => s.run host >>= fun x => (next x).run host
  | .inFrame frame body next =>
    runInFrame frame (body.run host) >>= fun x => (next x).run host
  | .call paren body next => runCall host paren (body.run host) >>= fun x => (next x).run host

/-- A machine during a run, and how many calls of the run are in progress then. -/
structure Moment where
  calls : Nat
  machine : Machine

def Moment.inCall (moment : Moment) : Moment := { moment with calls := moment.calls + 1 }

def following {α : Type} (result : EStateM.Result RuntimeError Machine α)
    (next : α → Machine → List Moment) : List Moment :=
  match result with
  | .ok x after => next x after
  | .error _ _ => []

/-- All moments of a run but the last, in order: those before each step, and for a part inside a
frame or call also the moment when the part is over. -/
def moments (host : Host) {α : Type} : Plan α → Machine → List Moment
  | .done _, _ => []
  | .step s next, m =>
    ⟨0, m⟩ :: following (s.run host m) fun x after => (next x).moments host after
  | .inFrame frame body next, m =>
    let inside := m.entering (frame m.scope)
    ⟨0, m⟩ :: (body.moments host inside ++ ⟨0, (body.run host).after inside⟩ ::
      following (runInFrame frame (body.run host) m) fun x after => (next x).moments host after)
  | .call paren body next, m =>
    ⟨0, m⟩ :: (following (Eval.guardCall host paren m) (fun _ m =>
        let inside := { m with depth := m.depth + 1 }
        (body.moments host inside ++ [Moment.mk 0 ((body.run host).after inside)]).map
          Moment.inCall) ++
      following (runCall host paren (body.run host) m) fun x after => (next x).moments host after)

def history (host : Host) {α : Type} (plan : Plan α) (m : Machine) : List Moment :=
  plan.moments host m ++ [⟨0, (plan.run host).after m⟩]

section Sequence

variable {α β : Type} {host : Host}

@[simp] theorem run_pure (x : α) : (pure x : Plan α).run host = pure x := rfl

@[simp] theorem run_bind (plan : Plan α) (rest : α → Plan β) :
    (plan >>= rest).run host = plan.run host >>= fun x => (rest x).run host := by
  change (plan.bind rest).run host = _
  induction plan with
  | done x => exact (pure_bind x fun x => (rest x).run host).symm
  | step s next ih => simp only [bind, run, ih, bind_assoc]
  | inFrame frame body next _ ih => simp only [bind, run, ih, bind_assoc]
  | call paren body next _ ih => simp only [bind, run, ih, bind_assoc]

@[simp] theorem run_map (f : α → β) (plan : Plan α) :
    (f <$> plan).run host = f <$> plan.run host := by
  change (plan >>= fun x => pure (f x)).run host = _
  rw [run_bind, ← bind_pure_comp]
  rfl

end Sequence

def take {α : Type} (s : Step α) : Plan α := .step s .done

def raise {α : Type} (fault : Fault) (token : Token) : Plan α := take (.settle token (.error fault))

def within {α : Type} (frame : FrameId → Frame) (body : Plan α) : Plan α :=
  .inFrame frame body .done

def inScope {α : Type} (body : Plan α) : Plan α := within (fun scope => ⟨[], some scope⟩) body

def called {α : Type} (paren : Token) (body : Plan α) : Plan α := .call paren body .done

section Parts

variable {α : Type} {host : Host}

@[simp] theorem run_take (s : Step α) : (take s).run host = s.run host := bind_pure (s.run host)

@[simp] theorem run_raise (fault : Fault) (token : Token) :
    (raise fault token : Plan α).run host = Eval.raise fault token := run_take _

@[simp] theorem run_within (frame : FrameId → Frame) (body : Plan α) :
    (within frame body).run host = runInFrame frame (body.run host) :=
  bind_pure (runInFrame frame (body.run host))

@[simp] theorem run_inScope (body : Plan α) :
    (inScope body).run host = Eval.inScope (body.run host) := run_within _ body

@[simp] theorem run_called (paren : Token) (body : Plan α) :
    (called paren body).run host = runCall host paren (body.run host) :=
  bind_pure (runCall host paren (body.run host))

end Parts

abbrev Caller := Value → Token → List Value → Plan Value

mutual

def evaluate (call : Caller) : Expr → Plan Value
  | .literal value => pure (.ofConstant value)
  | .identifier name => take (.lookUp name)
  | .grouping inner => evaluate call inner
  | .unary operator operand => do
    take (.checkStack operator)
    let operand ← evaluate call operand
    take (.settle operator (Value.applyUnary operator operand))
  | .binary left operator right => do
    take (.checkStack operator)
    let left ← evaluate call left
    let right ← evaluate call right
    take (.settle operator (Value.applyBinary operator left right))
  | .logical left operator right => do
    take (.checkStack operator)
    let left ← evaluate call left
    if ← take (.settle operator (Value.decides operator left)) then pure left
    else evaluate call right
  | .assignment name value => do
    take (.checkStack name)
    let value ← evaluate call value
    take (.assign name value)
    pure value
  | .call callee paren arguments => do
    take (.checkStack paren)
    let callee ← evaluate call callee
    let arguments ← evaluateAll call arguments
    call callee paren arguments

def evaluateAll (call : Caller) : List Expr → Plan (List Value)
  | [] => pure []
  | e :: es => do
    let value ← evaluate call e
    let values ← evaluateAll call es
    pure (value :: values)

end

def evaluateOr (call : Caller) (absent : Value) : Option Expr → Plan Value
  | some e => evaluate call e
  | none => pure absent

def runLoop (limit : Nat) (keyword : Token) (condition : Plan Bool) (body : Plan Flow)
    (increment : Plan Unit) : Nat → Plan Flow
  | 0 => do
    if ← condition then raise (.loopLimit limit) keyword else pure .normal
  | rounds + 1 => do
    if ← condition then
      match ← body with
      | .returning value => pure (.returning value)
      | .normal =>
        increment
        runLoop limit keyword condition body increment rounds
    else
      pure .normal

mutual

def execute (settings : Settings) (call : Caller) : Stmt → Plan Flow
  | .expression value => do
    discard (evaluate call value)
    pure .normal
  | .print keyword value => do
    let value ← evaluate call value
    take (.write keyword (value.text ++ "\n"))
    pure .normal
  | .block body => inScope (executeAll settings call body)
  | .conditional condition thenBranch elseBranch => do
    if (← evaluate call condition).isTruthy then execute settings call thenBranch
    else executeIfAny settings call elseBranch
  | .whileLoop keyword condition body => do
    take (.checkStack keyword)
    runLoop settings.roundLimit keyword (Value.isTruthy <$> evaluate call condition)
      (execute settings call body) (pure ()) settings.roundLimit
  | .forLoop keyword initializer condition increment body => do
    take (.checkStack keyword)
    inScope do
      discard (executeIfAny settings call initializer)
      runLoop settings.roundLimit keyword
        (Value.isTruthy <$> evaluateOr call (.boolean true) condition)
        (execute settings call body) (discard (evaluateOr call .nil increment)) settings.roundLimit
  | .variableDecl name initializer constant => do
    take (.guardBuiltin name)
    let value ← evaluateOr call .nil initializer
    take (.define name ⟨value, constant⟩)
    pure .normal
  | .functionDecl name parameters body => do
    take (.guardBuiltin name)
    let value ← take (.makeClosure name parameters body)
    take (.define name ⟨value, false⟩)
    pure .normal
  | .returnStmt _ value => .returning <$> evaluateOr call .nil value

def executeIfAny (settings : Settings) (call : Caller) : Option Stmt → Plan Flow
  | some s => execute settings call s
  | none => pure .normal

def executeAll (settings : Settings) (call : Caller) : List Stmt → Plan Flow
  | [] => pure .normal
  | s :: ss => do
    match ← execute settings call s with
    | .returning value => pure (.returning value)
    | .normal => executeAll settings call ss

end

def guardArity (paren : Token) (expected : Nat) (arguments : List Value) : Plan Unit :=
  if arguments.length = expected then pure ()
  else raise (.argumentCount expected arguments.length) paren

def callValue (settings : Settings) : (calls : Nat) → Caller
  | 0, .function f, paren, arguments => do
    guardArity paren f.parameters.length arguments
    take (.guardCall paren)
    raise .stackOverflow paren
  | calls + 1, .function f, paren, arguments => do
    guardArity paren f.parameters.length arguments
    let body := executeAll settings (callValue settings calls) f.body
    let flow ← called paren (within (fun _ => f.frame arguments) body)
    pure flow.value
  | _, .native f, paren, arguments => do
    guardArity paren f.arity arguments
    called paren (take (.applyNative paren f.code arguments))
  | _, _, paren, _ => raise .notCallable paren

def Caller.PlansFor (call : Caller) (host : Host) (caller : Scriptlet.Caller) : Prop :=
  ∀ callee paren arguments, (call callee paren arguments).run host = caller callee paren arguments

section Runs

variable {host : Host} {call : Caller} {caller : Scriptlet.Caller}

mutual

theorem run_evaluate (hcall : call.PlansFor host caller) : (e : Expr) →
    (evaluate call e).run host = Scriptlet.evaluate host caller e
  | .literal value => by
    simp only [evaluate, Scriptlet.evaluate, run_pure]
  | .identifier name => by
    simp only [evaluate, Scriptlet.evaluate, run_take, Step.run]
  | .grouping inner => by
    simp only [evaluate, Scriptlet.evaluate, run_evaluate hcall inner]
  | .unary operator operand => by
    simp only [evaluate, Scriptlet.evaluate, run_bind, run_take, Step.run,
      run_evaluate hcall operand]
  | .binary left operator right => by
    simp only [evaluate, Scriptlet.evaluate, run_bind, run_take, Step.run,
      run_evaluate hcall left, run_evaluate hcall right]
  | .logical left operator right => by
    simp only [evaluate, Scriptlet.evaluate, run_bind, run_take, Step.run,
      run_evaluate hcall left, apply_ite (run host), run_pure, run_evaluate hcall right]
  | .assignment name value => by
    simp only [evaluate, Scriptlet.evaluate, run_bind, run_take, Step.run, run_pure,
      run_evaluate hcall value]
  | .call callee paren arguments => by
    simp only [evaluate, Scriptlet.evaluate, run_bind, run_take, Step.run, hcall _ _ _,
      run_evaluate hcall callee, run_evaluateAll hcall arguments]

theorem run_evaluateAll (hcall : call.PlansFor host caller) : (es : List Expr) →
    (evaluateAll call es).run host = Scriptlet.evaluateAll host caller es
  | [] => by
    simp only [evaluateAll, Scriptlet.evaluateAll, run_pure]
  | e :: es => by
    simp only [evaluateAll, Scriptlet.evaluateAll, run_bind, run_pure, run_evaluate hcall e,
      run_evaluateAll hcall es]

end

theorem run_evaluateOr (hcall : call.PlansFor host caller) (absent : Value) :
    (o : Option Expr) →
    (evaluateOr call absent o).run host = Scriptlet.evaluateOr host caller absent o
  | some e => run_evaluate hcall e
  | none => rfl

theorem run_discard {α : Type} (plan : Plan α) :
    (discard plan).run host = discard (plan.run host) := run_map _ plan

theorem run_runLoop (limit : Nat) (keyword : Token) {condition : Plan Bool} {body : Plan Flow}
    {increment : Plan Unit} : (rounds : Nat) →
    (runLoop limit keyword condition body increment rounds).run host =
      Scriptlet.runLoop limit keyword (condition.run host) (body.run host) (increment.run host)
        rounds
  | 0 => by
    simp only [runLoop, Scriptlet.runLoop, run_bind, apply_ite (run host), run_raise, run_pure]
  | rounds + 1 => by
    simp only [runLoop, Scriptlet.runLoop, run_bind]
    congr 1
    funext holds
    cases holds with
    | false => rfl
    | true =>
      simp only [if_true, run_bind]
      congr 1
      funext flow
      cases flow with
      | returning value => rfl
      | normal => simp only [run_bind, run_runLoop limit keyword rounds]

mutual

theorem run_execute (hcall : call.PlansFor host caller) : (s : Stmt) →
    (execute host.settings call s).run host = Scriptlet.execute host caller s
  | .expression value => by
    simp only [execute, Scriptlet.execute, run_bind, run_discard, run_pure,
      run_evaluate hcall value]
  | .print keyword value => by
    simp only [execute, Scriptlet.execute, run_bind, run_take, Step.run, run_pure,
      run_evaluate hcall value]
  | .block body => by
    simp only [execute, Scriptlet.execute, run_inScope, run_executeAll hcall body]
  | .conditional condition thenBranch elseBranch => by
    simp only [execute, execute_conditional, run_bind, apply_ite (run host),
      run_evaluate hcall condition, run_execute hcall thenBranch, run_executeIfAny hcall elseBranch]
  | .whileLoop keyword condition body => by
    simp only [execute, Scriptlet.execute, run_bind, run_take, Step.run, run_runLoop, run_map,
      run_pure, run_evaluate hcall condition, run_execute hcall body]
  | .forLoop keyword initializer condition increment body => by
    simp only [execute, execute_forLoop, run_take, Step.run, run_inScope, run_bind, run_discard,
      run_runLoop, run_map, run_executeIfAny hcall initializer, run_evaluateOr hcall,
      run_execute hcall body]
  | .variableDecl name initializer constant => by
    simp only [execute, Scriptlet.execute, run_bind, run_take, Step.run, run_pure,
      run_evaluateOr hcall]
  | .functionDecl name parameters body => by
    simp only [execute, Scriptlet.execute, run_bind, run_take, Step.run, run_pure]
  | .returnStmt _ value => by
    simp only [execute, Scriptlet.execute, run_map, run_evaluateOr hcall]

theorem run_executeIfAny (hcall : call.PlansFor host caller) : (o : Option Stmt) →
    (executeIfAny host.settings call o).run host = Scriptlet.executeIfAny host caller o
  | some s => run_execute hcall s
  | none => rfl

theorem run_executeAll (hcall : call.PlansFor host caller) : (ss : List Stmt) →
    (executeAll host.settings call ss).run host = Scriptlet.executeAll host caller ss
  | [] => rfl
  | s :: ss => by
    simp only [executeAll, Scriptlet.executeAll, run_bind, run_execute hcall s]
    congr 1
    funext flow
    cases flow with
    | returning value => rfl
    | normal => exact run_executeAll hcall ss

end

theorem run_guardArity (paren : Token) (expected : Nat) (arguments : List Value) :
    (guardArity paren expected arguments).run host =
      Scriptlet.guardArity paren expected arguments := by
  simp only [guardArity, Scriptlet.guardArity, apply_ite (run host), run_pure, run_raise]

/-- Calls carry out their plans, by induction on how many may nest. -/
theorem plansFor_callValue (host : Host) : (calls : Nat) →
    (callValue host.settings calls).PlansFor host (Scriptlet.callValue host calls)
  | 0, .function f, paren, arguments => by
    simp only [callValue, Scriptlet.callValue, run_bind, run_guardArity, run_take, Step.run,
      run_raise]
  | calls + 1, .function f, paren, arguments => by
    have hbody := run_executeAll (plansFor_callValue host calls) f.body
    simp only [callValue, callValue_function, run_bind, run_guardArity, run_called, run_within,
      hbody, runCall, bind_assoc, run_pure]
    rfl
  | calls, .native f, paren, arguments => by
    simp only [callValue, callValue_native, run_bind, run_guardArity, run_called, run_take,
      Step.run, runCall]
  | calls, .nil, _, _ => by cases calls <;> exact run_raise _ _
  | calls, .boolean _, _, _ => by cases calls <;> exact run_raise _ _
  | calls, .number _, _, _ => by cases calls <;> exact run_raise _ _
  | calls, .string _, _, _ => by cases calls <;> exact run_raise _ _

end Runs

end Plan

end Scriptlet
