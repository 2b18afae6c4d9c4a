import Scriptlet.Proofs.Timed

/-!
Every run ends if the rounds of loops are limited. What bounds a run is, from the outside in, how
many calls may still nest, the syntax that runs, and how many rounds a loop may still make. A
function that is found in a frame can have any body, but the body runs with one call less to spare;
the rest is induction on syntax and on rounds. So a run against the clock ends, with the result that
the same run has without one, and also if the stack never runs out and nothing but the settings
limits how deep calls nest.
-/

namespace Scriptlet

/-- Whether a machine refers to frames that it has, in chains that end, which no function of the
host can change, and no more than `room` calls may still nest. -/
structure Ready (host : Host) (room : Nat) (m : Machine) : Prop where
  detached : host.natives.Detached
  linked : m.Linked
  grounded : m.frames.Grounded
  room : host.settings.maxCallDepth.toNat ≤ m.depth + room

theorem Ready.evolves {host : Host} {room : Nat} {m after : Machine}
    (h : Ready host room m) (he : m.Evolves after) : Ready host room after :=
  ⟨h.detached, he.linked h.linked, he.grounded h.grounded, by rw [he.depth_eq]; exact h.room⟩

theorem Ready.entering {host : Host} {room : Nat} {m : Machine}
    (h : Ready host room m) {frame : Frame} (hf : frame.Linked m.frames.size) :
    Ready host room (m.entering frame) :=
  ⟨h.detached, h.linked.entering hf, h.grounded.push frame hf.enclosing, h.room⟩

theorem Settles.followed {α β : Type} {timed : Nat → Timed α} {run : Eval α}
    {next : Nat → α → Timed β} {rest : α → Eval β} {Q : α → Nat → Prop} {host : Host}
    {room : Nat} {m : Machine} (h : Settles timed run m)
    (hends : run.Ends Q m) (hm : Ready host room m)
    (k : ∀ x after, Ready host room after → m.frames.size ≤ after.frames.size →
      Q x after.frames.size → Settles (fun steps => next steps x) (rest x) after) :
    Settles (fun steps => timed steps >>= next steps) (run >>= rest) m := by
  refine h.bind fun x after hr => ?_
  unfold Eval.Ends at hends
  rw [hr] at hends
  exact k x after (hm.evolves hends.1) hends.1.size_le hends.2

/-- Calls of values that a ready machine has end in time. -/
def CallsSettle (host : Host) (room : Nat) : Prop :=
  ∀ callee paren arguments m, Ready host room m → callee.Within m.frames.size →
    (∀ v ∈ arguments, v.Within m.frames.size) →
    Settles (fun steps => Timed.call host steps callee paren arguments)
      (callValue host room callee paren arguments) m

variable {host : Host} {room : Nat}

theorem Settles.checked {β : Type} {token : Token} {next : Nat → Timed β} {rest : Eval β}
    {m : Machine} (hm : Ready host room m)
    (k : ∀ after, Ready host room after → Settles next rest after) :
    Settles (fun steps => Timed.ofEval (Eval.checkStack host token) >>= fun _ => next steps)
      (Eval.checkStack host token >>= fun _ => rest) m :=
  (Settles.ofEval _ m).followed (Eval.ends_checkStack host token) hm fun _ after h _ _ => k after h

theorem Ready.inScope {m : Machine} (hm : Ready host room m) :
    Ready host room (m.entering ⟨[], some m.scope⟩) :=
  hm.entering ⟨by simpa using hm.linked.scope, by simp⟩

theorem Settings.roundLimit_of_limited {settings : Settings}
    (h : settings.maxLoopIterations.toNat ≠ 0) :
    settings.roundLimit = settings.maxLoopIterations.toNat :=
  if_neg fun hzero => h (by simp [hzero])

theorem guardArity_eq_ok {paren : Token} {expected : Nat} {arguments : List Value} {x : Unit}
    {m after : Machine} (h : guardArity paren expected arguments m = .ok x after) : after = m := by
  unfold guardArity at h
  split at h <;> cases h
  rfl

theorem Eval.guardCall_eq_ok {paren : Token} {x : Unit} {m after : Machine}
    (h : Eval.guardCall host paren m = .ok x after) :
    after = m.checked ∧ m.depth < host.settings.maxCallDepth.toNat := by
  rcases Eval.guardCall_cases host paren m with ⟨_, hguard, _⟩ | ⟨hroom, hguard⟩
  · cases hguard.symm.trans h
  · cases hguard.symm.trans h
    exact ⟨rfl, hroom⟩

theorem Ready.called {m : Machine} (hm : Ready host (room + 1) m) :
    Ready host room { m.checked with depth := m.checked.depth + 1 } where
  detached := hm.detached
  linked := ⟨hm.linked.scope, hm.linked.frames⟩
  grounded := hm.grounded
  room := by
    have hroom := hm.room
    dsimp only [Machine.checked]
    omega

theorem Settles.evaluated {β : Type} {e : Expr} {next : Nat → Value → Timed β}
    {rest : Value → Eval β} {m : Machine}
    (h : Settles (fun steps => Timed.evaluate host steps e)
      (evaluate host (callValue host room) e) m) (hm : Ready host room m)
    (k : ∀ v after, Ready host room after → v.Within after.frames.size →
      Settles (fun steps => next steps v) (rest v) after) :
    Settles (fun steps => Timed.evaluate host steps e >>= next steps)
      (evaluate host (callValue host room) e >>= rest) m :=
  h.followed (evaluate_ends host (callValue_ends hm.detached room) e m hm.linked) hm
    fun v after hafter _ hv => k v after hafter hv

mutual

theorem evaluate_settles (hcalls : CallsSettle host room) : (e : Expr) → (m : Machine) →
    Ready host room m →
    Settles (fun steps => Timed.evaluate host steps e) (evaluate host (callValue host room) e) m
  | .literal value, m, _ => (Settles.pure _ m).step fun _ => rfl
  | .identifier name, m, hm => (lookUp_settles hm.linked hm.grounded name).step fun _ => rfl
  | .grouping inner, m, hm => (evaluate_settles hcalls inner m hm).step fun _ => rfl
  | .unary operator operand, m, hm => by
    refine Settles.step (Settles.checked hm fun start h => ?_) fun _ => rfl
    refine (evaluate_settles hcalls operand start h).evaluated h fun v after _ _ => ?_
    exact Settles.ofEval _ after
  | .binary left operator right, m, hm => by
    refine Settles.step (Settles.checked hm fun start h => ?_) fun _ => rfl
    refine (evaluate_settles hcalls left start h).evaluated h fun l after₁ h₁ _ => ?_
    refine (evaluate_settles hcalls right after₁ h₁).evaluated h₁ fun r after₂ _ _ => ?_
    exact Settles.ofEval _ after₂
  | .logical left operator right, m, hm => by
    refine Settles.step (Settles.checked hm fun start h => ?_) fun _ => rfl
    refine (evaluate_settles hcalls left start h).evaluated h fun l after₁ h₁ _ => ?_
    have hdecides : (Eval.settle operator (Value.decides operator l)).Ends
        (fun _ _ => True) after₁ := Eval.ends_settle operator fun _ _ => trivial
    refine (Settles.ofEval _ after₁).followed hdecides h₁ fun decided after₂ h₂ _ _ => ?_
    cases decided with
    | true => exact Settles.pure l after₂
    | false => exact evaluate_settles hcalls right after₂ h₂
  | .assignment name value, m, hm => by
    refine Settles.step (Settles.checked hm fun start h => ?_) fun _ => rfl
    refine (evaluate_settles hcalls value start h).evaluated h fun v after₁ h₁ hv => ?_
    refine (assign_settles h₁.linked h₁.grounded name v).followed (Eval.ends_assign name hv) h₁
      fun _ after₂ _ _ _ => ?_
    exact Settles.pure v after₂
  | .call callee paren arguments, m, hm => by
    refine Settles.step (Settles.checked hm fun start h => ?_) fun _ => rfl
    refine (evaluate_settles hcalls callee start h).evaluated h fun c after₁ h₁ hc => ?_
    refine Settles.followed (evaluateAll_settles hcalls arguments after₁ h₁)
      (evaluateAll_ends host (callValue_ends hm.detached room) arguments after₁ h₁.linked) h₁
      fun vs after₂ h₂ hsize hvs => ?_
    exact hcalls c paren vs after₂ h₂ (hc.mono hsize) hvs

theorem evaluateAll_settles (hcalls : CallsSettle host room) : (es : List Expr) →
    (m : Machine) → Ready host room m →
    Settles (fun steps => Timed.evaluateAll host steps es)
      (evaluateAll host (callValue host room) es) m
  | [], m, _ => (Settles.pure _ m).step fun _ => rfl
  | e :: es, m, hm => by
    refine Settles.step ((evaluate_settles hcalls e m hm).evaluated hm
      fun v after₁ h₁ _ => ?_) fun _ => rfl
    refine Settles.followed (evaluateAll_settles hcalls es after₁ h₁)
      (evaluateAll_ends host (callValue_ends hm.detached room) es after₁ h₁.linked) h₁
      fun vs after₂ _ _ _ => ?_
    exact Settles.pure (v :: vs) after₂

end

theorem evaluateOr_settles (hcalls : CallsSettle host room) (absent : Value)
    (o : Option Expr) (m : Machine) (hm : Ready host room m) :
    Settles (fun steps => Timed.evaluateOr host steps absent o)
      (evaluateOr host (callValue host room) absent o) m := by
  cases o with
  | some e => exact (evaluate_settles hcalls e m hm).step fun _ => rfl
  | none => exact (Settles.pure absent m).step fun _ => rfl

/-- A loop that may still make so many rounds ends: the guard refuses the round after the last. -/
theorem loop_settles (hcalls : CallsSettle host room) (keyword : Token)
    (condition : Option Expr) (body : Stmt) (increment : Option Expr)
    (hlimited : host.settings.maxLoopIterations.toNat ≠ 0)
    (hbody : ∀ m, Ready host room m →
      Settles (fun steps => Timed.execute host steps body)
        (execute host (callValue host room) body) m) :
    (rounds done : Nat) → done + rounds = host.settings.maxLoopIterations.toNat →
    (m : Machine) → Ready host room m →
    Settles (fun steps => Timed.loop host steps keyword condition body increment done)
      (runLoop host.settings.maxLoopIterations.toNat keyword
        (Value.isTruthy <$> evaluateOr host (callValue host room) (.boolean true) condition)
        (execute host (callValue host room) body)
        (discard (evaluateOr host (callValue host room) .nil increment)) rounds) m
  -- The induction is on the rounds left; together with those done they are the limit.
  | 0, done, hdone, m, hm => by
    have hcall := callValue_ends hm.detached room
    have hguard : Timed.guardRounds host.settings keyword done =
        Eval.raise (.loopLimit host.settings.maxLoopIterations.toNat) keyword :=
      if_pos ⟨hlimited, by omega⟩
    rw [runLoop, bind_map_left]
    refine Settles.step (Settles.followed (evaluateOr_settles hcalls (.boolean true) condition m hm)
      (evaluateOr_ends host hcall (.boolean true) (fun _ => trivial) condition m hm.linked) hm
      fun v after _ _ _ => ?_) fun _ => rfl
    rw [hguard]
    cases v.isTruthy with
    | true => exact ⟨0, fun _ _ => rfl⟩
    | false => exact Settles.pure Flow.normal after
  | rounds + 1, done, hdone, m, hm => by
    have hcall := callValue_ends hm.detached room
    have hguard : Timed.guardRounds host.settings keyword done = pure () :=
      if_neg fun h => by omega
    rw [runLoop, bind_map_left]
    refine Settles.step (Settles.followed (evaluateOr_settles hcalls (.boolean true) condition m hm)
      (evaluateOr_ends host hcall (.boolean true) (fun _ => trivial) condition m hm.linked) hm
      fun v after₁ h₁ _ _ => ?_) fun _ => rfl
    rw [hguard]
    cases v.isTruthy with
    | false => exact Settles.pure Flow.normal after₁
    | true =>
      refine Settles.followed (hbody after₁ h₁)
        (execute_ends host hcall body after₁ h₁.linked) h₁ fun flow after₂ h₂ _ _ => ?_
      cases flow with
      | returning value => exact Settles.pure (Flow.returning value) after₂
      | normal =>
        refine Settles.followed (evaluateOr_settles hcalls .nil increment after₂ h₂).discard
          (evaluateOr_ends host hcall .nil (fun _ => trivial) increment after₂ h₂.linked).discard h₂
          fun _ after₃ h₃ _ _ => ?_
        exact loop_settles hcalls keyword condition body increment hlimited hbody rounds (done + 1)
          (by omega) after₃ h₃

mutual

theorem execute_settles (hcalls : CallsSettle host room)
    (hlimited : host.settings.maxLoopIterations.toNat ≠ 0) : (s : Stmt) → (m : Machine) →
    Ready host room m →
    Settles (fun steps => Timed.execute host steps s)
      (execute host (callValue host room) s) m
  | .expression value, m, hm => by
    refine Settles.step (Settles.followed (evaluate_settles hcalls value m hm).discard
      (evaluate_ends host (callValue_ends hm.detached room) value m hm.linked).discard hm
      fun _ after _ _ _ => ?_) fun _ => rfl
    exact Settles.pure Flow.normal after
  | .print keyword value, m, hm => by
    refine Settles.step ((evaluate_settles hcalls value m hm).evaluated hm
      fun v after₁ h₁ _ => ?_) fun _ => rfl
    refine (Settles.ofEval _ after₁).followed (Eval.ends_write keyword _) h₁
      fun _ after₂ _ _ _ => ?_
    exact Settles.pure Flow.normal after₂
  | .block body, m, hm => by
    simp only [execute]
    exact (executeAll_settles hcalls hlimited body _ hm.inScope).inScope.step fun _ => rfl
  | .conditional condition thenBranch elseBranch, m, hm => by
    rw [execute_conditional]
    refine Settles.step ((evaluate_settles hcalls condition m hm).evaluated hm
      fun v after h _ => ?_) fun _ => rfl
    cases v.isTruthy with
    | true => exact execute_settles hcalls hlimited thenBranch after h
    | false => exact executeIfAny_settles hcalls hlimited elseBranch after h
  | .whileLoop keyword condition body, m, hm => by
    simp only [execute, Settings.roundLimit_of_limited hlimited]
    refine Settles.step (Settles.checked hm fun start h => ?_) fun _ => rfl
    exact loop_settles hcalls keyword (some condition) body none hlimited
      (execute_settles hcalls hlimited body) _ 0 (Nat.zero_add _) start h
  | .forLoop keyword initializer condition increment body, m, hm => by
    have hloop := loop_settles hcalls keyword condition body increment hlimited
      (execute_settles hcalls hlimited body) _ 0 (Nat.zero_add _)
    rw [execute_forLoop, Settings.roundLimit_of_limited hlimited]
    refine Settles.step (Settles.checked hm fun start h => Settles.inScope ?_) fun _ => rfl
    exact (executeIfAny_settles hcalls hlimited initializer _ h.inScope).discard.followed
      (executeIfAny_ends host (callValue_ends hm.detached room) initializer _
        h.inScope.linked).discard h.inScope fun _ after h _ _ => hloop after h
  | .variableDecl name initializer constant, m, hm => by
    refine Settles.step ((Settles.ofEval _ m).followed (Eval.ends_guardBuiltin host.settings name)
      hm fun _ after₁ h₁ _ _ => ?_) fun _ => rfl
    refine Settles.followed (evaluateOr_settles hcalls .nil initializer after₁ h₁)
      (evaluateOr_ends host (callValue_ends hm.detached room) .nil (fun _ => trivial)
        initializer after₁
        h₁.linked) h₁ fun v after₂ _ _ _ => ?_
    exact Settles.ofEval _ after₂
  | .functionDecl name parameters body, m, hm => by
    refine Settles.step ((Settles.ofEval _ m).followed (Eval.ends_guardBuiltin host.settings name)
      hm fun _ after _ _ _ => ?_) fun _ => rfl
    exact Settles.ofEval _ after
  | .returnStmt _ value, m, hm => by
    simp only [execute]
    exact ((evaluateOr_settles hcalls .nil value m hm).map Flow.returning).step fun _ => rfl

theorem executeIfAny_settles (hcalls : CallsSettle host room)
    (hlimited : host.settings.maxLoopIterations.toNat ≠ 0) : (o : Option Stmt) → (m : Machine) →
    Ready host room m →
    Settles (fun steps => Timed.executeIfAny host steps o)
      (executeIfAny host (callValue host room) o) m
  | some s, m, hm => (execute_settles hcalls hlimited s m hm).step fun _ => rfl
  | none, m, _ => (Settles.pure Flow.normal m).step fun _ => rfl

theorem executeAll_settles (hcalls : CallsSettle host room)
    (hlimited : host.settings.maxLoopIterations.toNat ≠ 0) : (ss : List Stmt) → (m : Machine) →
    Ready host room m →
    Settles (fun steps => Timed.executeAll host steps ss)
      (executeAll host (callValue host room) ss) m
  | [], m, _ => (Settles.pure Flow.normal m).step fun _ => rfl
  | s :: ss, m, hm => by
    refine Settles.step (Settles.followed (execute_settles hcalls hlimited s m hm)
      (execute_ends host (callValue_ends hm.detached room) s m hm.linked) hm
      fun flow after h _ _ => ?_) fun _ => rfl
    cases flow with
    | returning value => exact Settles.pure (Flow.returning value) after
    | normal => exact executeAll_settles hcalls hlimited ss after h

end

/-- Calls end by induction on how many of them may still nest. Without any to spare, the guard of
the settings refuses the call. -/
theorem callsSettle (hlimited : host.settings.maxLoopIterations.toNat ≠ 0) :
    (room : Nat) → CallsSettle host room
  | _, .native f, paren, arguments, m, _, _, _ => by
    rw [callValue_native]
    exact (Settles.ofEval _ m).step fun _ => rfl
  | 0, .function f, paren, arguments, m, hm, _, _ => by
    refine Settles.step ((Settles.ofEval _ m).bind fun _ after hok => ?_) fun _ => rfl
    obtain rfl := guardArity_eq_ok hok
    refine (Settles.ofEval _ after).bind fun _ after' hok => ?_
    have hdepth := (Eval.guardCall_eq_ok hok).2
    have hroom := hm.room
    omega
  | room + 1, .function f, paren, arguments, m, hm, hf, ha => by
    rw [callValue_function]
    refine Settles.step ((Settles.ofEval _ m).bind fun _ after hok => ?_) fun _ => rfl
    obtain rfl := guardArity_eq_ok hok
    refine (Settles.ofEval _ after).bind fun _ after' hok => ?_
    obtain ⟨rfl, _⟩ := Eval.guardCall_eq_ok hok
    -- The body comes from a frame and is no part of anything at hand: only `room` gets smaller.
    have hbody := executeAll_settles (callsSettle hlimited room) hlimited f.body _
      (hm.called.entering (f.linked_frame hf ha))
    exact hbody.inFrame.inCall.bind fun flow after _ => Settles.pure flow.value after
  | room, .nil, _, _, m, _, _, _ => by
    cases room <;> exact (Settles.ofEval _ m).step fun _ => rfl
  | room, .boolean _, _, _, m, _, _, _ => by
    cases room <;> exact (Settles.ofEval _ m).step fun _ => rfl
  | room, .number _, _, _, m, _, _, _ => by
    cases room <;> exact (Settles.ofEval _ m).step fun _ => rfl
  | room, .string _, _, _, m, _, _, _ => by
    cases room <;> exact (Settles.ofEval _ m).step fun _ => rfl

/-- How many calls the recursion provides for does not matter, once it provides for those that the
settings allow. -/
theorem callValue_eq_call (detached : host.natives.Detached)
    (hlimited : host.settings.maxLoopIterations.toNat ≠ 0) {m : Machine} (linked : m.Linked) (grounded : m.frames.Grounded) {calls : Nat}
    (hcalls : host.settings.maxCallDepth.toNat ≤ calls) {callee : Value} (paren : Token)
    {arguments : List Value} (hcallee : callee.Within m.frames.size)
    (harguments : ∀ v ∈ arguments, v.Within m.frames.size) :
    callValue host calls callee paren arguments m = host.call callee paren arguments m := by
  have hsettles : ∀ room, host.settings.maxCallDepth.toNat ≤ room →
      Settles (fun steps => Timed.call host steps callee paren arguments)
        (callValue host room callee paren arguments) m := by
    intro room hroom
    refine callsSettle hlimited room callee paren arguments m
      ⟨detached, linked, grounded, ?_⟩ hcallee harguments
    exact Nat.le_trans hroom (Nat.le_add_left _ _)
  exact (hsettles calls hcalls).unique (hsettles _ (Nat.le_refl _))

/-- If the rounds of loops are limited and the functions of the host keep off the heap, every run
comes to an end on every machine that refers only to frames that it has, in chains that end: with a
result or an error, namely that of the run without a clock. Whatever the host answers to checks of
the stack, and also if it never refuses, the calls that the settings allow are all that nest. -/
theorem run_settles_of_limited_loops (host : Host) (detached : host.natives.Detached)
    (limited : host.settings.maxLoopIterations ≠ 0) (m : Machine) (linked : m.Linked)
    (grounded : m.frames.Grounded) :
    (∀ program, Settles (fun steps => Timed.interpret host steps program)
      (host.interpret program) m) ∧
    (∀ s, Settles (fun steps => Timed.execute host steps s) (execute host host.call s) m) ∧
    (∀ e, Settles (fun steps => Timed.evaluate host steps e) (host.evaluate e) m) ∧
    (∀ callee paren arguments, callee.Within m.frames.size →
      (∀ v ∈ arguments, v.Within m.frames.size) →
      Settles (fun steps => Timed.call host steps callee paren arguments)
        (host.call callee paren arguments) m) := by
  have hlimited : host.settings.maxLoopIterations.toNat ≠ 0 :=
    fun h => limited (UInt64.toNat_inj.1 h)
  have hcalls := callsSettle hlimited host.settings.maxCallDepth.toNat
  have hm : Ready host host.settings.maxCallDepth.toNat m :=
    ⟨detached, linked, grounded, Nat.le_add_left _ _⟩
  have hwatched : Ready host host.settings.maxCallDepth.toNat { m with watched := true } :=
    ⟨detached, ⟨linked.scope, linked.frames⟩, grounded, Nat.le_add_left _ _⟩
  refine ⟨fun program => ?_, fun s => ?_, fun e => ?_, fun callee paren arguments hc ha => ?_⟩
  · exact (executeAll_settles hcalls hlimited program _ hwatched).asProgram
  · exact execute_settles hcalls hlimited s m hm
  · exact evaluate_settles hcalls e m hm
  · exact hcalls callee paren arguments m hm hc ha

/-- A global function that calls itself in a loop ends, with as many calls as can be allowed, on a
stack that never runs out. -/
theorem run_settles_self_call :
    let f : Token := ⟨.identifier, "f", none, ⟨1, 1⟩⟩
    let selfCall : Expr := .call (.identifier f) f []
    let body : Stmt := .whileLoop f (.literal (.boolean true)) (.expression selfCall)
    let settings : Settings := { maxLoopIterations := 1, maxCallDepth := 0xffffffffffffffff }
    let host : Host := ⟨settings, .builtins fun _ => none, fun _ _ => true⟩
    let m := (Machine.fresh (.empty none)).defineGlobal "f"
      ⟨.function ⟨0, f, [], [body], Machine.globals⟩, false⟩
    host.natives.Detached ∧ host.settings.maxLoopIterations ≠ 0 ∧ m.Linked ∧ m.frames.Grounded ∧
      Settles (fun steps => Timed.evaluate host steps selfCall) (host.evaluate selfCall) m := by
  intro f selfCall body settings host m
  have hdetached : host.natives.Detached := Natives.detached_builtins _
  have hlinked : m.Linked :=
    (Machine.linked_fresh (.empty none)).modifyFrames_define _ _ (Machine.linked_fresh _).scope
  have hgrounded : m.frames.Grounded := (Machine.grounded_fresh (.empty none)).define _ _ _
  exact ⟨hdetached, by decide, hlinked, hgrounded,
    (run_settles_of_limited_loops host hdetached (by decide) m hlinked hgrounded).2.2.1 selfCall⟩

theorem Timed.loop_unlimited {host : Host} (unlimited : host.settings.maxLoopIterations = 0)
    (keyword : Token) : (steps done : Nat) → (m : Machine) →
    Timed.loop host steps keyword (some (.literal (.boolean true))) (.block []) none done m = none
  | 0, _, _ => rfl
  | 1, _, _ => rfl
  | 2, _, _ => rfl
  | steps + 3, done, m => by
    have hguard : Timed.guardRounds host.settings keyword done = pure () :=
      if_neg fun h => h.1 (by simp [unlimited])
    have hrest := Timed.loop_unlimited unlimited keyword (steps + 2) (done + 1)
    rw [Timed.loop, hguard]
    exact hrest _

/-- The limit is what ends loops: without it, no number of steps is enough for this one where there
is stack for it. -/
theorem not_settles_unlimited {host : Host} (unlimited : host.settings.maxLoopIterations = 0)
    (keyword : Token) (run : Eval Flow) {m : Machine}
    (hstack : Eval.checkStack host keyword m = .ok () m.checked) :
    ¬ Settles (fun steps => Timed.execute host steps
      (.whileLoop keyword (.literal (.boolean true)) (.block []))) run m := by
  rintro ⟨enough, henough⟩
  have hsome := henough (enough + 1) (Nat.le_succ _)
  have hnone := Timed.loop_unlimited unlimited keyword enough 0 m.checked
  simp only [Timed.execute, Timed.ofEval, Bind.bind, hstack, hnone] at hsome
  cases hsome

end Scriptlet
