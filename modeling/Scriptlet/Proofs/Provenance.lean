import Scriptlet.Proofs.Plans

/-!
Where the values of a run come from. Each step of a plan hands on only values of the machine, those
that refer to frames it has, if it was given such values and the functions of the host are detached;
so all that a plan binds, calls or returns refers to frames that are there by then. This is a matter
of the plan alone: of the machine it needs only how many frames there are.
-/

namespace Scriptlet

/-- Whether what a step binds or hands to the host refers to one of the first `size` frames. -/
def Step.UsesWithin (size : Nat) {α : Type} : Step α → Prop
  | .assign _ value => value.Within size
  | .define _ binding => binding.value.Within size
  | .applyNative _ _ arguments => ∀ v ∈ arguments, v.Within size
  | _ => True

/-- What is known of the result of a step when there are `size` frames. -/
def Step.Gives (size : Nat) {α : Type} : Step α → α → Prop
  | .settle _ result, x => result = .ok x
  | .lookUp _, value => value.Within size
  | .makeClosure _ _ _, value => value.Within size
  | .applyNative _ _ _, value => value.Within size
  | _, _ => True

theorem Step.size_after {host : Host} (detached : host.natives.Detached) {α : Type} (s : Step α)
    (m : Machine) :
    ((s.run host).after m).frames.size = m.frames.size := by
  generalize hafter : (s.run host).after m = after
  cases Step.effect hafter with
  | assigned target => exact Frames.size_define _ _
  | defined m name binding => exact Frames.size_define _ _
  | aside frames => rw [frames detached]

theorem Eval.Ends.result {α : Type} {run : Eval α} {Q : α → Nat → Prop} {m after : Machine} {x : α}
    (h : run.Ends Q m) (hrun : run m = .ok x after) : Q x after.frames.size := by
  unfold Eval.Ends at h
  rw [hrun] at h
  exact h.2

theorem Step.gives {host : Host} (detached : host.natives.Detached) {α : Type} {s : Step α}
    {m after : Machine} {x : α} (hm : m.Linked) (hs : s.UsesWithin m.frames.size)
    (hrun : s.run host m = .ok x after) : s.Gives after.frames.size x := by
  cases s with
  | settle token result =>
    cases result with
    | ok y =>
      cases hrun
      rfl
    | error fault => cases hrun
  | lookUp name => exact (Eval.ends_lookUp hm name).result hrun
  | makeClosure name parameters body =>
    exact (Eval.ends_makeClosure hm name parameters body).result hrun
  | applyNative paren code arguments =>
    exact (Eval.ends_applyNative detached paren code hs).result hrun
  | _ => trivial

/-- Whether a frame is inside one of the first `size` frames and refers only to these. -/
structure Frame.Inner (size : Nat) (frame : Frame) : Prop where
  enclosed : frame.enclosing.isSome
  linked : frame.Linked size

theorem Closure.inner_frame {f : Closure} {size : Nat} (hf : f.scope < size)
    {arguments : List Value} (ha : ∀ v ∈ arguments, v.Within size) :
    (f.frame arguments).Inner size := by
  refine ⟨?_, f.linked_frame hf ha⟩
  unfold Closure.frame
  rw [Frame.enclosing_defineAll]
  rfl

namespace Plan

/-- Whether a plan that starts when there are `size` frames uses only frames that are there, and a
result of it has a property, which may depend on how many frames there are then. -/
inductive Sound : {α : Type} → Plan α → (α → Nat → Prop) → Nat → Prop where
  | done {α : Type} {Q : α → Nat → Prop} {size : Nat} {x : α} (h : Q x size) :
      Sound (.done x) Q size
  | step {α β : Type} {Q : α → Nat → Prop} {size : Nat} {s : Step β} {next : β → Plan α}
      (uses : s.UsesWithin size) (rest : ∀ x, s.Gives size x → Sound (next x) Q size) :
      Sound (.step s next) Q size
  | inFrame {α β : Type} {Q : α → Nat → Prop} {P : β → Nat → Prop} {size : Nat}
      {frame : FrameId → Frame} {body : Plan β} {next : β → Plan α}
      (inner : ∀ scope < size, (frame scope).Inner size) (inside : Sound body P (size + 1))
      (rest : ∀ x more, size < more → P x more → Sound (next x) Q more) :
      Sound (.inFrame frame body next) Q size
  | call {α β : Type} {Q : α → Nat → Prop} {P : β → Nat → Prop} {size : Nat} {paren : Token}
      {body : Plan β} {next : β → Plan α} (inside : Sound body P size)
      (rest : ∀ x more, size ≤ more → P x more → Sound (next x) Q more) :
      Sound (.call paren body next) Q size

namespace Sound

variable {α β : Type} {Q : α → Nat → Prop} {R : β → Nat → Prop} {size : Nat}

theorem bind {plan : Plan α} {rest : α → Plan β} (h : plan.Sound Q size)
    (k : ∀ x more, size ≤ more → Q x more → (rest x).Sound R more) :
    (plan >>= rest).Sound R size := by
  change (plan.bind rest).Sound R size
  induction h with
  | done h => exact k _ _ (Nat.le_refl _) h
  | step uses _ ih => exact .step uses fun x hx => ih x hx k
  | inFrame inner inside _ _ ih =>
    refine .inFrame inner inside fun x more hlt hx => ?_
    exact ih x more hlt hx fun y most hle => k y most (Nat.le_trans (Nat.le_of_lt hlt) hle)
  | call inside _ _ ih =>
    refine .call inside fun x more hle hx => ?_
    exact ih x more hle hx fun y most hmost => k y most (Nat.le_trans hle hmost)

theorem map {plan : Plan α} (h : plan.Sound Q size) {f : α → β}
    (hR : ∀ x more, Q x more → R (f x) more) : (f <$> plan).Sound R size :=
  h.bind fun x more _ hx => .done (hR x more hx)

theorem discard {plan : Plan α} (h : plan.Sound Q size) :
    (discard plan).Sound (fun _ _ => True) size :=
  h.map fun _ _ _ => trivial

theorem within {frame : FrameId → Frame} {body : Plan α} (inside : body.Sound Q (size + 1))
    (inner : ∀ scope < size, (frame scope).Inner size) :
    (within frame body).Sound Q size :=
  .inFrame inner inside fun _ _ _ hx => .done hx

theorem inScope {body : Plan α} (inside : body.Sound Q (size + 1)) :
    (inScope body).Sound Q size := by
  refine inside.within fun scope hscope => ⟨rfl, ?_, ?_⟩
  · intro next hnext
    cases hnext
    exact hscope
  · intro entry hentry
    cases hentry

theorem called {paren : Token} {body : Plan α} (inside : body.Sound Q size) :
    (called paren body).Sound Q size :=
  .call inside fun _ _ _ hx => .done hx

end Sound

section Steps

variable {α : Type} {Q : α → Nat → Prop} {size : Nat}

theorem sound_take {s : Step α} (hs : s.UsesWithin size) (h : ∀ x, s.Gives size x → Q x size) :
    (take s).Sound Q size :=
  .step hs fun x hx => .done (h x hx)

theorem sound_raise (fault : Fault) (token : Token) : (raise fault token : Plan α).Sound Q size :=
  .step trivial fun _ hx => by cases hx

theorem sound_after {s : Step Unit} {rest : Plan α} (hs : s.UsesWithin size) (h : rest.Sound Q size) :
    (do take s; rest : Plan α).Sound Q size :=
  .step hs fun _ _ => h

end Steps

/-- Whether calls of values of the machine, with such values, are sound and return such a value. -/
def Caller.Sound (call : Caller) : Prop :=
  ∀ callee paren arguments size, callee.Within size → (∀ v ∈ arguments, v.Within size) →
    (call callee paren arguments).Sound (fun v size => v.Within size) size

variable {call : Caller}

mutual

theorem sound_evaluate (hcall : call.Sound) : (e : Expr) → (size : Nat) →
    (evaluate call e).Sound (fun v size => v.Within size) size
  | .literal value, size => .done ((Value.plain_ofConstant value).within size)
  | .identifier name, _ => sound_take trivial fun _ hv => hv
  | .grouping inner, size => by
    simpa [evaluate] using sound_evaluate hcall inner size
  | .unary operator operand, size => by
    refine sound_after trivial ?_
    refine (sound_evaluate hcall operand size).bind fun value more _ _ => ?_
    exact sound_take trivial fun _ h => (Value.plain_applyUnary h).within more
  | .binary left operator right, size => by
    refine sound_after trivial ?_
    refine (sound_evaluate hcall left size).bind fun l more₁ _ _ => ?_
    refine (sound_evaluate hcall right more₁).bind fun r more₂ _ _ => ?_
    exact sound_take trivial fun _ h => (Value.plain_applyBinary h).within more₂
  | .logical left operator right, size => by
    refine sound_after trivial ?_
    refine (sound_evaluate hcall left size).bind fun l more₁ _ hl => ?_
    have hdecides : (take (.settle operator (Value.decides operator l))).Sound
        (fun _ size => l.Within size) more₁ := sound_take trivial fun _ _ => hl
    refine hdecides.bind fun decided more₂ _ hl => ?_
    cases decided with
    | true => exact .done hl
    | false => exact sound_evaluate hcall right more₂
  | .assignment name value, size => by
    refine sound_after trivial ?_
    refine (sound_evaluate hcall value size).bind fun v more₁ _ hv => ?_
    exact sound_after hv (.done hv)
  | .call callee paren arguments, size => by
    refine sound_after trivial ?_
    refine (sound_evaluate hcall callee size).bind fun c more₁ _ hc => ?_
    refine (sound_evaluateAll hcall arguments more₁).bind fun vs more₂ hle hvs => ?_
    exact hcall c paren vs more₂ (hc.mono hle) hvs

theorem sound_evaluateAll (hcall : call.Sound) : (es : List Expr) → (size : Nat) →
    (evaluateAll call es).Sound (fun vs size => ∀ v ∈ vs, v.Within size) size
  | [], _ => .done (by simp)
  | e :: es, size => by
    refine (sound_evaluate hcall e size).bind fun v more₁ _ hv => ?_
    refine (sound_evaluateAll hcall es more₁).bind fun vs more₂ hle hvs => ?_
    exact .done (List.forall_mem_cons.2 ⟨hv.mono hle, hvs⟩)

end

theorem sound_evaluateOr (hcall : call.Sound) (absent : Value)
    (habsent : ∀ size, absent.Within size) : (o : Option Expr) → (size : Nat) →
    (evaluateOr call absent o).Sound (fun v size => v.Within size) size
  | some e, size => sound_evaluate hcall e size
  | none, size => .done (habsent size)

theorem sound_runLoop (limit : Nat) (keyword : Token) {condition : Plan Bool} {body : Plan Flow}
    {increment : Plan Unit} (hcondition : ∀ size, condition.Sound (fun _ _ => True) size)
    (hbody : ∀ size, body.Sound (fun flow size => flow.Within size) size)
    (hincrement : ∀ size, increment.Sound (fun _ _ => True) size) : (rounds size : Nat) →
    (runLoop limit keyword condition body increment rounds).Sound
      (fun flow size => flow.Within size) size
  | 0, size => by
    refine (hcondition size).bind fun holds more _ _ => ?_
    cases holds with
    | true => exact sound_raise _ _
    | false => exact .done trivial
  | rounds + 1, size => by
    refine (hcondition size).bind fun holds more₁ _ _ => ?_
    cases holds with
    | false => exact .done trivial
    | true =>
      refine (hbody more₁).bind fun flow more₂ _ hflow => ?_
      cases flow with
      | returning value => exact .done hflow
      | normal =>
        refine (hincrement more₂).bind fun _ more₃ _ _ => ?_
        exact sound_runLoop limit keyword hcondition hbody hincrement rounds more₃

mutual

theorem sound_execute (settings : Settings) (hcall : call.Sound) : (s : Stmt) → (size : Nat) →
    (execute settings call s).Sound (fun flow size => flow.Within size) size
  | .expression value, size =>
    (sound_evaluate hcall value size).discard.bind fun _ _ _ _ => .done trivial
  | .print keyword value, size => by
    refine (sound_evaluate hcall value size).bind fun v more _ _ => ?_
    exact sound_after trivial (.done trivial)
  | .block body, size => by
    simp only [execute]
    exact (sound_executeAll settings hcall body (size + 1)).inScope
  | .conditional condition thenBranch elseBranch, size => by
    simp only [execute]
    refine (sound_evaluate hcall condition size).bind fun v more _ _ => ?_
    cases v.isTruthy with
    | true => exact sound_execute settings hcall thenBranch more
    | false => exact sound_executeIfAny settings hcall elseBranch more
  | .whileLoop keyword condition body, size => by
    simp only [execute]
    refine sound_after trivial ?_
    refine sound_runLoop _ keyword (fun size => ?_) (sound_execute settings hcall body)
      (fun _ => .done trivial) _ size
    exact (sound_evaluate hcall condition size).map fun _ _ _ => trivial
  | .forLoop keyword initializer condition increment body, size => by
    have hloop := sound_runLoop settings.roundLimit keyword
      (fun size => (sound_evaluateOr hcall (.boolean true) (fun _ => trivial) condition size).map
        (f := Value.isTruthy) fun _ _ _ => trivial)
      (sound_execute settings hcall body)
      (fun size => (sound_evaluateOr hcall .nil (fun _ => trivial) increment size).discard)
    simp only [execute]
    refine sound_after trivial ?_
    apply Sound.inScope
    refine (sound_executeIfAny settings hcall initializer (size + 1)).discard.bind
      fun _ more _ _ => ?_
    exact hloop _ more
  | .variableDecl name initializer constant, size => by
    refine sound_after trivial ?_
    refine (sound_evaluateOr hcall .nil (fun _ => trivial) initializer size).bind
      fun v more _ hv => ?_
    exact sound_after hv (.done trivial)
  | .functionDecl name parameters body, size => by
    refine sound_after trivial ?_
    have hmake : (take (.makeClosure name parameters body)).Sound
        (fun v size => v.Within size) size := sound_take trivial fun _ hv => hv
    exact hmake.bind fun v more _ hv => sound_after hv (.done trivial)
  | .returnStmt _ value, size => by
    simp only [execute]
    exact (sound_evaluateOr hcall .nil (fun _ => trivial) value size).map fun _ _ hv => hv

theorem sound_executeIfAny (settings : Settings) (hcall : call.Sound) : (o : Option Stmt) →
    (size : Nat) → (executeIfAny settings call o).Sound (fun flow size => flow.Within size) size
  | some s, size => sound_execute settings hcall s size
  | none, _ => .done trivial

theorem sound_executeAll (settings : Settings) (hcall : call.Sound) : (ss : List Stmt) →
    (size : Nat) → (executeAll settings call ss).Sound (fun flow size => flow.Within size) size
  | [], _ => .done trivial
  | s :: ss, size => by
    refine (sound_execute settings hcall s size).bind fun flow more _ hflow => ?_
    cases flow with
    | returning value => exact .done hflow
    | normal => exact sound_executeAll settings hcall ss more

end

theorem sound_guardArity (paren : Token) (expected : Nat) (arguments : List Value) (size : Nat) :
    (guardArity paren expected arguments).Sound (fun _ _ => True) size := by
  unfold guardArity
  by_cases hcount : arguments.length = expected
  · rw [if_pos hcount]
    exact .done trivial
  · rw [if_neg hcount]
    exact sound_raise _ _

theorem sound_callValue (settings : Settings) : (calls : Nat) → (callValue settings calls).Sound
  | calls, .native f, paren, arguments, size, _, ha => by
    simp only [callValue]
    refine (sound_guardArity paren _ arguments size).bind fun _ more hle _ => ?_
    have happly : (take (.applyNative paren f.code arguments)).Sound
        (fun v size => v.Within size) more :=
      sound_take (fun v hv => (ha v hv).mono hle) fun _ hv => hv
    exact happly.called
  | 0, .function f, paren, arguments, size, _, _ => by
    refine (sound_guardArity paren _ arguments size).bind fun _ more _ _ => ?_
    exact sound_after trivial (sound_raise _ _)
  | calls + 1, .function f, paren, arguments, size, hf, ha => by
    refine (sound_guardArity paren _ arguments size).bind fun _ more hle _ => ?_
    have hinner : (f.frame arguments).Inner more :=
      f.inner_frame (Nat.lt_of_lt_of_le hf hle) fun v hv => (ha v hv).mono hle
    have hbody := sound_executeAll settings (sound_callValue settings calls) f.body (more + 1)
    exact (hbody.within fun _ _ => hinner).called.bind fun flow _ _ hflow => .done hflow.value
  | calls, .nil, _, _, _, _, _ => by cases calls <;> exact sound_raise _ _
  | calls, .boolean _, _, _, _, _, _ => by cases calls <;> exact sound_raise _ _
  | calls, .number _, _, _, _, _, _ => by cases calls <;> exact sound_raise _ _
  | calls, .string _, _, _, _, _, _ => by cases calls <;> exact sound_raise _ _

end Plan

end Scriptlet
