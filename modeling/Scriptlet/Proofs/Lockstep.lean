import Scriptlet.Proofs.Pairing

/-!
A program and the same program under other names run in lockstep. From machines that match, they end
with results that correspond or with the same error, in machines that match again. The proof follows
the tree, and for calls how many may still nest: the body of a function that was stored on the left
stands under its other name on the right.
-/

namespace Scriptlet

variable {p : Pairing}

open Pairing

/-- Whether calls of the same function with the same arguments end in the same way. -/
def Caller.Aligned (p : Pairing) (call call' : Caller) : Prop :=
  ∀ callee paren arguments, callee.Inside p → (∀ v ∈ arguments, v.Inside p) →
    p.Aligned p.Values (call callee paren arguments)
      (call' (callee.rename p.names) (p.names.token paren) (arguments.map (Value.rename p.names)))

variable {call call' : Caller}

theorem evaluate_group (host : Host) (call : Caller) (r : Renaming) (e : Expr) :
    evaluate host call (r.group e) = evaluate host call e := by
  unfold Renaming.group
  split
  · rw [evaluate]
  · rfl

mutual

theorem evaluate_aligned (hcall : call.Aligned p call') : (e : Expr) →
    p.Aligned p.Values (evaluate p.leftHost call e) (evaluate p.rightHost call' (e.rename p.names))
  | .literal value => by
    simp only [evaluate, Expr.rename]
    exact .pure (.plain (Value.plain_ofConstant value))
  | .identifier name => aligned_lookUp name
  | .grouping inner => by
    simp only [Expr.rename, evaluate_group, evaluate]
    exact evaluate_aligned hcall inner
  | .unary operator operand => by
    apply (aligned_checkStack operator).bind
    rintro _ _ _
    apply (evaluate_aligned hcall operand).bind
    rintro v _ ⟨rfl, _⟩
    rw [Value.applyUnary_rename]
    exact aligned_settle operator fun _ h => .plain (Value.plain_applyUnary h)
  | .binary left operator right => by
    apply (aligned_checkStack operator).bind
    rintro _ _ _
    apply (evaluate_aligned hcall left).bind
    rintro v _ ⟨rfl, hv⟩
    apply (evaluate_aligned hcall right).bind
    rintro w _ ⟨rfl, hw⟩
    rw [Value.applyBinary_rename operator (hv.equals_rename hw)]
    exact aligned_settle operator fun _ h => .plain (Value.plain_applyBinary h)
  | .logical left operator right => by
    apply (aligned_checkStack operator).bind
    rintro _ _ _
    apply (evaluate_aligned hcall left).bind
    rintro v _ ⟨rfl, hv⟩
    rw [Value.decides_rename]
    apply (aligned_settle (R := Eq) operator fun _ _ => rfl).bind
    rintro decided _ rfl
    cases decided with
    | true => exact .pure ⟨rfl, hv⟩
    | false => exact evaluate_aligned hcall right
  | .assignment name value => by
    apply (aligned_checkStack name).bind
    rintro _ _ _
    apply (evaluate_aligned hcall value).bind
    rintro v _ ⟨rfl, hv⟩
    apply (aligned_assign name hv).bind
    rintro _ _ _
    exact .pure ⟨rfl, hv⟩
  | .call callee paren arguments => by
    apply (aligned_checkStack paren).bind
    rintro _ _ _
    apply (evaluate_aligned hcall callee).bind
    rintro f _ ⟨rfl, hf⟩
    apply (evaluateAll_aligned hcall arguments).bind
    rintro vs _ ⟨rfl, hvs⟩
    exact hcall f paren vs hf hvs

theorem evaluateAll_aligned (hcall : call.Aligned p call') : (es : List Expr) →
    p.Aligned p.Lists (evaluateAll p.leftHost call es)
      (evaluateAll p.rightHost call' (Expr.renameAll p.names es))
  | [] => .pure ⟨rfl, by simp⟩
  | e :: es => by
    apply (evaluate_aligned hcall e).bind
    rintro v _ ⟨rfl, hv⟩
    apply (evaluateAll_aligned hcall es).bind
    rintro vs _ ⟨rfl, hvs⟩
    exact .pure ⟨rfl, List.forall_mem_cons.2 ⟨hv, hvs⟩⟩

end

theorem evaluateOr_aligned (hcall : call.Aligned p call') (absent : Value)
    (habsent : absent.Plain) : (o : Option Expr) →
    p.Aligned p.Values (evaluateOr p.leftHost call absent o)
      (evaluateOr p.rightHost call' absent (o.map (Expr.rename p.names)))
  | some e => evaluate_aligned hcall e
  | none => .pure (.plain habsent)

theorem runLoop_aligned (limit : Nat) (keyword : Token) {condition condition' : Eval Bool}
    {body body' : Eval Flow} {increment increment' : Eval Unit}
    (hcondition : p.Aligned Eq condition condition') (hbody : p.Aligned p.Flows body body')
    (hincrement : p.Aligned Eq increment increment') (rounds : Nat) :
    p.Aligned p.Flows (runLoop limit keyword condition body increment rounds)
      (runLoop limit (p.names.token keyword) condition' body' increment' rounds) := by
  induction rounds with
  | zero =>
    apply hcondition.bind
    rintro holds _ rfl
    cases holds with
    | true => exact .raise _ keyword
    | false => exact .pure ⟨rfl, trivial⟩
  | succ rounds ih =>
    apply hcondition.bind
    rintro holds _ rfl
    cases holds with
    | false => exact .pure ⟨rfl, trivial⟩
    | true =>
      apply hbody.bind
      rintro flow _ ⟨rfl, hflow⟩
      cases flow with
      | returning value => exact .pure ⟨rfl, hflow⟩
      | normal =>
        apply hincrement.bind
        exact fun _ _ _ => ih

mutual

theorem execute_aligned (hcall : call.Aligned p call') : (s : Stmt) →
    p.Aligned p.Flows (execute p.leftHost call s) (execute p.rightHost call' (s.rename p.names))
  | .expression value => by
    apply (evaluate_aligned hcall value).discard.bind
    rintro _ _ _
    exact .pure ⟨rfl, trivial⟩
  | .print keyword value => by
    apply (evaluate_aligned hcall value).bind
    rintro v _ ⟨rfl, _⟩
    rw [Value.text_rename]
    apply (aligned_write keyword _).bind
    rintro _ _ _
    exact .pure ⟨rfl, trivial⟩
  | .block body => by
    simp only [execute, Stmt.rename]
    exact (executeAll_aligned hcall body).inScope
  | .conditional condition thenBranch elseBranch => by
    rw [Stmt.rename, execute_conditional, execute_conditional]
    apply (evaluate_aligned hcall condition).bind
    rintro v _ ⟨rfl, _⟩
    rw [Value.isTruthy_rename]
    cases v.isTruthy with
    | true => exact execute_aligned hcall thenBranch
    | false => exact executeIfAny_aligned hcall elseBranch
  | .whileLoop keyword condition body => by
    have hcondition := (evaluate_aligned hcall condition).map (S := Eq) (f := Value.isTruthy)
      fun v _ h => by rw [h.1, Value.isTruthy_rename]
    simp only [execute, Stmt.rename, p.serves.settings]
    apply (aligned_checkStack keyword).bind
    rintro _ _ _
    exact runLoop_aligned _ keyword hcondition (execute_aligned hcall body) (.pure rfl) _
  | .forLoop keyword initializer condition increment body => by
    have hcondition := (evaluateOr_aligned hcall (.boolean true) trivial condition).map
      (S := Eq) (f := Value.isTruthy) fun v _ h => by rw [h.1, Value.isTruthy_rename]
    have hincrement := (evaluateOr_aligned hcall .nil trivial increment).discard
    rw [Stmt.rename, execute_forLoop, execute_forLoop, p.serves.settings]
    apply (aligned_checkStack keyword).bind
    rintro _ _ _
    apply Aligned.inScope
    apply (executeIfAny_aligned hcall initializer).discard.bind
    rintro _ _ _
    exact runLoop_aligned _ keyword hcondition (execute_aligned hcall body) hincrement _
  | .variableDecl name initializer constant => by
    apply (aligned_guardBuiltin name).bind
    rintro _ _ _
    apply (evaluateOr_aligned hcall .nil trivial initializer).bind
    rintro v _ ⟨rfl, hv⟩
    apply (aligned_define name hv constant).bind
    rintro _ _ _
    exact .pure ⟨rfl, trivial⟩
  | .functionDecl name parameters body => by
    apply (aligned_guardBuiltin name).bind
    rintro _ _ _
    apply (aligned_makeClosure name parameters body).bind
    rintro v _ ⟨rfl, hv⟩
    apply (aligned_define name hv false).bind
    rintro _ _ _
    exact .pure ⟨rfl, trivial⟩
  | .returnStmt _ value => by
    simp only [execute, Stmt.rename]
    exact (evaluateOr_aligned hcall .nil trivial value).map
      fun v _ h => ⟨congrArg Flow.returning h.1, h.2⟩

theorem executeIfAny_aligned (hcall : call.Aligned p call') :
    (o : Option Stmt) → p.Aligned p.Flows (executeIfAny p.leftHost call o)
      (executeIfAny p.rightHost call' (Stmt.renameIfAny p.names o))
  | some s => execute_aligned hcall s
  | none => .pure ⟨rfl, trivial⟩

theorem executeAll_aligned (hcall : call.Aligned p call') :
    (ss : List Stmt) → p.Aligned p.Flows (executeAll p.leftHost call ss)
      (executeAll p.rightHost call' (Stmt.renameAll p.names ss))
  | [] => .pure ⟨rfl, trivial⟩
  | s :: ss => by
    apply (execute_aligned hcall s).bind
    rintro flow _ ⟨rfl, hflow⟩
    cases flow with
    | returning value => exact .pure ⟨rfl, hflow⟩
    | normal => exact executeAll_aligned hcall ss

end

theorem Flow.value_rename (r : Renaming) (flow : Flow) :
    (flow.rename r).value = flow.value.rename r := by
  cases flow <;> rfl

theorem Flow.Inside.value {flow : Flow} (h : flow.Inside p) : flow.value.Inside p := by
  cases flow with
  | normal => trivial
  | returning value => exact h

theorem callValue_aligned (p : Pairing) : (calls : Nat) →
    (callValue p.leftHost calls).Aligned p (callValue p.rightHost calls)
  | calls, .native f, paren, arguments, hf, ha => by
    rw [Value.rename, callValue_native, callValue_native]
    apply (aligned_guardArity paren _ arguments).bind
    rintro _ _ _
    apply (aligned_guardCall paren).bind
    rintro _ _ _
    exact (aligned_applyNative paren f.code ha).inCall
  | 0, .function f, paren, arguments, _, _ => by
    rw [Value.rename, callValue, callValue, Closure.rename, List.length_map]
    apply (aligned_guardArity paren _ arguments).bind
    rintro _ _ _
    apply (aligned_guardCall paren).bind
    rintro _ _ _
    exact .raise _ paren
  | calls + 1, .function f, paren, arguments, hf, ha => by
    have hbody := executeAll_aligned (callValue_aligned p calls) f.body
    rw [Value.rename, callValue_function, callValue_function, f.frame_rename]
    simp only [Closure.rename, List.length_map]
    apply (aligned_guardArity paren _ arguments).bind
    rintro _ _ _
    apply (aligned_guardCall paren).bind
    rintro _ _ _
    apply (hbody.inFrame (f.inside_frame hf.1 ha)).inCall.bind
    rintro flow _ ⟨rfl, hflow⟩
    exact .pure ⟨flow.value_rename _, hflow.value⟩
  | calls, .nil, paren, _, _, _ => by cases calls <;> exact .raise _ paren
  | calls, .boolean _, paren, _, _, _ => by cases calls <;> exact .raise _ paren
  | calls, .number _, paren, _, _, _ => by cases calls <;> exact .raise _ paren
  | calls, .string _, paren, _, _, _ => by cases calls <;> exact .raise _ paren

end Scriptlet
