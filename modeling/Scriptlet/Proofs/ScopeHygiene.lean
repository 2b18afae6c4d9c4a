import Scriptlet.Proofs.Restoration

/-!
What a run can do to the frames that were there before it. A declaration binds a name in the
innermost scope and nowhere else; an assignment goes to the nearest binding of its name and stops
there, also if that is constant. So a part that runs in a frame of its own declares nothing outside
it, and an expression, a block, a loop with its own variable or a call changes at most the values of
bindings that are not constant. This needs nothing to be known about the machine at the start, and
of the functions of the host only that they keep off the heap.
-/

namespace Scriptlet

/-- Whether a binding is as constant as it was, and unchanged if it is constant. -/
structure Binding.Kept (old new : Binding) : Prop where
  constant : new.constant = old.constant
  value : old.constant = true → new.value = old.value

/-- Whether a frame is inside the same frame and, the free names apart, binds the same names to
bindings that are kept. -/
structure Frame.Kept (free : String → Prop) (old new : Frame) : Prop where
  enclosing : new.enclosing = old.enclosing
  bindings : ∀ name, ¬free name → Option.Rel Binding.Kept (old.binding? name) (new.binding? name)

/-- Whether all frames are there that were there, and kept; which names are free depends on the
frame. -/
def Frames.Kept (free : FrameId → String → Prop) (old new : Frames) : Prop :=
  old.Persist (fun id => Frame.Kept (free id)) new

theorem Binding.Kept.refl (binding : Binding) : binding.Kept binding := ⟨rfl, fun _ => rfl⟩

theorem Binding.Kept.trans {a b c : Binding} (h : a.Kept b) (k : b.Kept c) : a.Kept c := by
  refine ⟨k.constant.trans h.constant, fun ha => ?_⟩
  have hb : b.constant = true := h.constant.trans ha
  exact (k.value hb).trans (h.value ha)

namespace Frame

variable {free : String → Prop}

theorem Kept.refl (frame : Frame) : frame.Kept free frame := by
  refine ⟨rfl, fun name _ => ?_⟩
  cases frame.binding? name with
  | none => exact .none
  | some binding => exact .some (.refl binding)

theorem Kept.trans {a b c : Frame} (h : a.Kept free b) (k : b.Kept free c) : a.Kept free c := by
  refine ⟨k.enclosing.trans h.enclosing, fun name hname => ?_⟩
  have hfirst := h.bindings name hname
  have hsecond := k.bindings name hname
  generalize a.binding? name = first at hfirst ⊢
  generalize b.binding? name = second at hfirst hsecond
  generalize c.binding? name = third at hsecond ⊢
  cases hfirst with
  | none =>
    cases hsecond with
    | none => exact .none
  | some hfirst =>
    cases hsecond with
    | some hsecond => exact .some (hfirst.trans hsecond)

theorem kept_define_free (frame : Frame) {name : String} (hname : free name) (binding : Binding) :
    frame.Kept free (frame.define name binding) := by
  refine ⟨rfl, fun other hother => ?_⟩
  have hne : other ≠ name := by
    intro h
    exact hother (h ▸ hname)
  rw [binding?_define, if_neg hne]
  exact (Kept.refl frame).bindings other hother

theorem kept_define_bound (frame : Frame) {name : String} {binding : Binding}
    (hbound : frame.binding? name = some binding) (hconstant : binding.constant = false)
    (value : Value) : frame.Kept free (frame.define name ⟨value, false⟩) := by
  refine ⟨rfl, fun other hother => ?_⟩
  rw [binding?_define]
  by_cases h : other = name
  · rw [if_pos h, h, hbound]
    refine .some ⟨hconstant.symm, fun htrue => ?_⟩
    rw [hconstant] at htrue
    cases htrue
  · rw [if_neg h]
    exact (Kept.refl frame).bindings other hother

end Frame

namespace Frames

variable {free : FrameId → String → Prop} {frames : Frames}

theorem Kept.refl (frames : Frames) : frames.Kept free frames :=
  Persist.refl (fun _ => .refl) frames

theorem Kept.trans {a b c : Frames} (h : a.Kept free b) (k : b.Kept free c) : a.Kept free c :=
  Persist.trans .trans h k

theorem kept_push (new : Frame) : frames.Kept free (frames.push new) :=
  persist_push (fun _ => .refl) new

/-- Names that are free only in frames that were not there are not free at all. -/
theorem Kept.of_new {other : FrameId → String → Prop} {later : Frames} (h : frames.Kept other later)
    (hnew : ∀ id < frames.size, ∀ name, ¬other id name) : frames.Kept free later := by
  intro id frame hframe
  obtain ⟨kept, hkept, hrest⟩ := h id frame hframe
  refine ⟨kept, hkept, hrest.enclosing, fun name _ => ?_⟩
  exact hrest.bindings name (hnew id (frame?_eq_some_lt hframe) name)

theorem bound_of_nearestWithin {name : String} : ∀ {steps id owner binding},
    frames.nearestWithin name steps id = some (owner, binding) →
      ∃ frame, frames.frame? owner = some frame ∧ frame.binding? name = some binding
  | 0, _, _, _, h => by cases h
  | steps + 1, id, owner, binding, h => by
    cases hf : frames.frame? id with
    | none => simp [nearestWithin, hf] at h
    | some frame =>
      rw [nearestWithin_succ name steps hf] at h
      cases hb : frame.binding? name with
      | some found =>
        rw [hb] at h
        cases h
        exact ⟨frame, hf, hb⟩
      | none =>
        rw [hb] at h
        obtain ⟨next, _, hnext⟩ := Option.bind_eq_some_iff.1 h
        exact bound_of_nearestWithin hnext

theorem bound_of_target {id owner : FrameId} {name : String}
    (h : frames.target id name = .ok owner) : ∃ frame binding, frames.frame? owner = some frame ∧
      frame.binding? name = some binding ∧ binding.constant = false := by
  unfold target at h
  cases hn : frames.nearest? id name with
  | none =>
    rw [hn] at h
    cases h
  | some found =>
    obtain ⟨place, binding⟩ := found
    simp only [hn] at h
    cases hc : binding.constant with
    | true =>
      rw [hc] at h
      cases h
    | false =>
      simp only [hc, Bool.false_eq_true, if_false, Except.ok.injEq] at h
      obtain ⟨frame, hframe, hbinding⟩ := bound_of_nearestWithin hn
      exact ⟨frame, binding, h ▸ hframe, hbinding, hc⟩

theorem kept_assigned {id owner : FrameId} {name : String}
    (h : frames.target id name = .ok owner) (value : Value) :
    frames.Kept free (frames.define owner name ⟨value, false⟩) := by
  obtain ⟨found, binding, hfound, hbound, hconstant⟩ := bound_of_target h
  refine persist_define (fun _ => .refl) fun frame hframe => ?_
  obtain rfl := Option.some.inj (hfound.symm.trans hframe)
  exact found.kept_define_bound hbound hconstant value

end Frames

/-- Whether the scope is what it was and all frames are kept, but for the free names in it. -/
structure Machine.Keeps (free : String → Prop) (m after : Machine) : Prop where
  scope : after.scope = m.scope
  frames : m.frames.Kept (fun id name => id = m.scope ∧ free name) after.frames

namespace Machine.Keeps

variable {free : String → Prop}

theorem refl (m : Machine) : m.Keeps free m := ⟨rfl, .refl m.frames⟩

theorem trans {a b c : Machine} (h : a.Keeps free b) (k : b.Keeps free c) : a.Keeps free c := by
  refine ⟨k.scope.trans h.scope, h.frames.trans ?_⟩
  have hframes := k.frames
  rwa [h.scope] at hframes

end Machine.Keeps

/-- Whether a step declares no other names. -/
def Step.DeclaresOnly (free : String → Prop) {α : Type} : Step α → Prop
  | .define name _ => free name.lexeme
  | _ => True

theorem Step.keeps {host : Host} (detached : host.natives.Detached) {free : String → Prop}
    {α : Type} {s : Step α} (h : s.DeclaresOnly free) (m : Machine) : m.Keeps free ((s.run host).after m) := by
  generalize hafter : (s.run host).after m = after
  cases Step.effect hafter with
  | @assigned m name value owner target => exact ⟨rfl, Frames.kept_assigned target value⟩
  | defined m name binding =>
    refine ⟨rfl, Frames.persist_define (fun _ => .refl) fun frame _ => ?_⟩
    exact frame.kept_define_free ⟨rfl, h⟩ binding
  | aside frames scope _ _ =>
    refine ⟨scope, ?_⟩
    rw [frames detached]
    exact .refl m.frames

namespace Plan

/-- Whether a plan declares no other names in the scope where it starts. What is planned inside a
frame of its own may declare anything. -/
def DeclaresOnly (free : String → Prop) {α : Type} : Plan α → Prop
  | .done _ => True
  | .step s next => s.DeclaresOnly free ∧ ∀ x, (next x).DeclaresOnly free
  | .inFrame _ _ next => ∀ x, (next x).DeclaresOnly free
  | .call _ body next => body.DeclaresOnly free ∧ ∀ x, (next x).DeclaresOnly free

variable {free : String → Prop} {host : Host} {α β : Type}

theorem declaresOnly_anything (plan : Plan α) : plan.DeclaresOnly fun _ => True := by
  induction plan with
  | done x => trivial
  | step s next ih =>
    refine ⟨?_, ih⟩
    cases s <;> trivial
  | inFrame frame body next _ ih => exact ih
  | call paren body next hbody ih => exact ⟨hbody, ih⟩

/-- The frame of a part is new, so nothing in it is free in frames that were there. -/
theorem keeps_runInFrame (frame : FrameId → Frame) {body : Eval α} {m : Machine}
    (h : (m.entering (frame m.scope)).Keeps (fun _ => True)
      (body.after (m.entering (frame m.scope)))) :
    m.Keeps free ((runInFrame frame body).after m) := by
  rw [after_runInFrame]
  refine ⟨rfl, ?_⟩
  have hnew : (m.entering (frame m.scope)).scope = m.frames.size := Frames.newest_push _ _
  have hkept := (Frames.kept_push (frame m.scope)).trans h.frames
  apply hkept.of_new
  intro id hid name hfree
  exact absurd (hfree.1.trans hnew) (Nat.ne_of_lt hid)

theorem keeps_runCall (detached : host.natives.Detached) (paren : Token) {body : Eval α} {m : Machine}
    (h : ∀ m, Machine.Keeps free m (body.after m)) :
    m.Keeps free ((runCall host paren body).after m) := by
  apply Eval.after_bind (Machine.Keeps free) .trans
  · exact Step.keeps detached (s := .guardCall paren) trivial m
  · intro _ m
    rw [Eval.after_inCall]
    have hbody := h { m with depth := m.depth + 1 }
    exact ⟨hbody.scope, hbody.frames⟩

theorem keeps (detached : host.natives.Detached) {plan : Plan α} (h : plan.DeclaresOnly free)
    (m : Machine) :
    m.Keeps free ((plan.run host).after m) := by
  induction plan generalizing free m with
  | done x => exact .refl m
  | step s next ih =>
    exact Eval.after_bind (Machine.Keeps free) .trans (Step.keeps detached h.1 m)
      fun x => ih x (h.2 x)
  | inFrame frame body next hbody ih =>
    -- the scope of the part is a frame that was not there, so it may declare anything
    have hinside := hbody body.declaresOnly_anything (m.entering (frame m.scope))
    exact Eval.after_bind (Machine.Keeps free) .trans (keeps_runInFrame frame hinside)
      fun x => ih x (h x)
  | call paren body next hbody ih =>
    exact Eval.after_bind (Machine.Keeps free) .trans (keeps_runCall detached paren (hbody h.1))
      fun x => ih x (h.2 x)

namespace DeclaresOnly

theorem bind {plan : Plan α} {rest : α → Plan β} (h : plan.DeclaresOnly free)
    (k : ∀ x, (rest x).DeclaresOnly free) : (plan >>= rest).DeclaresOnly free := by
  change (plan.bind rest).DeclaresOnly free
  induction plan with
  | done x => exact k x
  | step s next ih => exact ⟨h.1, fun x => ih x (h.2 x) k⟩
  | inFrame frame body next _ ih => exact fun x => ih x (h x) k
  | call paren body next _ ih => exact ⟨h.1, fun x => ih x (h.2 x) k⟩

theorem map {plan : Plan α} (h : plan.DeclaresOnly free) (f : α → β) :
    (f <$> plan).DeclaresOnly free :=
  h.bind fun _ => trivial

theorem discard {plan : Plan α} (h : plan.DeclaresOnly free) :
    (discard plan).DeclaresOnly free := h.map _

theorem take {s : Step α} (h : s.DeclaresOnly free) : (take s).DeclaresOnly free :=
  ⟨h, fun _ => trivial⟩

end DeclaresOnly

theorem declaresOnly_after {s : Step β} {rest : β → Plan α} (hs : s.DeclaresOnly free)
    (h : ∀ x, (rest x).DeclaresOnly free) : (take s >>= rest).DeclaresOnly free := ⟨hs, h⟩

theorem declaresOnly_raise (fault : Fault) (token : Token) :
    (raise fault token : Plan α).DeclaresOnly free := ⟨trivial, fun _ => trivial⟩

theorem declaresOnly_inScope (body : Plan α) : (inScope body).DeclaresOnly free := fun _ => trivial

theorem declaresOnly_guardArity (paren : Token) (expected : Nat) (arguments : List Value) :
    (guardArity paren expected arguments).DeclaresOnly free := by
  unfold guardArity
  by_cases h : arguments.length = expected
  · rw [if_pos h]
    trivial
  · rw [if_neg h]
    exact declaresOnly_raise _ _

/-- A call declares nothing where it is made: the body of a function has a frame of its own. -/
theorem declaresOnly_callValue (settings : Settings) (calls : Nat) (callee : Value) (paren : Token)
    (arguments : List Value) :
    (callValue settings calls callee paren arguments).DeclaresOnly free := by
  cases callee with
  | function f =>
    cases calls with
    | zero =>
      refine (declaresOnly_guardArity paren _ arguments).bind fun _ => ?_
      exact declaresOnly_after trivial fun _ => declaresOnly_raise _ _
    | succ calls =>
      refine (declaresOnly_guardArity paren _ arguments).bind fun _ => ?_
      exact ⟨fun _ => trivial, fun _ => trivial⟩
  | native f =>
    cases calls <;> refine (declaresOnly_guardArity paren _ arguments).bind fun _ => ?_ <;>
      exact ⟨.take trivial, fun _ => trivial⟩
  | _ => cases calls <;> exact declaresOnly_raise _ _

section Programs

variable (settings : Settings) (calls : Nat)

mutual

theorem declaresOnly_evaluate : (e : Expr) →
    (evaluate (callValue settings calls) e).DeclaresOnly free
  | .literal value => trivial
  | .identifier name => .take trivial
  | .grouping inner => by
    simpa [evaluate] using declaresOnly_evaluate inner
  | .unary operator operand => by
    refine declaresOnly_after trivial fun _ => ?_
    exact (declaresOnly_evaluate operand).bind fun _ => .take trivial
  | .binary left operator right => by
    refine declaresOnly_after trivial fun _ => ?_
    refine (declaresOnly_evaluate left).bind fun _ => ?_
    exact (declaresOnly_evaluate right).bind fun _ => .take trivial
  | .logical left operator right => by
    refine declaresOnly_after trivial fun _ => ?_
    refine (declaresOnly_evaluate left).bind fun _ => declaresOnly_after trivial fun decided => ?_
    cases decided with
    | true => trivial
    | false => exact declaresOnly_evaluate right
  | .assignment name value => by
    refine declaresOnly_after trivial fun _ => ?_
    refine (declaresOnly_evaluate value).bind fun _ => ?_
    exact declaresOnly_after trivial fun _ => trivial
  | .call callee paren arguments => by
    refine declaresOnly_after trivial fun _ => ?_
    refine (declaresOnly_evaluate callee).bind fun c => ?_
    refine (declaresOnly_evaluateAll arguments).bind fun vs => ?_
    exact declaresOnly_callValue settings calls c paren vs

theorem declaresOnly_evaluateAll : (es : List Expr) →
    (evaluateAll (callValue settings calls) es).DeclaresOnly free
  | [] => trivial
  | e :: es => by
    refine (declaresOnly_evaluate e).bind fun _ => ?_
    exact (declaresOnly_evaluateAll es).bind fun _ => trivial

end

theorem declaresOnly_evaluateOr (absent : Value) : (o : Option Expr) →
    (evaluateOr (callValue settings calls) absent o).DeclaresOnly free
  | some e => declaresOnly_evaluate settings calls e
  | none => trivial

theorem declaresOnly_runLoop (limit : Nat) (keyword : Token) {condition : Plan Bool}
    {body : Plan Flow} {increment : Plan Unit} (hcondition : condition.DeclaresOnly free)
    (hbody : body.DeclaresOnly free) (hincrement : increment.DeclaresOnly free) : (rounds : Nat) →
    (runLoop limit keyword condition body increment rounds).DeclaresOnly free
  | 0 => by
    refine hcondition.bind fun holds => ?_
    cases holds with
    | true => exact declaresOnly_raise _ _
    | false => trivial
  | rounds + 1 => by
    refine hcondition.bind fun holds => ?_
    cases holds with
    | false => trivial
    | true =>
      refine hbody.bind fun flow => ?_
      cases flow with
      | returning value => trivial
      | normal =>
        refine hincrement.bind fun _ => ?_
        exact declaresOnly_runLoop limit keyword hcondition hbody hincrement rounds

end Programs

end Plan

mutual

/-- The names that a statement can declare in the scope where it runs; blocks and `for` loops have
scopes of their own. -/
def Stmt.declared : Stmt → List String
  | .conditional _ thenBranch elseBranch => thenBranch.declared ++ Stmt.declaredIfAny elseBranch
  | .whileLoop _ _ body => body.declared
  | .variableDecl name _ _ => [name.lexeme]
  | .functionDecl name _ _ => [name.lexeme]
  | _ => []

def Stmt.declaredIfAny : Option Stmt → List String
  | some s => s.declared
  | none => []

end

namespace Plan

variable {free : String → Prop} (settings : Settings) (calls : Nat)

mutual

theorem declaresOnly_execute : (s : Stmt) → (∀ name ∈ s.declared, free name) →
    (execute settings (callValue settings calls) s).DeclaresOnly free
  | .expression value, _ =>
    (declaresOnly_evaluate settings calls value).discard.bind fun _ => trivial
  | .print keyword value, _ => by
    refine (declaresOnly_evaluate settings calls value).bind fun _ => ?_
    exact declaresOnly_after trivial fun _ => trivial
  | .block body, _ => by
    simp only [execute]
    exact declaresOnly_inScope _
  | .conditional condition thenBranch elseBranch, h => by
    simp only [Stmt.declared, List.mem_append] at h
    simp only [execute]
    refine (declaresOnly_evaluate settings calls condition).bind fun v => ?_
    cases v.isTruthy with
    | true => exact declaresOnly_execute thenBranch fun name hname => h name (.inl hname)
    | false => exact declaresOnly_executeIfAny elseBranch fun name hname => h name (.inr hname)
  | .whileLoop keyword condition body, h => by
    simp only [Stmt.declared] at h
    have hnothing : (pure () : Plan Unit).DeclaresOnly free := trivial
    simp only [execute]
    refine declaresOnly_after trivial fun _ => ?_
    exact declaresOnly_runLoop _ keyword ((declaresOnly_evaluate settings calls condition).map _)
      (declaresOnly_execute body h) hnothing _
  | .forLoop keyword initializer condition increment body, _ => by
    simp only [execute]
    exact declaresOnly_after trivial fun _ => declaresOnly_inScope _
  | .variableDecl name initializer constant, h => by
    have hname : free name.lexeme := h name.lexeme (by simp [Stmt.declared])
    refine declaresOnly_after trivial fun _ => ?_
    refine (declaresOnly_evaluateOr settings calls .nil initializer).bind fun _ => ?_
    exact declaresOnly_after hname fun _ => trivial
  | .functionDecl name parameters body, h => by
    have hname : free name.lexeme := h name.lexeme (by simp [Stmt.declared])
    refine declaresOnly_after trivial fun _ => declaresOnly_after trivial fun _ => ?_
    exact declaresOnly_after hname fun _ => trivial
  | .returnStmt _ value, _ => by
    simp only [execute]
    exact (declaresOnly_evaluateOr settings calls .nil value).map _

theorem declaresOnly_executeIfAny : (o : Option Stmt) →
    (∀ name ∈ Stmt.declaredIfAny o, free name) →
    (executeIfAny settings (callValue settings calls) o).DeclaresOnly free
  | some s, h => declaresOnly_execute s h
  | none, _ => trivial

end

end Plan

section Runs

variable {host : Host} (detached : host.natives.Detached) (calls : Nat) (m : Machine)

include detached

theorem evaluate_keeps (e : Expr) :
    m.Keeps (fun _ => False) ((evaluate host (callValue host calls) e).after m) := by
  rw [← host.run_evaluate]
  exact Plan.keeps detached (Plan.declaresOnly_evaluate host.settings calls e) m

theorem callValue_keeps (callee : Value) (paren : Token) (arguments : List Value) :
    m.Keeps (fun _ => False) ((callValue host calls callee paren arguments).after m) := by
  rw [← Plan.plansFor_callValue]
  exact Plan.keeps detached
    (Plan.declaresOnly_callValue host.settings calls callee paren arguments) m

theorem execute_keeps (s : Stmt) :
    m.Keeps (· ∈ s.declared) ((execute host (callValue host calls) s).after m) := by
  rw [← host.run_execute]
  exact Plan.keeps detached (Plan.declaresOnly_execute host.settings calls s fun _ h => h) m

end Runs

/-- On every machine, whatever the host answers and whether they fail or not, if the functions of
the host keep off the heap, expressions, blocks, `for` loops and calls keep every frame that was
there: what encloses it, which names it binds, which of them are constant and what the constants
stand for. A declaration can change in addition the binding of its own name in the current scope,
and any other statement those of the names that it declares there. -/
theorem existing_scopes_kept (host : Host) (detached : host.natives.Detached) (calls : Nat)
    (m : Machine) :
    let call := callValue host calls
    let run (s : Stmt) := execute host call s
    (∀ e, m.Keeps (fun _ => False) ((evaluate host call e).after m)) ∧
    (∀ body, m.Keeps (fun _ => False) ((run (.block body)).after m)) ∧
    (∀ keyword initializer condition increment body, m.Keeps (fun _ => False)
      ((run (.forLoop keyword initializer condition increment body)).after m)) ∧
    (∀ callee paren arguments,
      m.Keeps (fun _ => False) ((call callee paren arguments).after m)) ∧
    (∀ name initializer constant, m.Keeps (· = name.lexeme)
      ((run (.variableDecl name initializer constant)).after m)) ∧
    (∀ name parameters body, m.Keeps (· = name.lexeme)
      ((run (.functionDecl name parameters body)).after m)) ∧
    ∀ s, m.Keeps (· ∈ s.declared) ((run s).after m) := by
  intro call run
  have hrun : ∀ s, m.Keeps (· ∈ s.declared) ((run s).after m) := execute_keeps detached calls m
  refine ⟨evaluate_keeps detached calls m, fun body => ?_,
    fun keyword initializer condition increment body => ?_, callValue_keeps detached calls m,
    fun name initializer constant => ?_, fun name parameters body => ?_, hrun⟩
  · simpa [Stmt.declared] using hrun (.block body)
  · simpa [Stmt.declared] using hrun (.forLoop keyword initializer condition increment body)
  · simpa [Stmt.declared] using hrun (.variableDecl name initializer constant)
  · simpa [Stmt.declared] using hrun (.functionDecl name parameters body)

/-- A block that declares the name of a constant anew, assigns a variable and then fails. -/
theorem existing_scopes_kept_failing_block :
    let word (lexeme : String) : Token := ⟨.identifier, lexeme, none, ⟨1, 1⟩⟩
    let block : Stmt := .block [.variableDecl (word "limit") (some (.literal (.boolean true))) false,
      .expression (.assignment (word "count") (.identifier (word "limit"))),
      .expression (.assignment (word "fixed") (.identifier (word "limit")))]
    let host := Host.standard {} fun _ => none
    let m := (((Machine.fresh (.empty none)).defineGlobal "limit" ⟨.nil, true⟩).defineGlobal "count"
      ⟨.nil, false⟩).defineGlobal "fixed" ⟨.nil, true⟩
    let after := (execute host host.call block).after m
    host.natives.Detached ∧ m.Keeps (fun _ => False) after ∧
      ["limit", "count", "fixed"].map (fun name => (after.global? name).map Value.text) =
        [some "nil", some "true", some "nil"] := by
  intro word block host m after
  have hdetached : host.natives.Detached := Natives.detached_builtins _
  obtain ⟨_, hblock, _⟩ :=
    existing_scopes_kept host hdetached host.settings.maxCallDepth.toNat m
  exact ⟨hdetached, hblock _, by decide +kernel⟩

end Scriptlet
