import Mathlib.Data.Set.Insert
import Scriptlet.Proofs.ScopeHygiene
import Scriptlet.Tree.Nodes

/-!
How functions get from one place of a run to another. A run meets only functions that were bound
when it began and functions that it made itself, and it makes them from declarations of the trees
that run: those of the program, and the bodies of the functions that it meets. So what the nodes of
these trees have in common restricts everything that the run does, calls included. As with the
frames that values refer to, this is a matter of the plan alone; of the machine it needs the
functions that are bound.
-/

namespace Scriptlet

/-- What a run may consist of: the nodes of the trees that run, and the names that it may declare in
the global scope. -/
structure Licence where
  runs : Node → Prop
  declares : String → Prop

def Licence.any : Licence := ⟨fun _ => True, fun _ => True⟩

def Licence.Covers (licence : Licence) (nodes : List Node) : Prop :=
  ∀ node ∈ nodes, licence.runs node

@[simp] theorem Licence.covers_cons (licence : Licence) (node : Node) (nodes : List Node) :
    licence.Covers (node :: nodes) ↔ licence.runs node ∧ licence.Covers nodes :=
  List.forall_mem_cons

@[simp] theorem Licence.covers_append (licence : Licence) (nodes more : List Node) :
    licence.Covers (nodes ++ more) ↔ licence.Covers nodes ∧ licence.Covers more :=
  List.forall_mem_append

variable {licence : Licence} {known more : Set Closure}

/-- Whether a value, if it is a declared function, is a known one whose body may run. -/
def Value.Known (licence : Licence) (known : Set Closure) : Value → Prop
  | .function f => f ∈ known ∧ licence.Covers (Stmt.nodesOfAll f.body)
  | _ => True

theorem Value.Known.mono {value : Value} (h : value.Known licence known) (hmore : known ⊆ more) :
    value.Known licence more := by
  cases value with
  | function f => exact ⟨hmore h.1, h.2⟩
  | _ => trivial

theorem Value.known_of_plain {value : Value} (h : value.Plain) : value.Known licence known := by
  cases value with
  | function f => cases h
  | _ => trivial

def Frame.Knows (licence : Licence) (known : Set Closure) (frame : Frame) : Prop :=
  ∀ name binding, frame.binding? name = some binding → binding.value.Known licence known

def Machine.Knows (licence : Licence) (known : Set Closure) (m : Machine) : Prop :=
  ∀ id name binding, m.frames.local? id name = some binding → binding.value.Known licence known

theorem Closure.knows_frame (f : Closure) {arguments : List Value}
    (h : ∀ v ∈ arguments, v.Known licence known) : (f.frame arguments).Knows licence known := by
  intro name binding hbound
  have hempty : ∀ entry ∈ (⟨[], some f.scope⟩ : Frame).bindings,
      entry.2.value.Known licence known := by simp
  exact Frame.values_defineAll hempty h (name, binding) (Frame.mem_of_binding? hbound)

namespace Frames

variable {frames : Frames} {owner id : FrameId} {name other : String} {binding : Binding}

theorem of_local?_define {found : Binding}
    (h : (frames.define owner name binding).local? id other = some found) :
    found = binding ∨ frames.local? id other = some found := by
  by_cases hplace : id = owner ∧ other = name
  · obtain ⟨frame, hframe, hfound⟩ := Option.bind_eq_some_iff.1 h
    rw [frame?_define, if_pos hplace.1.symm] at hframe
    obtain ⟨old, -, rfl⟩ := Option.map_eq_some_iff.1 hframe
    rw [Frame.binding?_define, if_pos hplace.2] at hfound
    exact .inl (Option.some.inj hfound).symm
  · rw [local?_define_ne hplace] at h
    exact .inr h

end Frames

namespace Machine.Knows

variable {m after : Machine}

theorem mono (h : m.Knows licence known) (hmore : known ⊆ more) : m.Knows licence more :=
  fun id name binding hbound => (h id name binding hbound).mono hmore

theorem congr (h : m.Knows licence known) (hframes : after.frames = m.frames) :
    after.Knows licence known := by
  unfold Machine.Knows
  rwa [hframes]

theorem define (h : m.Knows licence known) (owner : FrameId) (name : String) {binding : Binding}
    (hb : binding.value.Known licence known) :
    (m.modifyFrames (·.define owner name binding)).Knows licence known := by
  intro id other found hfound
  rcases Frames.of_local?_define hfound with rfl | hold
  · exact hb
  · exact h id other found hold

theorem entering (h : m.Knows licence known) {frame : Frame} (hframe : frame.Knows licence known) :
    (m.entering frame).Knows licence known := by
  intro id name binding hbound
  change (m.frames.push frame).local? id name = some binding at hbound
  rw [Frames.local?_push] at hbound
  split at hbound
  · exact hframe name binding hbound
  · exact h id name binding hbound

theorem get (h : m.Knows licence known) {id : FrameId} {name : String} {value : Value}
    (hget : m.frames.get id name = .ok value) : value.Known licence known := by
  unfold Frames.get Frames.get? at hget
  cases hn : m.frames.nearest? id name with
  | none =>
    rw [hn] at hget
    cases hget
  | some nearest =>
    rw [hn] at hget
    cases hget
    obtain ⟨frame, hframe, hbinding⟩ := Frames.bound_of_nearestWithin hn
    refine h nearest.1 name nearest.2 ?_
    rw [Frames.local?_of_frame hframe, hbinding]

theorem fresh (output : Output) : (Machine.fresh output).Knows licence known := by
  intro id name binding hbound
  change (Frames.empty.push ⟨[], none⟩).local? id name = some binding at hbound
  rw [Frames.local?_push] at hbound
  split at hbound
  · cases hbound
  · simp [Frames.local?, Frames.frame?, Frames.empty] at hbound

theorem installBuiltins (h : m.Knows licence known) : m.installBuiltins.Knows licence known := by
  unfold Machine.installBuiltins
  induction Builtin.all generalizing m with
  | nil => exact h
  | cons builtin builtins ih =>
    refine ih ?_
    let native := (m.makeNative builtin.name builtin.arity builtin.code).1
    have hnative : (⟨native, false⟩ : Binding).value.Known licence known := trivial
    exact (h.define Machine.globals builtin.name hnative).congr rfl

end Machine.Knows

def Fault.redefines : Fault → Bool
  | .builtinRedefinition _ => true
  | _ => false

def NoRedefinition {α : Type} (result : Except Fault α) : Prop :=
  ∀ fault, result = .error fault → fault.redefines = false

theorem NoRedefinition.settle {α : Type} {result : Except Fault α} (h : NoRedefinition result)
    {token : Token} {m after : Machine} {e : RuntimeError}
    (hsettle : Eval.settle token result m = .error e after) : e.fault.redefines = false := by
  cases result with
  | ok x => cases hsettle
  | error fault =>
    cases hsettle
    exact h fault rfl

theorem Frames.noRedefinition_get (frames : Frames) (id : FrameId) (name : String) :
    NoRedefinition (frames.get id name) := by
  intro fault h
  unfold get at h
  split at h <;> cases h
  rfl

theorem Frames.noRedefinition_target (frames : Frames) (id : FrameId) (name : String) :
    NoRedefinition (frames.target id name) := by
  intro fault h
  unfold target at h
  split at h
  · cases h
    rfl
  · split at h <;> cases h
    rfl

theorem Value.noRedefinition_applyUnary (operator : Token) (operand : Value) :
    NoRedefinition (applyUnary operator operand) := by
  intro fault h
  unfold applyUnary at h
  split at h
  · split at h <;> cases h
    rfl
  · cases h
  · cases h
    rfl

theorem Value.noRedefinition_applyBinary (operator : Token) (left right : Value) :
    NoRedefinition (applyBinary operator left right) := by
  intro fault h
  unfold applyBinary at h
  split at h
  · cases h
  · cases h
  · split at h <;> cases h
    rfl
  · split at h <;> cases h <;> rfl

theorem Value.noRedefinition_decides (operator : Token) (left : Value) :
    NoRedefinition (decides operator left) := by
  intro fault h
  unfold decides at h
  split at h <;> cases h
  rfl

/-- Whether the same names are reserved, and identities were at most taken. -/
structure Machine.Retains (m after : Machine) : Prop where
  reserved : after.reserved = m.reserved
  identity : m.nextIdentity ≤ after.nextIdentity

namespace Step

variable {α : Type}

/-- Whether a step is allowed where the known functions are these; `inside` says that the scope is
not the global one. -/
def Permitted (licence : Licence) (inside : Bool) (known : Set Closure) : Step α → Prop
  | .settle _ result => NoRedefinition result
  | .assign name value =>
    (∃ e, licence.runs (.expr (.assignment name e))) ∧ value.Known licence known
  | .define name binding =>
    (inside = true ∨ licence.declares name.lexeme) ∧ binding.value.Known licence known
  | .makeClosure name parameters body =>
    licence.runs (.stmt (.functionDecl name parameters body)) ∧
      licence.Covers (Stmt.nodesOfAll body)
  | .applyNative _ _ arguments => ∀ v ∈ arguments, v.Known licence known
  | _ => True

/-- What is known of the result of a step. -/
def Yields (licence : Licence) (inside : Bool) (known : Set Closure) : Step α → α → Prop
  | .settle _ result, x => result = .ok x
  | .lookUp _, value => value.Known licence known
  | .makeClosure name parameters body, value =>
    ∃ identity scope, value = .function ⟨identity, name, parameters, body, scope⟩
  | .guardBuiltin name, _ => inside = true ∨ licence.declares name.lexeme
  | .applyNative _ _ _, value => value.Known licence known
  | _, _ => True

def made : Step α → α → Option Closure
  | .makeClosure _ _ _, .function f => some f
  | _, _ => none

/-- The functions that are known after a step with this result. -/
def learned (s : Step α) (x : α) (known : Set Closure) : Set Closure :=
  known ∪ {f | s.made x = some f}

theorem subset_learned (s : Step α) (x : α) : known ⊆ s.learned x known := Set.subset_union_left

theorem retains {host : Host} (detached : host.natives.Detached) (s : Step α) (m : Machine) :
    m.Retains ((s.run host).after m) := by
  have unchanged : ∀ {after : Machine}, after = m → m.Retains after := by
    rintro _ rfl
    exact ⟨rfl, Nat.le_refl _⟩
  have checked : ∀ {after : Machine}, after = m.checked → m.Retains after := by
    rintro _ rfl
    exact ⟨rfl, Nat.le_refl _⟩
  cases s with
  | settle token result => exact unchanged (Eval.after_settle token result m)
  | lookUp name => exact unchanged (Eval.after_settle name (m.frames.get m.scope name.lexeme) m)
  | assign name value =>
    change m.Retains ((Eval.assign name value).after m)
    unfold Eval.after Eval.assign
    cases m.frames.target m.scope name.lexeme <;> exact ⟨rfl, Nat.le_refl _⟩
  | define name binding => exact ⟨rfl, Nat.le_refl _⟩
  | write keyword text =>
    change m.Retains ((Eval.write keyword text).after m)
    unfold Eval.after Eval.write
    dsimp only
    cases m.output.fits text.utf8ByteSize <;> exact ⟨rfl, Nat.le_refl _⟩
  | makeClosure name parameters body => exact ⟨rfl, Nat.le_succ _⟩
  | guardBuiltin name =>
    apply unchanged
    change (Eval.guardBuiltin host.settings name).after m = m
    unfold Eval.after Eval.guardBuiltin
    split <;> rename_i h <;> split at h <;> cases h <;> rfl
  | checkStack token => exact checked (Eval.after_checkStack host token m)
  | guardCall paren =>
    rcases Eval.after_guardCall host paren m with hafter | hafter
    · exact unchanged hafter
    · exact checked hafter
  | applyNative paren code arguments =>
    change m.Retains ((Eval.applyNative host paren code arguments).after m)
    rw [Eval.after_applyNative, detached.heap]
    exact ⟨rfl, Nat.le_refl _⟩

theorem knows_after {host : Host} (detached : host.natives.Detached) {inside : Bool} {s : Step α}
    {m : Machine} (hs : s.Permitted licence inside known) (hm : m.Knows licence known) :
    ((s.run host).after m).Knows licence known := by
  generalize hafter : (s.run host).after m = after
  cases Step.effect hafter with
  | @assigned m name value owner target => exact hm.define owner name.lexeme hs.2
  | defined m name binding => exact hm.define m.scope name.lexeme hs.2
  | aside frames _ _ _ => exact hm.congr (frames detached)

theorem yields {host : Host} (detached : host.natives.Detached) {inside : Bool} {s : Step α}
    {m after : Machine} {x : α} (hs : s.Permitted licence inside known) (hm : m.Knows licence known)
    (hguard : ∀ name after, Eval.guardBuiltin host.settings name m = .ok () after →
      inside = true ∨ licence.declares name.lexeme)
    (hrun : s.run host m = .ok x after) : s.Yields licence inside known x := by
  cases s with
  | settle token result =>
    cases result with
    | ok y =>
      cases hrun
      rfl
    | error fault => cases hrun
  | lookUp name =>
    have hsettled : Eval.settle name (m.frames.get m.scope name.lexeme) m = .ok x after := hrun
    cases hget : m.frames.get m.scope name.lexeme with
    | ok value =>
      rw [hget] at hsettled
      cases hsettled
      exact hm.get hget
    | error fault =>
      rw [hget] at hsettled
      cases hsettled
  | makeClosure name parameters body =>
    cases hrun
    exact ⟨m.nextIdentity, m.scope, rfl⟩
  | guardBuiltin name => exact hguard name after hrun
  | applyNative paren code arguments =>
    have hsettled := (Eval.applyNative_of_heap (detached.heap ..) paren).symm.trans hrun
    cases happly : (host.natives code m.nativeCalls arguments m.heap).1 with
    | ok value =>
      rw [happly] at hsettled
      cases hsettled
      rcases detached.result happly with hplain | hmem
      · exact Value.known_of_plain hplain
      · exact hs _ hmem
    | error message =>
      rw [happly] at hsettled
      cases hsettled
  | _ => trivial

end Step

namespace Plan

/-- Whether a plan that starts with these functions known does only what is allowed, and a result of
it has a property, which may depend on the functions known then. -/
inductive Confined (licence : Licence) :
    {α : Type} → Plan α → Bool → (α → Set Closure → Prop) → Set Closure → Prop where
  | done {α : Type} {inside : Bool} {Q : α → Set Closure → Prop} {known : Set Closure} {x : α}
      (h : Q x known) : Confined licence (.done x) inside Q known
  | step {α β : Type} {inside : Bool} {Q : α → Set Closure → Prop} {known : Set Closure}
      {s : Step β} {next : β → Plan α} (permitted : s.Permitted licence inside known)
      (rest : ∀ x, s.Yields licence inside known x →
        Confined licence (next x) inside Q (s.learned x known)) :
      Confined licence (.step s next) inside Q known
  | inFrame {α β : Type} {inside : Bool} {Q : α → Set Closure → Prop} {P : β → Set Closure → Prop}
      {known : Set Closure} {frame : FrameId → Frame} {body : Plan β} {next : β → Plan α}
      (fine : ∀ scope, (frame scope).Knows licence known)
      (part : Confined licence body true P known)
      (rest : ∀ x more, known ⊆ more → P x more → Confined licence (next x) inside Q more) :
      Confined licence (.inFrame frame body next) inside Q known
  | call {α β : Type} {inside : Bool} {Q : α → Set Closure → Prop} {P : β → Set Closure → Prop}
      {known : Set Closure} {paren : Token} {body : Plan β} {next : β → Plan α}
      (part : Confined licence body inside P known)
      (rest : ∀ x more, known ⊆ more → P x more → Confined licence (next x) inside Q more) :
      Confined licence (.call paren body next) inside Q known

namespace Confined

variable {α β : Type} {inside : Bool} {Q : α → Set Closure → Prop} {R : β → Set Closure → Prop}

theorem bind {plan : Plan α} {rest : α → Plan β} (h : plan.Confined licence inside Q known)
    (k : ∀ x more, known ⊆ more → Q x more → (rest x).Confined licence inside R more) :
    (plan >>= rest).Confined licence inside R known := by
  change (plan.bind rest).Confined licence inside R known
  induction h with
  | done h => exact k _ _ subset_rfl h
  | @step _ _ _ _ known s _ permitted _ ih =>
    refine .step permitted fun x hx => ih x hx fun y most hsub => ?_
    exact k y most ((s.subset_learned x).trans hsub)
  | inFrame fine part _ _ ih =>
    refine .inFrame fine part fun x more hsub hx => ?_
    exact ih x more hsub hx fun y most hmost => k y most (hsub.trans hmost)
  | call part _ _ ih =>
    refine .call part fun x more hsub hx => ?_
    exact ih x more hsub hx fun y most hmost => k y most (hsub.trans hmost)

theorem map {plan : Plan α} (h : plan.Confined licence inside Q known) {f : α → β}
    (hR : ∀ x more, Q x more → R (f x) more) : (f <$> plan).Confined licence inside R known :=
  h.bind fun x more _ hx => .done (hR x more hx)

theorem discard {plan : Plan α} (h : plan.Confined licence inside Q known) :
    (discard plan).Confined licence inside (fun _ _ => True) known :=
  h.map fun _ _ _ => trivial

theorem within {frame : FrameId → Frame} {body : Plan α}
    (part : body.Confined licence true Q known)
    (fine : ∀ scope, (frame scope).Knows licence known) :
    (within frame body).Confined licence inside Q known :=
  .inFrame fine part fun _ _ _ hx => .done hx

theorem inScope {body : Plan α} (part : body.Confined licence true Q known) :
    (inScope body).Confined licence inside Q known := by
  refine part.within fun scope name binding hbound => ?_
  cases hbound

theorem called {paren : Token} {body : Plan α} (part : body.Confined licence inside Q known) :
    (called paren body).Confined licence inside Q known :=
  .call part fun _ _ _ hx => .done hx

end Confined

section Steps

variable {α : Type} {inside : Bool} {Q : α → Set Closure → Prop}

theorem confined_take {s : Step α} (hs : s.Permitted licence inside known)
    (h : ∀ x, s.Yields licence inside known x → Q x (s.learned x known)) :
    (take s).Confined licence inside Q known :=
  .step hs fun x hx => .done (h x hx)

theorem confined_raise {fault : Fault} (hfault : fault.redefines = false) (token : Token) :
    (raise fault token : Plan α).Confined licence inside Q known := by
  refine .step (fun other hother => ?_) fun _ hx => by cases hx
  cases hother
  exact hfault

theorem confined_after {s : Step Unit} {rest : Plan α} (hs : s.Permitted licence inside known)
    (h : s.Yields licence inside known () → ∀ more, known ⊆ more →
      rest.Confined licence inside Q more) :
    (do take s; rest : Plan α).Confined licence inside Q known :=
  .step hs fun x hx => h hx _ (s.subset_learned x)

end Steps

/-- Whether calls of known functions, with known functions in the arguments, do only what is allowed
and return a known function if any. -/
def Caller.Confined (licence : Licence) (call : Caller) : Prop :=
  ∀ callee paren arguments inside known, Value.Known licence known callee →
    (∀ v ∈ arguments, v.Known licence known) →
    (call callee paren arguments).Confined licence inside (fun v more => v.Known licence more) known

variable {call : Caller}

mutual

theorem confined_evaluate (hcall : call.Confined licence) : (e : Expr) → licence.Covers e.nodes →
    (inside : Bool) → (known : Set Closure) →
    (evaluate call e).Confined licence inside (fun v more => v.Known licence more) known
  | .literal value, _, _, _ => .done (Value.known_of_plain (Value.plain_ofConstant value))
  | .identifier name, _, _, _ =>
    confined_take trivial fun _ hv => Value.Known.mono hv (Step.subset_learned _ _)
  | .grouping inner, he, inside, known => by
    simp only [Expr.nodes, Licence.covers_cons] at he
    simpa [evaluate] using confined_evaluate hcall inner he.2 inside known
  | .unary operator operand, he, inside, known => by
    simp only [Expr.nodes, Licence.covers_cons] at he
    refine confined_after trivial fun _ known _ => ?_
    refine (confined_evaluate hcall operand he.2 inside known).bind fun value more _ _ => ?_
    exact confined_take (Value.noRedefinition_applyUnary operator value) fun _ h =>
      Value.known_of_plain (Value.plain_applyUnary h)
  | .binary left operator right, he, inside, known => by
    simp only [Expr.nodes, Licence.covers_cons, Licence.covers_append] at he
    refine confined_after trivial fun _ known _ => ?_
    refine (confined_evaluate hcall left he.2.1 inside known).bind fun l more₁ _ _ => ?_
    refine (confined_evaluate hcall right he.2.2 inside more₁).bind fun r more₂ _ _ => ?_
    exact confined_take (Value.noRedefinition_applyBinary operator l r) fun _ h =>
      Value.known_of_plain (Value.plain_applyBinary h)
  | .logical left operator right, he, inside, known => by
    simp only [Expr.nodes, Licence.covers_cons, Licence.covers_append] at he
    refine confined_after trivial fun _ known _ => ?_
    refine (confined_evaluate hcall left he.2.1 inside known).bind fun l more₁ _ hl => ?_
    have hdecides : (take (.settle operator (Value.decides operator l))).Confined licence inside
        (fun _ more => l.Known licence more) more₁ :=
      confined_take (Value.noRedefinition_decides operator l) fun _ _ =>
        hl.mono (Step.subset_learned _ _)
    refine hdecides.bind fun decided more₂ _ hl => ?_
    cases decided with
    | true => exact .done hl
    | false => exact confined_evaluate hcall right he.2.2 inside more₂
  | .assignment name value, he, inside, known => by
    simp only [Expr.nodes, Licence.covers_cons] at he
    refine confined_after trivial fun _ known _ => ?_
    refine (confined_evaluate hcall value he.2 inside known).bind fun v more₁ _ hv => ?_
    exact confined_after ⟨⟨value, he.1⟩, hv⟩ fun _ more₂ hsub => .done (hv.mono hsub)
  | .call callee paren arguments, he, inside, known => by
    simp only [Expr.nodes, Licence.covers_cons, Licence.covers_append] at he
    refine confined_after trivial fun _ known _ => ?_
    refine (confined_evaluate hcall callee he.2.1 inside known).bind fun c more₁ _ hc => ?_
    refine (confined_evaluateAll hcall arguments he.2.2 inside more₁).bind
      fun vs more₂ hsub hvs => ?_
    exact hcall c paren vs inside more₂ (hc.mono hsub) hvs

theorem confined_evaluateAll (hcall : call.Confined licence) : (es : List Expr) →
    licence.Covers (Expr.nodesOfAll es) → (inside : Bool) → (known : Set Closure) →
    (evaluateAll call es).Confined licence inside
      (fun vs more => ∀ v ∈ vs, v.Known licence more) known
  | [], _, _, _ => .done (by simp)
  | e :: es, hes, inside, known => by
    simp only [Expr.nodesOfAll, Licence.covers_append] at hes
    refine (confined_evaluate hcall e hes.1 inside known).bind fun v more₁ _ hv => ?_
    refine (confined_evaluateAll hcall es hes.2 inside more₁).bind fun vs more₂ hsub hvs => ?_
    exact .done (List.forall_mem_cons.2 ⟨hv.mono hsub, hvs⟩)

end

theorem confined_evaluateOr (hcall : call.Confined licence) (absent : Value)
    (habsent : absent.Plain) (inside : Bool) (known : Set Closure) : (o : Option Expr) →
    licence.Covers (Expr.nodesOf? o) →
    (evaluateOr call absent o).Confined licence inside (fun v more => v.Known licence more) known
  | some e, he => confined_evaluate hcall e he inside known
  | none, _ => .done (Value.known_of_plain habsent)

theorem confined_runLoop (limit : Nat) (keyword : Token) {condition : Plan Bool} {body : Plan Flow}
    {increment : Plan Unit} {inside : Bool}
    (hcondition : ∀ known, condition.Confined licence inside (fun _ _ => True) known)
    (hbody : ∀ known, body.Confined licence inside (fun flow more => flow.value.Known licence more)
      known)
    (hincrement : ∀ known, increment.Confined licence inside (fun _ _ => True) known) :
    (rounds : Nat) → (known : Set Closure) →
    (runLoop limit keyword condition body increment rounds).Confined licence inside
      (fun flow more => flow.value.Known licence more) known
  | 0, known => by
    refine (hcondition known).bind fun holds more _ _ => ?_
    cases holds with
    | true => exact confined_raise rfl _
    | false => exact .done trivial
  | rounds + 1, known => by
    refine (hcondition known).bind fun holds more₁ _ _ => ?_
    cases holds with
    | false => exact .done trivial
    | true =>
      refine (hbody more₁).bind fun flow more₂ _ hflow => ?_
      cases flow with
      | returning value => exact .done hflow
      | normal =>
        refine (hincrement more₂).bind fun _ more₃ _ _ => ?_
        exact confined_runLoop limit keyword hcondition hbody hincrement rounds more₃

mutual

theorem confined_execute (settings : Settings) (hcall : call.Confined licence) : (s : Stmt) →
    licence.Covers s.nodes → (inside : Bool) → (known : Set Closure) →
    (execute settings call s).Confined licence inside
      (fun flow more => flow.value.Known licence more) known
  | .expression value, hs, inside, known => by
    simp only [Stmt.nodes, Licence.covers_cons] at hs
    exact (confined_evaluate hcall value hs.2 inside known).discard.bind fun _ _ _ _ =>
      .done trivial
  | .print keyword value, hs, inside, known => by
    simp only [Stmt.nodes, Licence.covers_cons] at hs
    refine (confined_evaluate hcall value hs.2 inside known).bind fun v more _ _ => ?_
    exact confined_after trivial fun _ _ _ => .done trivial
  | .block body, hs, inside, known => by
    simp only [Stmt.nodes, Licence.covers_cons] at hs
    simp only [execute]
    exact (confined_executeAll settings hcall body hs.2 true known).inScope
  | .conditional condition thenBranch elseBranch, hs, inside, known => by
    simp only [Stmt.nodes_conditional, Licence.covers_cons, Licence.covers_append] at hs
    simp only [execute]
    refine (confined_evaluate hcall condition hs.2.1.1 inside known).bind fun v more _ _ => ?_
    cases v.isTruthy with
    | true => exact confined_execute settings hcall thenBranch hs.2.1.2 inside more
    | false => exact confined_executeIfAny settings hcall elseBranch hs.2.2 inside more
  | .whileLoop keyword condition body, hs, inside, known => by
    simp only [Stmt.nodes, Licence.covers_cons, Licence.covers_append] at hs
    simp only [execute]
    refine confined_after trivial fun _ known _ => ?_
    refine confined_runLoop _ keyword (fun known => ?_)
      (confined_execute settings hcall body hs.2.2 inside) (fun _ => .done trivial) _ known
    exact (confined_evaluate hcall condition hs.2.1 inside known).map fun _ _ _ => trivial
  | .forLoop keyword initializer condition increment body, hs, inside, known => by
    simp only [Stmt.nodes_forLoop, Licence.covers_cons, Licence.covers_append] at hs
    obtain ⟨-, ⟨⟨hfirst, hcondition⟩, hincrement⟩, hbody⟩ := hs
    have hloop := confined_runLoop settings.roundLimit keyword
      (fun known => (confined_evaluateOr hcall (.boolean true) trivial true known condition
        hcondition).map (f := Value.isTruthy) fun _ _ _ => trivial)
      (confined_execute settings hcall body hbody true)
      (fun known => (confined_evaluateOr hcall .nil trivial true known increment
        hincrement).discard)
    simp only [execute]
    refine confined_after trivial fun _ known _ => ?_
    apply Confined.inScope
    refine (confined_executeIfAny settings hcall initializer hfirst true known).discard.bind
      fun _ more _ _ => ?_
    exact hloop _ more
  | .variableDecl name initializer constant, hs, inside, known => by
    simp only [Stmt.nodes, Licence.covers_cons] at hs
    refine confined_after trivial fun hname more₁ _ => ?_
    refine (confined_evaluateOr hcall .nil trivial inside more₁ initializer hs.2).bind
      fun v more₂ _ hv => ?_
    exact confined_after ⟨hname, hv⟩ fun _ _ _ => .done trivial
  | .functionDecl name parameters body, hs, inside, known => by
    simp only [Stmt.nodes, Licence.covers_cons] at hs
    refine confined_after trivial fun hname more₁ _ => ?_
    have hmake : (take (.makeClosure name parameters body)).Confined licence inside
        (fun v more => v.Known licence more) more₁ := by
      -- the body may run later because it is a part of the tree that runs now
      refine confined_take hs ?_
      rintro _ ⟨identity, scope, rfl⟩
      exact ⟨.inr rfl, hs.2⟩
    refine hmake.bind fun v more₂ _ hv => ?_
    exact confined_after ⟨hname, hv⟩ fun _ _ _ => .done trivial
  | .returnStmt _ value, hs, inside, known => by
    simp only [Stmt.nodes, Licence.covers_cons] at hs
    simp only [execute]
    exact (confined_evaluateOr hcall .nil trivial inside known value hs.2).map fun _ _ hv => hv

theorem confined_executeIfAny (settings : Settings) (hcall : call.Confined licence) :
    (o : Option Stmt) → licence.Covers (Stmt.nodesOf? o) → (inside : Bool) →
    (known : Set Closure) →
    (executeIfAny settings call o).Confined licence inside
      (fun flow more => flow.value.Known licence more) known
  | some s, hs, inside, known => confined_execute settings hcall s hs inside known
  | none, _, _, _ => .done trivial

theorem confined_executeAll (settings : Settings) (hcall : call.Confined licence) :
    (ss : List Stmt) → licence.Covers (Stmt.nodesOfAll ss) → (inside : Bool) →
    (known : Set Closure) →
    (executeAll settings call ss).Confined licence inside
      (fun flow more => flow.value.Known licence more) known
  | [], _, _, _ => .done trivial
  | s :: ss, hss, inside, known => by
    simp only [Stmt.nodesOfAll, Licence.covers_append] at hss
    refine (confined_execute settings hcall s hss.1 inside known).bind fun flow more _ hflow => ?_
    cases flow with
    | returning value => exact .done hflow
    | normal => exact confined_executeAll settings hcall ss hss.2 inside more

end

theorem confined_guardArity (paren : Token) (expected : Nat) (arguments : List Value)
    (inside : Bool) (known : Set Closure) :
    (guardArity paren expected arguments).Confined licence inside (fun _ _ => True) known := by
  unfold guardArity
  by_cases hcount : arguments.length = expected
  · rw [if_pos hcount]
    exact .done trivial
  · rw [if_neg hcount]
    exact confined_raise rfl _

/-- Calls are confined, by induction on how many may nest: the body of a known function may run. -/
theorem confined_callValue (settings : Settings) : (calls : Nat) →
    Caller.Confined licence (callValue settings calls)
  | calls, .native f, paren, arguments, inside, known, _, ha => by
    simp only [callValue]
    refine (confined_guardArity paren _ arguments inside known).bind fun _ more hsub _ => ?_
    have happly : (take (.applyNative paren f.code arguments)).Confined licence inside
        (fun v more => v.Known licence more) more :=
      confined_take (fun v hv => (ha v hv).mono hsub) fun _ hv =>
        Value.Known.mono hv (Step.subset_learned _ _)
    exact happly.called
  | 0, .function f, paren, arguments, inside, known, _, _ => by
    refine (confined_guardArity paren _ arguments inside known).bind fun _ more _ _ => ?_
    exact confined_after trivial fun _ _ _ => confined_raise rfl _
  | calls + 1, .function f, paren, arguments, inside, known, hf, ha => by
    refine (confined_guardArity paren _ arguments inside known).bind fun _ more hsub _ => ?_
    have hframe : (f.frame arguments).Knows licence more :=
      f.knows_frame fun v hv => (ha v hv).mono hsub
    have hbody := confined_executeAll settings (confined_callValue settings calls) f.body hf.2 true
      more
    exact (hbody.within fun _ => hframe).called.bind fun flow _ _ hflow => .done hflow
  | calls, .nil, _, _, _, _, _, _ => by cases calls <;> exact confined_raise rfl _
  | calls, .boolean _, _, _, _, _, _, _ => by cases calls <;> exact confined_raise rfl _
  | calls, .number _, _, _, _, _, _, _ => by cases calls <;> exact confined_raise rfl _
  | calls, .string _, _, _, _, _, _, _ => by cases calls <;> exact confined_raise rfl _

end Plan

end Scriptlet
