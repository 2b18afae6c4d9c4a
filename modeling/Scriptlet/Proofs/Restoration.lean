import Scriptlet.Proofs.Plans
import Scriptlet.Session

/-!
Scope and call depth after a run are what they were before, however the run ends, and during the run
the depth is what it was at the start and one more for each call in progress. Both hold for every
plan, by induction on the plan: a step leaves scope and depth alone, and a part that runs in a new
frame or as a call undoes what its own start did. So a host finds the machine at rest before each of
its operations.
-/

namespace Scriptlet

/-- Whether scope, depth and the watch over the stack are what they were. -/
structure Machine.Restored (m after : Machine) : Prop where
  scope : after.scope = m.scope
  depth : after.depth = m.depth
  watched : after.watched = m.watched

theorem Machine.Restored.refl (m : Machine) : m.Restored m := ⟨rfl, rfl, rfl⟩

theorem Machine.Restored.trans {a b c : Machine} (h : a.Restored b) (k : b.Restored c) :
    a.Restored c :=
  ⟨k.scope.trans h.scope, k.depth.trans h.depth, k.watched.trans h.watched⟩

theorem Step.restored (host : Host) {α : Type} (s : Step α) (m : Machine) :
    m.Restored ((s.run host).after m) := by
  generalize hafter : (s.run host).after m = after
  cases Step.effect hafter with
  | assigned target => exact ⟨rfl, rfl, rfl⟩
  | defined m name binding => exact ⟨rfl, rfl, rfl⟩
  | aside _ scope depth watched => exact ⟨scope, depth, watched⟩

namespace Plan

variable {host : Host} {α : Type}

theorem restored_runInFrame (frame : FrameId → Frame) {body : Eval α} {m : Machine}
    (h : ∀ m, Machine.Restored m (body.after m)) :
    m.Restored ((runInFrame frame body).after m) := by
  rw [after_runInFrame]
  exact ⟨rfl, (h _).depth, (h _).watched⟩

theorem restored_runCall (paren : Token) {body : Eval α} {m : Machine}
    (h : ∀ m, Machine.Restored m (body.after m)) :
    m.Restored ((runCall host paren body).after m) := by
  apply Eval.after_bind Machine.Restored .trans
  · exact (Step.guardCall paren).restored host m
  · intro _ m
    rw [Eval.after_inCall]
    have hbody := h { m with depth := m.depth + 1 }
    refine ⟨hbody.scope, ?_, hbody.watched⟩
    dsimp only
    rw [hbody.depth]
    exact Nat.add_sub_cancel m.depth 1

theorem restored (plan : Plan α) (m : Machine) : m.Restored ((plan.run host).after m) := by
  induction plan generalizing m with
  | done x => exact .refl m
  | step s next ih => exact Eval.after_bind Machine.Restored .trans (s.restored host m) ih
  | inFrame frame body next hbody ih =>
    exact Eval.after_bind Machine.Restored .trans (restored_runInFrame frame hbody) ih
  | call paren body next hbody ih =>
    exact Eval.after_bind Machine.Restored .trans (restored_runCall paren hbody) ih

/-- Whether the depth at a moment of a run is the one at its start and one more for each call in
progress, and none of these calls is more than the settings allow. -/
structure Moment.Counted (host : Host) (m : Machine) (moment : Moment) : Prop where
  depth : moment.machine.depth = m.depth + moment.calls
  bound : moment.machine.depth ≤ max m.depth host.settings.maxCallDepth.toNat

theorem Moment.Counted.congr {m other : Machine} {moment : Moment}
    (h : moment.Counted host m) (hdepth : m.depth = other.depth) : moment.Counted host other := by
  obtain ⟨hd, hb⟩ := h
  rw [hdepth] at hd hb
  exact ⟨hd, hb⟩

theorem counted_start {m after : Machine} (h : m.Restored after) :
    Moment.Counted host m ⟨0, after⟩ :=
  ⟨h.depth, by simp only [h.depth, Nat.le_max_left]⟩

theorem counted_following {run : Eval α} {m : Machine} {next : α → Machine → List Moment}
    (h : m.Restored (run.after m))
    (k : ∀ x after, ∀ moment ∈ next x after, moment.Counted host after) :
    ∀ moment ∈ following (run m) next, moment.Counted host m := by
  intro moment hmem
  cases hr : run m with
  | ok x after =>
    rw [hr] at hmem
    rw [Eval.after_ok hr] at h
    exact (k x after moment hmem).congr h.depth
  | error e after =>
    rw [hr] at hmem
    cases hmem

theorem Moment.Counted.inCall {m : Machine} {moment : Moment}
    (hroom : m.depth < host.settings.maxCallDepth.toNat)
    (h : moment.Counted host { m with depth := m.depth + 1 }) : moment.inCall.Counted host m := by
  obtain ⟨hd, hb⟩ := h
  dsimp only at hd hb
  constructor
  · dsimp only [Moment.inCall]
    omega
  · dsimp only [Moment.inCall]
    omega

theorem counted_moments (plan : Plan α) (m : Machine) :
    ∀ moment ∈ plan.moments host m, moment.Counted host m := by
  induction plan generalizing m with
  | done x =>
    intro moment hmem
    cases hmem
  | step s next ih =>
    intro moment hmem
    rcases List.mem_cons.1 hmem with rfl | hmem
    · exact counted_start (.refl m)
    · exact counted_following (s.restored host m) ih moment hmem
  | inFrame frame body next hbody ih =>
    intro moment hmem
    rcases List.mem_cons.1 hmem with rfl | hmem
    · exact counted_start (.refl m)
    rcases List.mem_append.1 hmem with hmem | hmem
    · exact (hbody _ moment hmem).congr rfl
    rcases List.mem_cons.1 hmem with rfl | hmem
    · exact (counted_start (restored body _)).congr rfl
    · exact counted_following (restored_runInFrame frame (restored body)) ih moment hmem
  | call paren body next hbody ih =>
    intro moment hmem
    rcases List.mem_cons.1 hmem with rfl | hmem
    · exact counted_start (.refl m)
    rcases List.mem_append.1 hmem with hmem | hmem
    · -- the guard let the call begin
      rcases Eval.guardCall_cases host paren m with ⟨after, hguard, _⟩ | ⟨hroom, hguard⟩
      · rw [hguard] at hmem
        cases hmem
      · rw [hguard] at hmem
        obtain ⟨inner, hinner, rfl⟩ := List.mem_map.1 hmem
        refine (Moment.Counted.inCall (m := m.checked) hroom ?_).congr rfl
        rcases List.mem_append.1 hinner with hinner | hinner
        · exact hbody _ inner hinner
        · obtain rfl := List.mem_singleton.1 hinner
          exact counted_start (restored body _)
    · exact counted_following (restored_runCall paren (restored body)) ih moment hmem

theorem counted_history (plan : Plan α) (m : Machine) :
    ∀ moment ∈ plan.history host m, moment.Counted host m := by
  intro moment hmem
  rcases List.mem_append.1 hmem with hmem | hmem
  · exact counted_moments plan m moment hmem
  · obtain rfl := List.mem_singleton.1 hmem
    exact counted_start (restored plan m)

/-- Whether a run carries out a plan, restores scope and depth, and counts its calls at every
moment. The count never leaves the range of a word. -/
structure Unwinds (host : Host) (plan : Plan α) (run : Eval α) (m : Machine) : Prop where
  carriedOut : plan.run host = run
  restored : m.Restored (run.after m)
  counted : ∀ moment ∈ plan.history host m, moment.Counted host m
  fits : m.depth < UInt64.size →
    ∀ moment ∈ plan.history host m, moment.machine.depth < UInt64.size

theorem unwinds {plan : Plan α} {run : Eval α} (h : plan.run host = run) (m : Machine) :
    plan.Unwinds host run m := by
  subst h
  refine ⟨rfl, restored plan m, counted_history plan m, ?_⟩
  intro hstart moment hmem
  have hbound := (counted_history plan m moment hmem).bound
  have hlimit := UInt64.toNat_lt_size host.settings.maxCallDepth
  omega

end Plan

inductive Operation where
  | installBuiltins
  | install (values : List (String × Value))
  | define (name : String) (binding : Binding)
  | interpret (program : Program)
  | execute (s : Stmt)
  | evaluate (e : Expr)
  | block (body : List Stmt)
  | call (callee : Value) (paren : Token) (arguments : List Value)

def Host.perform (host : Host) (m : Machine) : Operation → Machine
  | .installBuiltins => m.installBuiltins
  | .install values => m.install values
  | .define name binding => m.defineGlobal name binding
  | .interpret program => (host.interpret program).after m
  | .execute s => (Scriptlet.execute host host.call s).after m
  | .evaluate e => (host.evaluate e).after m
  | .block body => (host.executeBlock body).after m
  | .call callee paren arguments => (host.call callee paren arguments).after m

/-- Whether nothing is in progress. -/
structure Machine.AtRest (m : Machine) : Prop where
  scope : m.scope = Machine.globals
  depth : m.depth = 0

namespace Machine.AtRest

variable {m : Machine}

theorem restored {after : Machine} (h : m.AtRest) (k : m.Restored after) : after.AtRest :=
  ⟨k.scope.trans h.scope, k.depth.trans h.depth⟩

end Machine.AtRest

namespace Machine

theorem restored_install (m : Machine) (values : List (String × Value)) :
    m.Restored (m.install values) := by
  unfold install
  induction values generalizing m with
  | nil => exact .refl m
  | cons entry values ih =>
    rw [List.foldl_cons]
    refine .trans ?_ (ih _)
    exact ⟨rfl, rfl, rfl⟩

theorem restored_installBuiltins (m : Machine) : m.Restored m.installBuiltins := by
  unfold installBuiltins
  induction Builtin.all generalizing m with
  | nil => exact .refl m
  | cons builtin builtins ih =>
    rw [List.foldl_cons]
    refine .trans ?_ (ih _)
    exact ⟨rfl, rfl, rfl⟩

end Machine

namespace Host

variable (host : Host) (calls : Nat)

theorem run_execute (s : Stmt) :
    (Plan.execute host.settings (Plan.callValue host.settings calls) s).run host =
      execute host (callValue host calls) s :=
  Plan.run_execute (Plan.plansFor_callValue host calls) s

theorem run_executeAll (ss : List Stmt) :
    (Plan.executeAll host.settings (Plan.callValue host.settings calls) ss).run host =
      executeAll host (callValue host calls) ss :=
  Plan.run_executeAll (Plan.plansFor_callValue host calls) ss

theorem run_evaluate (e : Expr) :
    (Plan.evaluate (Plan.callValue host.settings calls) e).run host =
      Scriptlet.evaluate host (callValue host calls) e :=
  Plan.run_evaluate (Plan.plansFor_callValue host calls) e

theorem restored_executeAll (ss : List Stmt) (m : Machine) :
    m.Restored ((executeAll host (callValue host calls) ss).after m) := by
  rw [← host.run_executeAll calls ss]
  exact Plan.restored _ m

end Host

def Eval.watching {α : Type} (run : Eval α) : Eval α := fun m =>
  match run { m with watched := true } with
  | .ok x after => .ok x { after with watched := m.watched }
  | .error e after => .error e { after with watched := m.watched }

theorem Eval.after_watching {α : Type} (run : Eval α) (m : Machine) :
    run.watching.after m = { run.after { m with watched := true } with watched := m.watched } := by
  unfold Eval.after Eval.watching
  cases run { m with watched := true } <;> rfl

theorem Eval.restored_watching {α : Type} {run : Eval α} {m : Machine}
    (h : ∀ m, Machine.Restored m (run.after m)) : m.Restored (run.watching.after m) := by
  rw [Eval.after_watching]
  exact ⟨(h _).scope, (h _).depth, rfl⟩

section Programs

variable {run : Eval Flow} {m after : Machine}

theorem Eval.asProgram_ok {flow : Flow} (h : run { m with watched := true } = .ok flow after) :
    run.asProgram m = .ok () { after with watched := m.watched } := by
  simp only [asProgram, h]

theorem Eval.asProgram_error {e : RuntimeError}
    (h : run { m with watched := true } = .error e after) : run.asProgram m =
      .error e { after with watched := m.watched, scope := Machine.globals, depth := 0 } := by
  simp only [asProgram, h]

end Programs

theorem Eval.asProgram_eq {run : Eval Flow} {m : Machine} (h : (run.watching.after m).AtRest) :
    run.asProgram m = discard run.watching m := by
  have hdiscard : discard run.watching = (fun _ => ()) <$> run.watching := rfl
  rw [Eval.after_watching] at h
  rw [hdiscard]
  cases hr : run { m with watched := true } with
  | ok flow after => simp only [asProgram, watching, Functor.map, EStateM.map, hr]
  | error e after =>
    rw [Eval.after_error hr] at h
    have hscope : after.scope = Machine.globals := h.scope
    have hdepth : after.depth = 0 := h.depth
    simp only [asProgram, watching, Functor.map, EStateM.map, hr, ← hscope, ← hdepth]

/-- A program leaves what its statements leave, but for the reset after an error. -/
theorem Eval.after_asProgram (run : Eval Flow) (m : Machine) :
    let last := run.watching.after m
    run.asProgram.after m = last ∨
      run.asProgram.after m = { last with scope := Machine.globals, depth := 0 } := by
  intro last
  have hlast : last = { run.after { m with watched := true } with watched := m.watched } :=
    Eval.after_watching run m
  cases hr : run { m with watched := true } with
  | ok flow after =>
    left
    rw [Eval.after_ok (asProgram_ok hr), hlast, Eval.after_ok hr]
  | error e after =>
    right
    rw [Eval.after_error (asProgram_error hr), hlast, Eval.after_error hr]

theorem Host.restored_interpret (host : Host) (program : Program) {m : Machine} (h : m.AtRest) :
    m.Restored ((host.interpret program).after m) := by
  have hrun := Eval.restored_watching (m := m)
    (host.restored_executeAll host.settings.maxCallDepth.toNat program)
  rw [Host.interpret]
  rcases Eval.after_asProgram (executeAll host host.call program) m with hafter | hafter
  · rw [hafter]
    exact hrun
  · rw [hafter]
    exact ⟨h.scope.symm, h.depth.symm, hrun.watched⟩

theorem Host.restored_perform (host : Host) {m : Machine} (h : m.AtRest) (operation : Operation) :
    m.Restored (host.perform m operation) := by
  have hrun : ∀ {α : Type} {plan : Plan α} {run : Eval α}, plan.run host = run →
      m.Restored (run.after m) := fun hplan => (Plan.unwinds hplan m).restored
  cases operation with
  | installBuiltins => exact Machine.restored_installBuiltins m
  | install values => exact m.restored_install values
  | define name binding => exact ⟨rfl, rfl, rfl⟩
  | interpret program => exact host.restored_interpret program h
  | execute s => exact hrun (host.run_execute _ s)
  | evaluate e => exact hrun (host.run_evaluate _ e)
  | block body =>
    have hplan : (Plan.inScope (Plan.executeAll host.settings
        (Plan.callValue host.settings host.settings.maxCallDepth.toNat) body)).run host =
          host.executeBlock body := by
      rw [Plan.run_inScope, host.run_executeAll]
      rfl
    exact hrun hplan
  | call callee paren arguments => exact hrun (Plan.plansFor_callValue host _ callee paren arguments)

theorem Host.perform_atRest (host : Host) {m : Machine} (h : m.AtRest) (operation : Operation) :
    (host.perform m operation).AtRest :=
  h.restored (host.restored_perform h operation)

theorem Host.restored_operations (host : Host) (operations : List Operation) {m : Machine}
    (h : m.AtRest) : m.Restored (operations.foldl host.perform m) := by
  induction operations generalizing m with
  | nil => exact .refl m
  | cons operation operations ih =>
    exact (host.restored_perform h operation).trans (ih (host.perform_atRest h operation))

def Eval.inside {α : Type} (scope : FrameId) (run : Eval α) : Eval α := fun m =>
  match run { m with scope } with
  | .ok x after => .ok x { after with scope := m.scope }
  | .error e after => .error e { after with scope := m.scope }

theorem Eval.restored_inside {α : Type} (scope : FrameId) {run : Eval α} {m : Machine}
    (h : ∀ m, Machine.Restored m (run.after m)) : m.Restored ((inside scope run).after m) := by
  have hrun := h { m with scope }
  cases hr : run { m with scope } with
  | ok x after =>
    rw [after_ok hr] at hrun
    simp only [Eval.after, inside, hr]
    exact ⟨rfl, hrun.depth, hrun.watched⟩
  | error e after =>
    rw [after_error hr] at hrun
    simp only [Eval.after, inside, hr]
    exact ⟨rfl, hrun.depth, hrun.watched⟩

/-- On every machine and whatever the host answers, statements, expressions, calls and blocks, in a
new frame or in one that is there already, leave scope and depth as they found them, whether they
fail or not. At every moment the depth counts the calls in progress and keeps to the limit. A
program that starts at rest needs no reset when it fails, and each operation of a host starts at
rest, with no watch over the stack. -/
theorem scope_and_depth_restored (host : Host) (calls : Nat) (m : Machine) :
    let call := callValue host calls
    let plans := Plan.callValue host.settings calls
    (∀ s, (Plan.execute host.settings plans s).Unwinds host (execute host call s) m) ∧
    (∀ e, (Plan.evaluate plans e).Unwinds host (evaluate host call e) m) ∧
    (∀ frame body, (Plan.within (fun _ => frame) (Plan.executeAll host.settings plans body)).Unwinds
      host (Eval.inFrame frame (executeAll host call body)) m) ∧
    (∀ scope body, m.Restored ((Eval.inside scope (executeAll host call body)).after m)) ∧
    (∀ callee paren arguments,
      (plans callee paren arguments).Unwinds host (call callee paren arguments) m) ∧
    (∀ program, m.AtRest → m.Restored ((host.interpret program).after m) ∧
      host.interpret program m = discard (executeAll host host.call program).watching m) ∧
    ∀ output (operations : List Operation),
      let last := operations.foldl host.perform (Machine.fresh output)
      last.AtRest ∧ last.watched = false := by
  intro call plans
  refine ⟨fun s => ?_, fun e => ?_, fun frame body => ?_, fun scope body => ?_,
    fun callee paren arguments => ?_, fun program hrest => ⟨?_, ?_⟩, fun output operations => ?_⟩
  · exact Plan.unwinds (host.run_execute calls s) m
  · exact Plan.unwinds (host.run_evaluate calls e) m
  · apply Plan.unwinds
    rw [Plan.run_within, host.run_executeAll]
    rfl
  · exact Eval.restored_inside scope (host.restored_executeAll calls body)
  · exact Plan.unwinds (Plan.plansFor_callValue host calls callee paren arguments) m
  · exact host.restored_interpret program hrest
  · exact Eval.asProgram_eq (hrest.restored (Eval.restored_watching
      (host.restored_executeAll host.settings.maxCallDepth.toNat program)))
  · have hfresh : (Machine.fresh output).AtRest := ⟨rfl, rfl⟩
    have hrun := host.restored_operations operations hfresh
    exact ⟨hfresh.restored hrun, hrun.watched⟩

/-- A call that fails inside a block of the function: one call is in progress then, and none
afterwards. -/
theorem scope_and_depth_restored_failing_call :
    let word (lexeme : String) : Token := ⟨.identifier, lexeme, none, ⟨1, 1⟩⟩
    let body : List Stmt := [.block [.expression (.identifier (word "missing"))]]
    let f : Value := .function ⟨0, word "f", [], body, Machine.globals⟩
    let host := Host.standard { maxCallDepth := 1 } fun _ => none
    let m := Machine.fresh (.empty none)
    let plan := Plan.callValue host.settings 1 f (word ")") []
    m.depth < UInt64.size ∧ m.AtRest ∧
      m.Restored ((callValue host 1 f (word ")") []).after m) ∧
      (host.interpret [.expression (.identifier (word "missing"))] m =
        discard (executeAll host host.call
          [.expression (.identifier (word "missing"))]).watching m) ∧
      ∃ moment ∈ plan.history host m, moment.calls = 1 ∧ moment.machine.depth = 0 + 1 := by
  intro word body f host m plan
  have hrest : m.AtRest := ⟨rfl, rfl⟩
  obtain ⟨_, _, _, _, hcall, hinterpret, _⟩ := scope_and_depth_restored host 1 m
  have hmoment : ∃ moment ∈ plan.history host m, moment.calls = 1 := by decide +kernel
  obtain ⟨moment, hmem, hcalls⟩ := hmoment
  have hcounted := (hcall f (word ")") []).counted moment hmem
  exact ⟨by decide, hrest, (hcall f (word ")") []).restored, (hinterpret _ hrest).2,
    moment, hmem, hcalls, hcalls ▸ hcounted.depth⟩

end Scriptlet
