import Scriptlet.Proofs.PaddedRuns
import Scriptlet.Proofs.ReturnPlaces

/-!
A `for` loop is a `while` loop in a block. The body of the `while` is a block of its own, with the
increment at its end, so each round runs in one more scope. Nothing is declared in that scope, and
no run can see it.
-/

namespace Scriptlet

def Stmt.whileInBlock (keyword : Token) (initializer : Option Stmt)
    (condition increment : Option Expr) (body : Stmt) : Stmt :=
  .block (initializer.toList ++
    [.whileLoop keyword (condition.getD (.literal (.boolean true)))
      (.block (body :: (increment.map Stmt.expression).toList))])

def Eval.followedBy (body : Eval Flow) (increment : Eval Unit) : Eval Flow := do
  match ← body with
  | .returning value => pure (.returning value)
  | .normal =>
    increment
    pure .normal

theorem runLoop_followedBy (limit : Nat) (keyword : Token) (condition : Eval Bool)
    (body : Eval Flow) (increment : Eval Unit) (rounds : Nat) :
    runLoop limit keyword condition body increment rounds =
      runLoop limit keyword condition (body.followedBy increment) (pure ()) rounds := by
  induction rounds with
  | zero => rfl
  | succ rounds ih =>
    simp only [runLoop, ih, Eval.followedBy, bind_assoc]
    congr 1
    funext holds
    cases holds with
    | false => rfl
    | true =>
      simp only [if_true]
      congr 1
      funext flow
      cases flow with
      | returning value => rfl
      | normal => simp only [bind_assoc, pure_bind]

section Parts

variable (host : Host) (call : Caller)

theorem evaluate_getD (condition : Option Expr) :
    evaluate host call (condition.getD (.literal (.boolean true))) =
      evaluateOr host call (.boolean true) condition := by
  cases condition with
  | some e => rfl
  | none =>
    simp only [Option.getD_none, evaluate]
    rfl

theorem executeAll_singleton (s : Stmt) :
    executeAll host call [s] = execute host call s := by
  rw [executeAll]
  refine Eq.trans ?_ (bind_pure _)
  congr 1
  funext flow
  cases flow with
  | returning value => rfl
  | normal => rfl

theorem executeAll_increment (body : Stmt) (increment : Option Expr) :
    executeAll host call (body :: (increment.map Stmt.expression).toList) =
      (execute host call body).followedBy (discard (evaluateOr host call .nil increment)) := by
  simp only [executeAll, Eval.followedBy]
  congr 1
  funext flow
  cases flow with
  | returning value => rfl
  | normal =>
    cases increment with
    | none => rfl
    | some e =>
      simp only [Option.map_some, Option.toList_some, executeAll_singleton, execute]
      rfl

theorem exists_run_initializer {first : Stmt} (h : first.IsInitializer) :
    ∃ run : Eval Unit, execute host call first = (do
      run
      pure .normal : Eval Flow) := by
  cases first with
  | expression value => exact ⟨discard (evaluate host call value), by simp only [execute]⟩
  | variableDecl name initializer constant =>
    refine ⟨do
      Eval.guardBuiltin host.settings name
      let value ← evaluateOr host call .nil initializer
      Eval.define name ⟨value, constant⟩, ?_⟩
    simp only [execute, bind_assoc]
  | _ => cases h

theorem executeAll_initializer {initializer : Option Stmt}
    (h : ∀ first ∈ initializer, first.IsInitializer) (s : Stmt) :
    executeAll host call (initializer.toList ++ [s]) = (do
      discard (executeIfAny host call initializer)
      execute host call s : Eval Flow) := by
  cases initializer with
  | none => exact executeAll_singleton host call s
  | some first =>
    obtain ⟨run, hrun⟩ := exists_run_initializer host call (h first rfl)
    have hrest := executeAll_singleton host call s
    simp only [Option.toList_some, List.singleton_append, executeIfAny]
    rw [executeAll, hrest, hrun]
    simp only [discard, map_const, Function.comp_apply, ← bind_pure_comp, bind_assoc, pure_bind]

end Parts

mutual

theorem Stmt.declared_eq_nil {inFunction : Bool} : (s : Stmt) → s.Canonical inFunction →
    ¬s.IsDeclaration → s.declared = []
  | .conditional condition thenBranch elseBranch, h, _ => by
    obtain ⟨_, hthen, hthenCanonical, _, helse⟩ := h
    rw [Stmt.declared, thenBranch.declared_eq_nil hthenCanonical hthen,
      Stmt.declaredIfAny_eq_nil elseBranch helse, List.append_nil]
  | .whileLoop _ _ body, h, _ => by
    obtain ⟨_, _, hbody, hcanonical⟩ := h
    rw [Stmt.declared, body.declared_eq_nil hcanonical hbody]
  | .variableDecl _ _ _, _, h => absurd trivial h
  | .functionDecl _ _ _, _, h => absurd trivial h
  | .expression _, _, _ => rfl
  | .print _ _, _, _ => rfl
  | .block _, _, _ => rfl
  | .forLoop _ _ _ _ _, _, _ => rfl
  | .returnStmt _ _, _, _ => rfl

theorem Stmt.declaredIfAny_eq_nil {inFunction : Bool} : (o : Option Stmt) →
    Stmt.BranchCanonical inFunction o → Stmt.declaredIfAny o = []
  | some branch, h => branch.declared_eq_nil h.2 h.1
  | none, _ => rfl

end

theorem Eval.checkStack_room {host : Host} {m : Machine}
    (h : m.watched = true → host.stack m.stackChecks m.depth = true) (token : Token) :
    checkStack host token m = .ok () m.checked := by
  refine if_pos ?_
  cases hwatched : m.watched with
  | true => exact h hwatched
  | false => rfl

namespace Padding

variable {p : Padding} {tight : Bool} {call : Caller}

theorem Aligned.followedBy {body body' : Eval Flow} {increment increment' : Eval Unit}
    (hbody : p.Aligned tight Flows body body')
    (hincrement : p.Aligned tight Same increment increment') :
    p.Aligned tight Flows (body.followedBy increment) (body'.followedBy increment') := by
  apply hbody.bind
  intro q hq flow flow' hflow
  cases hflow with
  | returning value => exact .pure fun _ hr => .returning (value.mono hr)
  | normal => exact (hincrement.of_le hq).thenNormal

theorem frame_of_own {size : Nat} (hpos : 0 < size) (h : own size hpos ≤ p) :
    ∀ id < size, p.frame id = id := by
  intro id hid
  rw [frame_of_le h ((size_own hpos).symm ▸ hid), frame_own hpos hid]

theorem Stores.bindings_of_own {frames frames' : Frames} {size : Nat} (hpos : 0 < size)
    (hle : own size hpos ≤ p) (h : p.Stores frames frames') :
    ∀ id < size, ∃ frame frame', frames.frame? id = some frame ∧ frames'.frame? id = some frame' ∧
      frame'.bindings = frame.bindings.map fun entry => (entry.1, entry.2.rename p.names) := by
  intro id hid
  have hknown : id < p.size := Nat.lt_of_lt_of_le hid (size_own hpos ▸ size_le hle)
  obtain ⟨frame, frame', hframe, hframe', halike⟩ := h.exists_alike hknown
  rw [frame_of_own hpos hle id hid] at hframe'
  exact ⟨frame, frame', hframe, hframe', halike.bindings⟩

/-- A `for` loop and the `while` loop in a block end in the same way if there is room for the loop.
The one checks the stack before its initializer and the other behind it. -/
theorem forLoop_whileInBlock {host : Host} (counts : host.CountsCalls) (hcall : Calls call)
    (keyword : Token) {initializer : Option Stmt}
    (hinitializer : ∀ first ∈ initializer, first.IsInitializer) (condition increment : Option Expr)
    {body : Stmt} (hbody : body.declared = []) {m m' : Machine} (hm : p.Matches tight m m')
    (room : m.watched = true → host.stack m.stackChecks m.depth = true) :
    p.SameEnd tight Flows m m'
      (execute host call (.forLoop keyword initializer condition increment body) m)
      (execute host call (.whileInBlock keyword initializer condition increment body) m') := by
  have hmatches : p.Matches tight m.checked m' := { hm with }
  have hleaves : p.Leaves p m m' m.checked m' := ⟨.refl p m'.frames, rfl, rfl, rfl⟩
  rw [execute_forLoop, Eval.bind_ok (Eval.checkStack_room room keyword), Stmt.whileInBlock, execute,
    executeAll_initializer host call hinitializer]
  refine .of_leaves hleaves (.inFrame hmatches ?_)
  have hscope : p.Alike m'.frames ⟨[], some m.scope⟩ ⟨[], some m'.scope⟩ :=
    ⟨rfl, by simp, .some hm.scope⟩
  have hfirst := (executeIfAny_padded counts hcall initializer (.inl rfl) p).discard
  refine (hfirst _ (p.le_extend _) _ _ (hmatches.entering hscope)).bind ?_
  intro q _ _ after after' leaves _ hafter
  have hlater : after'.watched = true → host.stack after'.stackChecks after'.depth = true := by
    intro hwatched
    rw [counts m.stackChecks, hafter.depth, leaves.depth]
    exact room ((leaves.watched.symm.trans hafter.watched.symm).trans hwatched)
  rw [runLoop_followedBy, execute, Eval.bind_ok (Eval.checkStack_room hlater keyword),
    evaluate_getD, execute, executeAll_increment]
  -- in the scope of a round, which is padding, the body runs as it does in the scope of the loop
  have hround : q.Aligned false Flows _ _ :=
    (execute_padded counts hcall body (.inr hbody) q).followedBy
      (evaluateOr_padded counts hcall .nil trivial increment q).discard
  have hchecked : q.Matches true after after'.checked := { hafter with }
  have hchecking : q.Leaves q after after' after after'.checked :=
    ⟨.refl q after'.frames, rfl, rfl, rfl⟩
  refine .of_leaves hchecking
    (runLoop_padded _ keyword ?_ hround.inPadding ?_ _ q (le_refl q) _ _ hchecked)
  · exact isTruthy_padded (evaluateOr_padded counts hcall (.boolean true) trivial condition q)
  · exact .pure fun _ _ => rfl

end Padding

def Host.withBudget (host : Host) (budget : Nat → Bool) : Host :=
  { host with stack := fun _ depth => budget depth }

/-- Whether the stack holds at each moment of a run what a budget of calls allows. Where no program
runs, nothing is asked. -/
def Plan.Budgeted {α : Type} (plan : Plan α) (host : Host) (budget : Nat → Bool) (m : Machine) :
    Prop :=
  ∀ moment ∈ plan.moments host m, moment.machine.watched = true →
    host.stack moment.machine.stackChecks moment.machine.depth = budget moment.machine.depth

section Budgets

variable {host : Host} {budget : Nat → Bool} {m : Machine}

theorem Eval.checkStack_withBudget (token : Token)
    (h : m.watched = true → host.stack m.stackChecks m.depth = budget m.depth) :
    checkStack (host.withBudget budget) token m = checkStack host token m := by
  have hsame : (!m.watched || host.stack m.stackChecks m.depth) =
      (!m.watched || budget m.depth) := by
    cases hwatched : m.watched with
    | true => rw [h hwatched]
    | false => rfl
  unfold checkStack
  rw [hsame]
  rfl

theorem Step.run_withBudget {α : Type} (s : Step α)
    (h : m.watched = true → host.stack m.stackChecks m.depth = budget m.depth) :
    s.run (host.withBudget budget) m = s.run host m := by
  cases s with
  | checkStack token => exact Eval.checkStack_withBudget token h
  | guardCall paren =>
    by_cases hfull : host.settings.maxCallDepth.toNat ≤ m.depth
    · have hrefused := Eval.guardCall_of_full (host.withBudget budget) paren hfull
      exact hrefused.trans (Eval.guardCall_of_full host paren hfull).symm
    · have hchecked := Eval.guardCall_of_room (host.withBudget budget) paren hfull
      rw [Step.run, Step.run, hchecked, Eval.checkStack_withBudget paren h]
      exact (Eval.guardCall_of_room host paren hfull).symm
  | _ => rfl

theorem Plan.bind_withBudget {α β : Type} {first first' : Eval β} {next : β → Plan α}
    (hfirst : first' m = first m)
    (h : ∀ x after, first m = .ok x after →
      (next x).run (host.withBudget budget) after = (next x).run host after) :
    (first' >>= fun x => (next x).run (host.withBudget budget)) m =
      (first >>= fun x => (next x).run host) m := by
  cases hr : first m with
  | ok x after => rw [Eval.bind_ok hr, Eval.bind_ok (hfirst.trans hr), h x after hr]
  | error e after => rw [Eval.bind_error hr, Eval.bind_error (hfirst.trans hr)]

/-- Only what the stack holds at the moments of a run concerns the run. -/
theorem Plan.run_withBudget {α : Type} {plan : Plan α} (h : plan.Budgeted host budget m) :
    plan.run (host.withBudget budget) m = plan.run host m := by
  induction plan generalizing m with
  | done x => rfl
  | step s next ih =>
    refine bind_withBudget (s.run_withBudget (h _ List.mem_cons_self)) fun x after hx => ih x ?_
    refine fun moment hmem => h moment (List.mem_cons_of_mem _ ?_)
    rw [hx]
    exact hmem
  | inFrame frame body next hbody ih =>
    have hinside := hbody (m := m.entering (frame m.scope)) fun moment hmem =>
      h moment (List.mem_cons_of_mem _ (List.mem_append_left _ hmem))
    have hframe : runInFrame frame (body.run (host.withBudget budget)) m =
        runInFrame frame (body.run host) m := by
      cases hr : body.run host (m.entering (frame m.scope)) with
      | ok x after => exact (Eval.inFrame_ok (hinside.trans hr)).trans (Eval.inFrame_ok hr).symm
      | error e after =>
        exact (Eval.inFrame_error (hinside.trans hr)).trans (Eval.inFrame_error hr).symm
    refine bind_withBudget hframe fun x after hx => ih x fun moment hmem => h moment ?_
    refine List.mem_cons_of_mem _ (List.mem_append_right _ (List.mem_cons_of_mem _ ?_))
    rw [hx]
    exact hmem
  | call paren body next hbody ih =>
    have hguard := (Step.guardCall paren).run_withBudget (h _ List.mem_cons_self)
    have hcall : runCall (host.withBudget budget) paren (body.run (host.withBudget budget)) m =
        runCall host paren (body.run host) m := by
      rcases Eval.guardCall_cases host paren m with ⟨after, hrefused, _⟩ | ⟨_, hadmitted⟩
      · exact (Eval.bind_error (hguard.trans hrefused)).trans (Eval.bind_error hrefused).symm
      · have hinside := hbody (m := { m.checked with depth := m.checked.depth + 1 })
          fun moment hmem => h moment.inCall (List.mem_cons_of_mem _ (List.mem_append_left _ (by
            rw [hadmitted]
            exact List.mem_map_of_mem (List.mem_append_left _ hmem))))
        refine (Eval.bind_ok (hguard.trans hadmitted)).trans
          (Eq.trans ?_ (Eval.bind_ok hadmitted).symm)
        cases hr : body.run host { m.checked with depth := m.checked.depth + 1 } with
        | ok x after => exact (Eval.inCall_ok (hinside.trans hr)).trans (Eval.inCall_ok hr).symm
        | error e after =>
          exact (Eval.inCall_error (hinside.trans hr)).trans (Eval.inCall_error hr).symm
    refine bind_withBudget hcall fun x after hx => ih x fun moment hmem => h moment ?_
    refine List.mem_cons_of_mem _ (List.mem_append_right _ ?_)
    rw [hx]
    exact hmem

theorem Host.execute_withBudget (calls : Nat) {s : Stmt}
    (h : (Plan.execute host.settings (Plan.callValue host.settings calls) s).Budgeted host
      budget m) :
    execute (host.withBudget budget) (callValue (host.withBudget budget) calls) s m =
      execute host (callValue host calls) s m := by
  rw [← host.run_execute calls s, ← (host.withBudget budget).run_execute calls s]
  exact Plan.run_withBudget h

end Budgets

/-- For every `for` loop in what is read as a program, and on every machine that refers only to
frames that it has, as every machine that a run comes to does, the loop and the `while` loop in a
block end in the same way: normally, with the same error, or with the return of the same value. They
print the same and leave the same bindings in all frames that there were before. The two machines
are then the same but for padding, which is what values that are functions are compared up to: a
function declared by the one refers to the same frame as the function declared by the other, with
empty frames in between. There has to be room on the stack for the loop, and at each moment of the
two runs what the stack holds has to depend on the calls in progress only, as it does where the
stack is never spent. -/
theorem for_loops_are_while_loops (host : Host) (functional : host.natives.Functional)
    (calls : Nat) {tokens : List Token} {program : Program}
    (parsed : Grammar.program tokens = .ok program) {keyword : Token} {initializer : Option Stmt}
    {condition increment : Option Expr} {body : Stmt}
    (inside : Node.stmt (.forLoop keyword initializer condition increment body) ∈
      Stmt.nodesOfAll program) (m : Machine) (linked : m.Linked) (budget : Nat → Bool)
    (room : budget m.depth = true) :
    let run := execute host (callValue host calls)
    let plan := Plan.execute host.settings (Plan.callValue host.settings calls)
    let loop := Stmt.forLoop keyword initializer condition increment body
    let block := Stmt.whileInBlock keyword initializer condition increment body
    (plan loop).Budgeted host budget m → (plan block).Budgeted host budget m →
      ∃ (p : Padding) (after after' : Machine),
      ((∃ flow flow', run loop m = .ok flow after ∧ run block m = .ok flow' after' ∧
          p.Flows flow flow') ∨
        ∃ e, run loop m = .error e after ∧ run block m = .error e after') ∧
      after'.output = after.output ∧
      (∀ id < m.frames.size, ∃ frame frame', after.frames.frame? id = some frame ∧
        after'.frames.frame? id = some frame' ∧
        frame'.bindings = frame.bindings.map fun entry => (entry.1, entry.2.rename p.names)) ∧
      (∀ id < m.frames.size, p.frame id = id) ∧ p.Matches true after after' := by
  intro run plan loop block hloop hblock
  obtain ⟨s, hs, hnode⟩ := Stmt.mem_nodesOfAll.1 inside
  obtain ⟨inFunction, hpart⟩ := Stmt.mem_nodes_iff.1 hnode
  obtain ⟨_, hfirst, _, _, hdeclaration, hcanonical⟩ := Grammar.canonical_part parsed hs hpart
  have hinitializer : ∀ first ∈ initializer, first.IsInitializer := by
    rintro first rfl
    exact hfirst.1
  have hpos := Nat.zero_lt_of_lt linked.scope
  have hcounts : (host.withBudget budget).CountsCalls := fun _ _ _ => rfl
  have hend : (Padding.own m.frames.size hpos).SameEnd true Padding.Flows m m (run loop m)
      (run block m) := by
    have hloop : _ = run loop m := Host.execute_withBudget calls hloop
    have hblock : _ = run block m := Host.execute_withBudget calls hblock
    rw [← hloop, ← hblock]
    exact Padding.forLoop_whileInBlock hcounts (Padding.calls_callValue hcounts functional calls)
      keyword hinitializer condition increment (body.declared_eq_nil hcanonical hdeclaration)
      (Padding.matches_own linked) fun _ => room
  generalize hloop : run loop m = result at hend ⊢
  generalize hblock : run block m = result' at hend ⊢
  cases hend with
  | @ok q flow flow' after after' leaves hflow same =>
    exact ⟨q, after, after', .inl ⟨flow, flow', rfl, rfl, hflow⟩, same.output,
      same.stores.bindings_of_own hpos leaves.kept.le,
      Padding.frame_of_own hpos leaves.kept.le, same⟩
  | @error q e after after' leaves same =>
    exact ⟨q, after, after', .inr ⟨e, rfl, rfl⟩, same.output,
      same.stores.bindings_of_own hpos leaves.kept.le,
      Padding.frame_of_own hpos leaves.kept.le, same⟩

/-- A function that a round declares and a global name keeps was declared one frame further inside
when the loop is a `while`. -/
theorem for_loops_are_while_loops_kept_function :
    let t := fun kind lexeme => (⟨kind, lexeme, none, .first⟩ : Token)
    let go := t .identifier "go"
    let f := t .identifier "f"
    let kept := t .identifier "kept"
    let tokens := [t .forWord "for", t .leftParen "(", t .letWord "let", go, t .equal "=",
      t .trueWord "true", t .semicolon ";", go, t .semicolon ";", go, t .equal "=",
      t .falseWord "false", t .rightParen ")", t .leftBrace "\x7b", t .functionWord "function", f,
      t .leftParen "(", t .rightParen ")", t .leftBrace "\x7b", t .rightBrace "\x7d", kept,
      t .equal "=", f, t .semicolon ";", t .rightBrace "\x7d"]
    let first : Stmt := .variableDecl go (some (.literal (.boolean true))) false
    let increment : Expr := .assignment go (.literal (.boolean false))
    let body : Stmt :=
      .block [.functionDecl f [] [], .expression (.assignment kept (.identifier f))]
    let loop : Stmt :=
      .forLoop (t .forWord "for") (some first) (some (.identifier go)) (some increment) body
    let block : Stmt :=
      .whileInBlock (t .forWord "for") (some first) (some (.identifier go)) (some increment) body
    let host := Host.standard {} fun _ => none
    let run := execute host host.call
    let m := (Machine.fresh (.empty none)).defineGlobal "kept" ⟨.nil, false⟩
    Grammar.program tokens = .ok [loop] ∧ m.Linked ∧
      ∃ (p : Padding) (after after' : Machine), run loop m = .ok .normal after ∧
        run block m = .ok .normal after' ∧ p.Matches true after after' ∧
        (after.global? "kept").bind Value.scope? = some 2 ∧
        (after'.global? "kept").bind Value.scope? = some 3 := by
  intro t go f kept tokens first increment body loop block host run m
  have hcanonical : Program.Canonical [loop] := by
    simp [loop, body, increment, first, kept, f, go, t, Program.Canonical, Stmt.AllCanonical,
      Stmt.FirstCanonical, Stmt.Canonical, Expr.CanonicalIfAny, Expr.Canonical,
      Stmt.IsInitializer, Stmt.IsDeclaration]
  have hread : Grammar.program tokens = .ok [loop] :=
    Grammar.program_eq_ok_iff.2 ⟨hcanonical, by decide, by decide⟩
  have hinside : Node.stmt loop ∈ Stmt.nodesOfAll [loop] :=
    Stmt.mem_nodesOfAll.2 ⟨loop, List.mem_cons_self, Stmt.mem_nodes_iff.2 ⟨false, .self loop⟩⟩
  have hlinked : m.Linked := (Machine.linked_fresh _).modifyFrames_define _ _ trivial
  have hnormal := execute_goesOn host host.call loop
    (loop.noReturn_of_canonical hcanonical.1) m
  have hmessage : message? (run loop m) = none := by decide +kernel
  have hkept : (((run loop).after m).global? "kept").bind Value.scope? = some 2 := by decide +kernel
  have hkept' : (((run block).after m).global? "kept").bind Value.scope? = some 3 := by
    decide +kernel
  obtain ⟨p, after, after', hend, _, _, _, hmatches⟩ :=
    for_loops_are_while_loops host (Natives.blind_builtins _).functional _ hread hinside m hlinked
      (· < Host.stackBudget) rfl (fun _ _ _ => rfl) fun _ _ _ => rfl
  rcases hend with ⟨flow, flow', hloop, hblock, hflow⟩ | ⟨e, hloop, _⟩
  · have hloop : run loop m = .ok flow after := hloop
    have hblock : run block m = .ok flow' after' := hblock
    obtain rfl := hnormal flow after hloop
    cases hflow
    rw [Eval.after_ok hloop] at hkept
    rw [Eval.after_ok hblock] at hkept'
    exact ⟨hread, hlinked, p, after, after', hloop, hblock, hmatches, hkept, hkept'⟩
  · have hloop : run loop m = .error e after := hloop
    rw [hloop] at hmessage
    cases hmessage

end Scriptlet
