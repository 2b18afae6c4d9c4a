import Scriptlet.Proofs.Limits
import Scriptlet.Proofs.Termination

/-!
The limit of loops is exact. A loop without a limit makes whole rounds until one ends it: the
condition does not hold, the body returns, or something fails. A loop with a limit does the same as
long as its body runs no more often than the limit says, and it is refused at the moment when the
condition holds for one time more. Each execution counts its own rounds and nothing else, whatever
ran before it and whatever its parts run.
-/

namespace Scriptlet

structure LoopParts where
  condition : Eval Bool
  body : Eval Flow
  increment : Eval Unit

namespace LoopParts

/-- The parts of a loop. A condition that is absent holds, and an increment that is absent does
nothing. -/
def of (host : Host) (call : Caller) (condition increment : Option Expr) (body : Stmt) :
    LoopParts where
  condition := Value.isTruthy <$> evaluateOr host call (.boolean true) condition
  body := execute host call body
  increment := discard (evaluateOr host call .nil increment)

/-- A whole round: the condition holds, and body and increment run to their ends. -/
inductive Round (parts : LoopParts) : Machine → Machine → Prop where
  | intro {m tested ran after : Machine} (holds : parts.condition m = .ok true tested)
      (body : parts.body tested = .ok .normal ran)
      (increment : parts.increment ran = .ok () after) : Round parts m after

inductive Rounds (parts : LoopParts) : Nat → Machine → Machine → Prop where
  | none (m : Machine) : Rounds parts 0 m m
  | more {count : Nat} {m middle after : Machine} (first : parts.Round m middle)
      (rest : parts.Rounds count middle after) : Rounds parts (count + 1) m after

/-- A round that ends the loop, and how often the body runs in it. -/
inductive Ending (parts : LoopParts) (m : Machine) :
    Nat → EStateM.Result RuntimeError Machine Flow → Prop where
  | stops {after : Machine} (holds : parts.condition m = .ok false after) :
      Ending parts m 0 (.ok .normal after)
  | conditionFails {e : RuntimeError} {after : Machine}
      (fails : parts.condition m = .error e after) : Ending parts m 0 (.error e after)
  | returns {tested after : Machine} {value : Value} (holds : parts.condition m = .ok true tested)
      (body : parts.body tested = .ok (.returning value) after) :
      Ending parts m 1 (.ok (.returning value) after)
  | bodyFails {tested after : Machine} {e : RuntimeError}
      (holds : parts.condition m = .ok true tested) (fails : parts.body tested = .error e after) :
      Ending parts m 1 (.error e after)
  | incrementFails {tested ran after : Machine} {e : RuntimeError}
      (holds : parts.condition m = .ok true tested) (body : parts.body tested = .ok .normal ran)
      (fails : parts.increment ran = .error e after) : Ending parts m 1 (.error e after)

/-- How a loop without a limit ends, and how often its body runs. -/
inductive Unlimited (parts : LoopParts) :
    Nat → Machine → EStateM.Result RuntimeError Machine Flow → Prop where
  | ending {runs : Nat} {m : Machine} {result : EStateM.Result RuntimeError Machine Flow}
      (last : parts.Ending m runs result) : Unlimited parts runs m result
  | round {runs : Nat} {m middle : Machine} {result : EStateM.Result RuntimeError Machine Flow}
      (first : parts.Round m middle) (rest : parts.Unlimited runs middle result) :
      Unlimited parts (runs + 1) m result

variable {parts : LoopParts} {m : Machine}

theorem Round.unique {after after' : Machine} (h : parts.Round m after)
    (k : parts.Round m after') : after' = after := by
  obtain ⟨holds, body, increment⟩ := h
  obtain ⟨holds', body', increment'⟩ := k
  cases holds.symm.trans holds'
  cases body.symm.trans body'
  cases increment.symm.trans increment'
  rfl

theorem Ending.unique {runs runs' : Nat} {result result' : EStateM.Result RuntimeError Machine Flow}
    (h : parts.Ending m runs result) (k : parts.Ending m runs' result') :
    runs' = runs ∧ result' = result := by
  cases h <;> cases k <;> simp_all

theorem Ending.not_round {runs : Nat} {result : EStateM.Result RuntimeError Machine Flow}
    (h : parts.Ending m runs result) (after : Machine) : ¬parts.Round m after := by
  rintro ⟨holds, body, increment⟩
  cases h <;> simp_all

theorem round_or_ending (parts : LoopParts) (m : Machine) :
    (∃ after, parts.Round m after) ∨ ∃ runs result, parts.Ending m runs result := by
  cases hcondition : parts.condition m with
  | error e after => exact .inr ⟨0, _, .conditionFails hcondition⟩
  | ok holds tested =>
    cases holds with
    | false => exact .inr ⟨0, _, .stops hcondition⟩
    | true =>
      cases hbody : parts.body tested with
      | error e after => exact .inr ⟨1, _, .bodyFails hcondition hbody⟩
      | ok flow ran =>
        cases flow with
        | returning value => exact .inr ⟨1, _, .returns hcondition hbody⟩
        | normal =>
          cases hincrement : parts.increment ran with
          | error e after => exact .inr ⟨1, _, .incrementFails hcondition hbody hincrement⟩
          | ok _ after => exact .inl ⟨after, .intro hcondition hbody hincrement⟩

theorem Ending.of_not_holds {runs : Nat} {result : EStateM.Result RuntimeError Machine Flow}
    (h : parts.Ending m runs result) (hnot : ∀ tested, parts.condition m ≠ .ok true tested) :
    runs = 0 := by
  cases h with
  | stops => rfl
  | conditionFails => rfl
  | returns holds => exact absurd holds (hnot _)
  | bodyFails holds => exact absurd holds (hnot _)
  | incrementFails holds => exact absurd holds (hnot _)

theorem Unlimited.unique {runs runs' : Nat}
    {result result' : EStateM.Result RuntimeError Machine Flow} (h : parts.Unlimited runs m result)
    (k : parts.Unlimited runs' m result') : runs' = runs ∧ result' = result := by
  induction h generalizing runs' with
  | ending last =>
    cases k with
    | ending last' => exact last.unique last'
    | round first' _ => exact absurd first' (last.not_round _)
  | round first _ ih =>
    cases k with
    | ending last' => exact absurd first (last'.not_round _)
    | round first' rest' =>
      obtain rfl := first.unique first'
      obtain ⟨hruns, hresult⟩ := ih rest'
      exact ⟨congrArg (· + 1) hruns, hresult⟩

/-- Whether the condition holds after so many whole rounds, and the machine that it leaves then. -/
def HoldsAfter (parts : LoopParts) (count : Nat) (m tested : Machine) : Prop :=
  ∃ last, parts.Rounds count m last ∧ parts.condition last = .ok true tested

/-- Whether a loop is refused exactly if its condition holds after as many whole rounds as the limit
says, and ends as without the limit if not. -/
structure LimitedTo (parts : LoopParts) (limit : Nat) (refusal : RuntimeError)
    (loop : Eval Flow) : Prop where
  refused : ∀ m tested, parts.HoldsAfter limit m tested → loop m = .error refusal tested ∧
    ∀ runs result, parts.Unlimited runs m result → limit < runs
  allowed : ∀ m, (¬∃ tested, parts.HoldsAfter limit m tested) →
    ∃ runs ≤ limit, parts.Unlimited runs m (loop m) ∧
      ∀ runs' result, parts.Unlimited runs' m result → runs' = runs ∧ result = loop m

def looping (parts : LoopParts) (limit : Nat) (keyword : Token) (rounds : Nat) : Eval Flow :=
  runLoop limit keyword parts.condition parts.body parts.increment rounds

variable {limit : Nat} {keyword : Token} {rounds : Nat}

theorem looping_round {after : Machine} (h : parts.Round m after) :
    parts.looping limit keyword (rounds + 1) m = parts.looping limit keyword rounds after := by
  obtain ⟨holds, body, increment⟩ := h
  unfold looping
  rw [runLoop, Eval.bind_ok holds, if_pos rfl, Eval.bind_ok body]
  exact Eval.bind_ok increment

theorem looping_ending {runs : Nat} {result : EStateM.Result RuntimeError Machine Flow}
    (h : parts.Ending m runs result) (hruns : runs ≤ rounds) :
    parts.looping limit keyword rounds m = result := by
  unfold looping
  cases h with
  | stops holds =>
    cases rounds <;> rw [runLoop, Eval.bind_ok holds, if_neg Bool.false_ne_true] <;> rfl
  | conditionFails fails => cases rounds <;> rw [runLoop, Eval.bind_error fails]
  | returns holds body =>
    obtain ⟨rounds, rfl⟩ := Nat.exists_eq_add_of_le' hruns
    rw [runLoop, Eval.bind_ok holds, if_pos rfl, Eval.bind_ok body]
    rfl
  | bodyFails holds fails =>
    obtain ⟨rounds, rfl⟩ := Nat.exists_eq_add_of_le' hruns
    rw [runLoop, Eval.bind_ok holds, if_pos rfl, Eval.bind_error fails]
  | incrementFails holds body fails =>
    obtain ⟨rounds, rfl⟩ := Nat.exists_eq_add_of_le' hruns
    rw [runLoop, Eval.bind_ok holds, if_pos rfl, Eval.bind_ok body]
    exact Eval.bind_error fails

theorem looping_refused {last tested : Machine} (h : parts.Rounds rounds m last)
    (holds : parts.condition last = .ok true tested) :
    parts.looping limit keyword rounds m = .error ⟨.loopLimit limit, keyword⟩ tested := by
  induction h with
  | none m =>
    unfold looping
    rw [runLoop, Eval.bind_ok holds, if_pos rfl]
    rfl
  | more first _ ih => rw [looping_round first, ih holds]

/-- Whole rounds after which the condition holds leave a loop without a limit at least one more. -/
theorem Rounds.lt_runs {last tested : Machine} {runs : Nat}
    {result : EStateM.Result RuntimeError Machine Flow} (h : parts.Rounds rounds m last)
    (holds : parts.condition last = .ok true tested) (k : parts.Unlimited runs m result) :
    rounds < runs := by
  induction h generalizing runs with
  | none m =>
    cases k with
    | round _ _ => exact Nat.succ_pos _
    | ending last =>
      cases last with
      | stops fails => cases holds.symm.trans fails
      | conditionFails fails => cases holds.symm.trans fails
      | _ => exact Nat.one_pos
  | more first _ ih =>
    cases k with
    | ending last => exact absurd first (last.not_round _)
    | round first' rest =>
      obtain rfl := first.unique first'
      exact Nat.succ_lt_succ (ih holds rest)

theorem unlimited_looping (rounds : Nat) (m : Machine)
    (h : ¬∃ tested, parts.HoldsAfter rounds m tested) :
    ∃ runs ≤ rounds, parts.Unlimited runs m (parts.looping limit keyword rounds m) := by
  induction rounds generalizing m with
  | zero =>
    have hnot : ∀ tested, parts.condition m ≠ .ok true tested :=
      fun tested holds => h ⟨tested, m, .none m, holds⟩
    rcases round_or_ending parts m with ⟨after, holds, _, _⟩ | ⟨runs, result, hending⟩
    · exact absurd holds (hnot _)
    · have hruns : runs ≤ 0 := Nat.le_of_eq (hending.of_not_holds hnot)
      rw [looping_ending hending hruns]
      exact ⟨runs, hruns, .ending hending⟩
  | succ rounds ih =>
    rcases round_or_ending parts m with ⟨after, hround⟩ | ⟨runs, result, hending⟩
    · have hrest : ¬∃ tested, parts.HoldsAfter rounds after tested := by
        rintro ⟨tested, last, hrounds, holds⟩
        exact h ⟨tested, last, .more hround hrounds, holds⟩
      obtain ⟨runs, hruns, hunlimited⟩ := ih after hrest
      rw [looping_round hround]
      exact ⟨runs + 1, Nat.succ_le_succ hruns, .round hround hunlimited⟩
    · have hruns : runs ≤ 1 := by cases hending <;> decide
      have hruns := Nat.le_trans hruns (Nat.succ_pos rounds)
      rw [looping_ending hending hruns]
      exact ⟨runs, hruns, .ending hending⟩

theorem limitedTo_looping (parts : LoopParts) (limit : Nat) (keyword : Token) :
    parts.LimitedTo limit ⟨.loopLimit limit, keyword⟩ (parts.looping limit keyword limit) where
  refused := by
    rintro m tested ⟨last, hrounds, holds⟩
    exact ⟨looping_refused hrounds holds, fun _ _ hunlimited => hrounds.lt_runs holds hunlimited⟩
  allowed := by
    intro m hnot
    obtain ⟨runs, hruns, hunlimited⟩ :
        ∃ runs ≤ limit, parts.Unlimited runs m (parts.looping limit keyword limit m) :=
      unlimited_looping limit m hnot
    exact ⟨runs, hruns, hunlimited, fun _ _ => hunlimited.unique⟩

end LoopParts

theorem execute_whileLoop (host : Host) (call : Caller) (keyword : Token) (condition : Expr)
    (body : Stmt) :
    execute host call (.whileLoop keyword condition body) = (do
      Eval.checkStack host keyword
      (LoopParts.of host call (some condition) none body).looping host.settings.roundLimit keyword
        host.settings.roundLimit : Eval Flow) := by
  rw [execute]
  rfl

theorem execute_forLoop_looping (host : Host) (call : Caller) (keyword : Token)
    (initializer : Option Stmt) (condition increment : Option Expr) (body : Stmt) :
    execute host call (.forLoop keyword initializer condition increment body) = (do
      Eval.checkStack host keyword
      Eval.inScope (do
        discard (executeIfAny host call initializer)
        (LoopParts.of host call condition increment body).looping host.settings.roundLimit keyword
          host.settings.roundLimit) : Eval Flow) :=
  execute_forLoop host call keyword initializer condition increment body

/-- With a limit of at least one round, every execution of a `while` or `for` loop for which there is
room on the stack, on every machine and whatever calls do, is refused exactly if its condition holds
after as many whole rounds as the limit says. All that these rounds and the condition did stays done.
If it is not refused, its body runs at most as often as the limit says, and it ends as the loop
without a limit of its own ends, in the only way there is. The loop of a `for` starts where its
initializer ended. -/
theorem loop_limit_exact (host : Host) (limited : host.settings.maxLoopIterations ≠ 0)
    (call : Caller) (keyword : Token) (body : Stmt) :
    let limit := host.settings.maxLoopIterations.toNat
    let refusal : RuntimeError := ⟨.loopLimit limit, keyword⟩
    refusal.fault.message = s!"Loop exceeded maximum of {limit} iterations." ∧
    (∀ condition, ∃ loop : Eval Flow,
      (LoopParts.of host call (some condition) none body).LimitedTo limit refusal loop ∧
      execute host call (.whileLoop keyword condition body) = (do
        Eval.checkStack host keyword
        loop)) ∧
    ∀ initializer condition increment, ∃ loop : Eval Flow,
      (LoopParts.of host call condition increment body).LimitedTo limit refusal loop ∧
      execute host call (.forLoop keyword initializer condition increment body) = (do
        Eval.checkStack host keyword
        Eval.inScope do
          discard (executeIfAny host call initializer)
          loop) := by
  intro limit refusal
  have hlimit : host.settings.roundLimit = limit :=
    Settings.roundLimit_of_limited fun h => limited (UInt64.toNat_inj.1 h)
  refine ⟨rfl, fun condition => ?_, fun initializer condition increment => ?_⟩
  · rw [execute_whileLoop, hlimit]
    exact ⟨_, LoopParts.limitedTo_looping _ limit keyword, rfl⟩
  · rw [execute_forLoop_looping, hlimit]
    exact ⟨_, LoopParts.limitedTo_looping _ limit keyword, rfl⟩

/-- With a limit of one round, a `for` without a condition is refused after its first increment. A
`while` that runs itself once more through a call is not: each execution makes one round. -/
theorem loop_limit_exact_one_round :
    let word (lexeme : String) : Token := ⟨.identifier, lexeme, none, ⟨1, 1⟩⟩
    let name (lexeme : String) : Expr := .identifier (word lexeme)
    let host := Host.standard { maxLoopIterations := 1 } fun _ => none
    let call := host.call
    let set : Stmt := .expression (.assignment (word "b") (.literal (.boolean true)))
    let increment : Expr := .assignment (word "a") (name "b")
    let again : Stmt := .block
      [.expression (.assignment (word "a") (.literal (.boolean false))),
        .expression (.call (name "f") (word ")") [name "b", .literal (.boolean false)])]
    let loop : Stmt := .whileLoop (word "while") (name "a") again
    let f : Closure := ⟨0, word "f", [word "a", word "b"], [loop], Machine.globals⟩
    let m := (((Machine.fresh (.empty none)).defineGlobal "a" ⟨.boolean true, false⟩).defineGlobal
      "b" ⟨.boolean true, false⟩).defineGlobal "f" ⟨.function f, false⟩
    host.settings.maxLoopIterations ≠ 0 ∧
      (∃ tested, (LoopParts.of host call none (some increment) set).HoldsAfter 1
          (m.checked.entering ⟨[], some m.scope⟩) tested ∧
        tested.global? "a" = some (.boolean true) ∧
        execute host call (.forLoop (word "for") none none (some increment) set) m =
          .error ⟨.loopLimit 1, word "for"⟩ { tested with scope := m.scope }) ∧
      ∃ runs ≤ 1, (LoopParts.of host call (some (name "a")) none again).Unlimited runs m.checked
        (execute host call loop m) := by
  intro word name host call set increment again loop f m
  have hlimited : host.settings.maxLoopIterations ≠ 0 := by decide
  refine ⟨hlimited, ?_, ?_⟩
  · have hholds : ∃ tested, (LoopParts.of host call none (some increment) set).HoldsAfter 1
        (m.checked.entering ⟨[], some m.scope⟩) tested ∧ tested.global? "a" = some (.boolean true) :=
      ⟨_, ⟨_, .more ⟨rfl, rfl, rfl⟩ (.none _), rfl⟩, rfl⟩
    obtain ⟨tested, hafter, hglobal⟩ := hholds
    obtain ⟨run, hrun, hexecute⟩ := (loop_limit_exact host hlimited call (word "for")
      set).2.2 none none (some increment)
    refine ⟨tested, hafter, hglobal, ?_⟩
    have hchecked : Eval.checkStack host (word "for") m = .ok () m.checked := rfl
    rw [hexecute, Eval.bind_ok hchecked]
    exact Eval.inFrame_error (hrun.refused _ _ hafter).1
  · obtain ⟨run, hrun, hexecute⟩ :=
      (loop_limit_exact host hlimited call (word "while") again).2.1 (name "a")
    have hchecked : Eval.checkStack host (word "while") m = .ok () m.checked := rfl
    have hloop : execute host call loop m = run m.checked := by
      rw [hexecute, Eval.bind_ok hchecked]
    have hmessage : message? (execute host call loop m) = none := by decide +kernel
    have hnot : ¬∃ tested, (LoopParts.of host call (some (name "a")) none again).HoldsAfter
        1 m.checked tested := by
      rintro ⟨tested, hafter⟩
      rw [hloop, (hrun.refused _ _ hafter).1] at hmessage
      cases hmessage
    obtain ⟨runs, hruns, hunlimited, _⟩ := hrun.allowed m.checked hnot
    rw [hloop]
    exact ⟨runs, hruns, hunlimited⟩

end Scriptlet
