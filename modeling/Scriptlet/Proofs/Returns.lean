import Scriptlet.Proofs.Canonical
import Scriptlet.Proofs.Restoration

/-!
Returns stay inside functions. A statement whose every `return` is inside a function that it
declares never returns itself, and all statements of a program that was read are such. So a program
of two parts runs the second where the first ends well, and only then.
-/

namespace Scriptlet

mutual

/-- Whether every `return` in a statement is inside a function that is declared there. -/
def Stmt.NoReturn : Stmt → Prop
  | .block body => Stmt.NoReturnAll body
  | .conditional _ thenBranch elseBranch => thenBranch.NoReturn ∧ Stmt.NoReturnIfAny elseBranch
  | .whileLoop _ _ body => body.NoReturn
  | .forLoop _ initializer _ _ body => Stmt.NoReturnIfAny initializer ∧ body.NoReturn
  | .returnStmt _ _ => False
  | _ => True

def Stmt.NoReturnIfAny : Option Stmt → Prop
  | some s => s.NoReturn
  | none => True

def Stmt.NoReturnAll : List Stmt → Prop
  | [] => True
  | s :: ss => s.NoReturn ∧ Stmt.NoReturnAll ss

end

mutual

theorem Stmt.noReturn_of_canonical : (s : Stmt) → s.Canonical false → s.NoReturn
  | .expression _, _ => trivial
  | .print _ _, _ => trivial
  | .block body, h => Stmt.noReturnAll_of_canonical body h
  | .conditional _ thenBranch elseBranch, h =>
    ⟨thenBranch.noReturn_of_canonical h.2.2.1, Stmt.noReturn_of_branch elseBranch h.2.2.2.2⟩
  | .whileLoop _ _ body, h => body.noReturn_of_canonical h.2.2.2
  | .forLoop _ initializer _ _ body, h =>
    ⟨Stmt.noReturn_of_first initializer h.2.1, body.noReturn_of_canonical h.2.2.2.2.2⟩
  | .variableDecl _ _ _, _ => trivial
  | .functionDecl _ _ _, _ => trivial
  | .returnStmt _ _, h => absurd h.1 Bool.false_ne_true

theorem Stmt.noReturn_of_branch : (o : Option Stmt) → Stmt.BranchCanonical false o →
    Stmt.NoReturnIfAny o
  | some branch, h => branch.noReturn_of_canonical h.2
  | none, _ => trivial

theorem Stmt.noReturn_of_first : (o : Option Stmt) → Stmt.FirstCanonical false o →
    Stmt.NoReturnIfAny o
  | some first, h => first.noReturn_of_canonical h.2
  | none, _ => trivial

theorem Stmt.noReturnAll_of_canonical : (ss : List Stmt) → Stmt.AllCanonical false ss →
    Stmt.NoReturnAll ss
  | [], _ => trivial
  | s :: ss, h => ⟨s.noReturn_of_canonical h.1, Stmt.noReturnAll_of_canonical ss h.2⟩

end

namespace Eval

variable {α β : Type}

/-- Whether the result of a run is as `P` says, if there is one. -/
def Yields (run : Eval α) (P : α → Prop) : Prop :=
  ∀ m x after, run m = .ok x after → P x

theorem yields_pure {P : α → Prop} {x : α} (h : P x) : Yields (pure x) P := by
  rintro m _ _ ⟨rfl, rfl⟩
  exact h

theorem yields_raise {P : α → Prop} (fault : Fault) (token : Token) :
    Yields (Eval.raise fault token) P := by
  rintro m _ _ ⟨⟩

theorem Yields.bind {run : Eval α} {next : α → Eval β} {P : α → Prop} {Q : β → Prop}
    (h : run.Yields P) (k : ∀ x, P x → (next x).Yields Q) : (run >>= next).Yields Q := by
  intro m y after hy
  cases hr : run m with
  | ok x middle =>
    rw [Eval.bind_ok hr] at hy
    exact k x (h m x middle hr) middle y after hy
  | error e middle =>
    rw [Eval.bind_error hr] at hy
    cases hy

theorem yields_then (run : Eval α) {next : α → Eval β} {Q : β → Prop}
    (k : ∀ x, (next x).Yields Q) : (run >>= next).Yields Q :=
  Yields.bind (P := fun _ => True) (fun _ _ _ _ => trivial) fun x _ => k x

theorem Yields.inScope {run : Eval α} {P : α → Prop} (h : run.Yields P) :
    (Eval.inScope run).Yields P := by
  intro m x after hx
  unfold Eval.inScope Eval.inFrame at hx
  dsimp only at hx
  split at hx
  · rename_i y middle hr
    cases hx
    exact h _ _ _ hr
  · cases hx

end Eval

abbrev Eval.GoesOn (run : Eval Flow) : Prop := run.Yields (· = .normal)

open Eval

theorem runLoop_goesOn {limit : Nat} {keyword : Token} {condition : Eval Bool} {body : Eval Flow}
    {increment : Eval Unit} (h : body.GoesOn) (rounds : Nat) :
    (runLoop limit keyword condition body increment rounds).GoesOn := by
  induction rounds with
  | zero =>
    refine yields_then _ fun again => ?_
    cases again with
    | true => exact yields_raise _ _
    | false => exact yields_pure rfl
  | succ rounds ih =>
    refine yields_then _ fun again => ?_
    cases again with
    | true =>
      refine h.bind fun flow hflow => ?_
      subst hflow
      exact yields_then _ fun _ => ih
    | false => exact yields_pure rfl

section Execution

variable (host : Host) (call : Caller)

mutual

theorem execute_goesOn : (s : Stmt) → s.NoReturn → (execute host call s).GoesOn
  | .expression value, _ => by
    rw [execute]
    exact yields_then _ fun _ => yields_pure rfl
  | .print keyword value, _ => by
    rw [execute]
    exact yields_then _ fun _ => yields_then _ fun _ => yields_pure rfl
  | .block body, h => by
    rw [execute]
    exact (executeAll_goesOn body h).inScope
  | .conditional condition thenBranch elseBranch, h => by
    rw [execute_conditional]
    refine yields_then _ fun value => ?_
    split
    · exact execute_goesOn thenBranch h.1
    · exact executeIfAny_goesOn elseBranch h.2
  | .whileLoop keyword condition body, h => by
    rw [execute]
    exact yields_then _ fun _ => runLoop_goesOn (execute_goesOn body h) _
  | .forLoop keyword initializer condition increment body, h => by
    rw [execute_forLoop]
    refine yields_then _ fun _ => Yields.inScope ?_
    exact yields_then _ fun _ => runLoop_goesOn (execute_goesOn body h.2) _
  | .variableDecl name initializer constant, _ => by
    rw [execute]
    exact yields_then _ fun _ => yields_then _ fun _ => yields_then _ fun _ => yields_pure rfl
  | .functionDecl name parameters body, _ => by
    rw [execute]
    exact yields_then _ fun _ => yields_then _ fun _ => yields_then _ fun _ => yields_pure rfl

theorem executeIfAny_goesOn : (o : Option Stmt) → Stmt.NoReturnIfAny o →
    (executeIfAny host call o).GoesOn
  | some s, h => execute_goesOn s h
  | none, _ => yields_pure rfl

theorem executeAll_goesOn : (ss : List Stmt) → Stmt.NoReturnAll ss →
    (executeAll host call ss).GoesOn
  | [], _ => by
    rw [executeAll]
    exact yields_pure rfl
  | s :: ss, h => by
    rw [executeAll]
    refine (execute_goesOn s h.1).bind fun flow hflow => ?_
    subst hflow
    exact executeAll_goesOn ss h.2

end

theorem executeAll_append : (ss : List Stmt) → Stmt.NoReturnAll ss → (more : List Stmt) →
    executeAll host call (ss ++ more) =
      executeAll host call ss >>= fun _ => executeAll host call more
  | [], _, more => by
    rw [List.nil_append, executeAll]
    rfl
  | s :: ss, h, more => by
    rw [List.cons_append, executeAll, executeAll]
    funext m
    cases hs : execute host call s m with
    | error e after => rw [bind_error hs, bind_error (bind_error hs)]
    | ok flow after =>
      obtain rfl := execute_goesOn host call s h.1 m flow after hs
      rw [bind_ok hs, executeAll_append ss h.2 more]
      simp only [bind_assoc, bind_ok hs]

end Execution

/-- A program of two parts runs the second where the first ends well. -/
theorem Host.interpret_append (host : Host) {p : Program} (h : Stmt.NoReturnAll p) (q : Program) :
    host.interpret (p ++ q) = host.interpret p >>= fun _ => host.interpret q := by
  funext m
  unfold Host.interpret
  rw [executeAll_append _ _ p h]
  have hwatched : Machine.Restored { m with watched := true }
      ((executeAll host host.call p).after { m with watched := true }) :=
    host.restored_executeAll _ p _
  cases hp : executeAll host host.call p { m with watched := true } with
  | error e middle => rw [bind_error (asProgram_error hp), asProgram_error (bind_error hp)]
  | ok flow middle =>
    -- the second part goes on where the first stopped, since the stack was watched all the time
    rw [Eval.after_ok hp] at hwatched
    let between : Machine := { middle with watched := m.watched }
    have hbetween : { between with watched := true } = middle := by
      have htrue : middle.watched = true := hwatched.watched
      rw [← htrue]
    have hgoes := congrArg (executeAll host host.call q) hbetween
    rw [bind_ok (asProgram_ok hp)]
    cases hq : executeAll host host.call q middle with
    | ok last after =>
      exact (asProgram_ok ((bind_ok hp).trans hq)).trans
        (asProgram_ok (m := between) (hgoes.trans hq)).symm
    | error e after =>
      exact (asProgram_error ((bind_ok hp).trans hq)).trans
        (asProgram_error (m := between) (hgoes.trans hq)).symm

end Scriptlet
