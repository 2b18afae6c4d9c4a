import Scriptlet.Proofs.Plans
import Scriptlet.Proofs.Relocation

/-!
Bare programs: no token has a place, and an expression in parentheses is the expression itself. A
run can tell neither places nor parentheses. Programs that are the same once they are bare, on
machines whose stored code is the same once it is bare, run alike: they print the same, fail with
the same message at the same token or not at all, and leave machines that again differ in nothing
else.
-/

namespace Scriptlet

/-- Takes away the places of tokens and all groupings, and keeps all numbers. -/
def Renaming.baring : Renaming := { Renaming.erasing with grouped := false }

theorem Renaming.keepsNumbers_baring : Renaming.baring.KeepsNumbers :=
  ⟨fun _ => rfl, fun _ => rfl⟩

def Program.bare (p : Program) : Program := p.rename .baring

def Machine.bare (m : Machine) : Machine := m.rename .baring

def RuntimeError.bare (e : RuntimeError) : RuntimeError := { e with token := e.token.unplaced }

def leftBy {α : Type} : EStateM.Result RuntimeError Machine α → Machine
  | .ok _ m => m
  | .error _ m => m

def failure? {α : Type} : EStateM.Result RuntimeError Machine α → Option RuntimeError
  | .ok _ _ => none
  | .error e _ => some e

/-- Runs that differ at most in places and groupings. -/
structure RunAlike (ended ended' : EStateM.Result RuntimeError Machine Unit) : Prop where
  output : (leftBy ended').output = (leftBy ended).output
  failure : (failure? ended').map RuntimeError.bare = (failure? ended).map RuntimeError.bare
  message : message? ended' = message? ended
  machine : (leftBy ended').bare = (leftBy ended).bare

theorem runAlike_of_outcome {ended ended' : EStateM.Result RuntimeError Machine Unit}
    (h : Renaming.baring.outcome id ended' = Renaming.baring.outcome id ended) :
    RunAlike ended ended' := by
  cases ended with
  | ok _ m =>
    cases ended' with
    | error e' m' => cases h
    | ok _ m' =>
      have hm : m'.bare = m.bare := (EStateM.Result.ok.inj h).2
      have houtput := congrArg Machine.output hm
      exact ⟨houtput, rfl, rfl, hm⟩
  | error e m =>
    cases ended' with
    | ok _ m' => cases h
    | error e' m' =>
      obtain ⟨he, hm⟩ := EStateM.Result.error.inj h
      have hbare : e'.bare = e.bare := he
      have hfault := congrArg (fun d => d.fault.message) hbare
      have houtput := congrArg Machine.output hm
      exact ⟨houtput, congrArg some hbare, congrArg some hfault, hm⟩

/-- Neither the places of tokens nor groupings change what a program does, be they those of the
program or those of the code that the machine stores. -/
theorem runs_ignore_places_and_groupings (host : Host) (blind : host.natives.Blind)
    {p p' : Program} {m m' : Machine} (same_program : p'.bare = p.bare)
    (same_machine : m'.bare = m.bare) : RunAlike (host.interpret p m) (host.interpret p' m') := by
  -- either run becomes the run of the bare program on the bare machine
  have hrun : ∀ (q : Program) (n : Machine),
      Renaming.baring.outcome id (host.interpret q n) = host.interpret q.bare n.bare := by
    intro q n
    exact (Host.interpret_rename blind Renaming.keepsNumbers_baring q n).symm
  refine runAlike_of_outcome ?_
  rw [hrun, hrun, same_program, same_machine]

/-- A stored function fails in its body, with and without parentheses there and in the call. -/
theorem runs_ignore_places_and_groupings_stored_function :
    let at_ (line : Nat) (kind : Kind) (lexeme : String) : Token := ⟨kind, lexeme, none, ⟨line, 1⟩⟩
    let name (line : Nat) (lexeme : String) : Expr := .identifier (at_ line .identifier lexeme)
    let word : Expr := .literal (.string "a")
    let stored (line : Nat) (operand : Expr) : Machine :=
      { Machine.fresh (.empty none) with
        frames := ⟨#[⟨[("f", ⟨.function ⟨0, at_ line .identifier "f", [at_ line .identifier "x"],
          [.returnStmt (at_ line .returnWord "return")
            (some (.unary (at_ line .minus "-") operand))], Machine.globals⟩, false⟩)], none⟩]⟩
        nextIdentity := 1 }
    let m := stored 1 (name 1 "x")
    let m' := stored 3 (.grouping (.grouping (name 4 "x")))
    let p : Program :=
      [.print (at_ 5 .printWord "print") word,
        .expression (.call (name 5 "f") (at_ 5 .rightParen ")") [word])]
    let p' : Program :=
      [.print (at_ 7 .printWord "print") (.grouping word),
        .expression (.grouping (.call (.grouping (name 8 "f")) (at_ 9 .rightParen ")")
          [.grouping word]))]
    let host := Host.standard {} fun _ => none
    (p'.bare = p.bare ∧ m'.bare = m.bare) ∧
      failure? (host.interpret p m) = some ⟨.operandNotNumber, at_ 1 .minus "-"⟩ ∧
      failure? (host.interpret p' m') = some ⟨.operandNotNumber, at_ 3 .minus "-"⟩ ∧
      RunAlike (host.interpret p m) (host.interpret p' m') := by
  intro at_ name word stored m m' p p' host
  have hp : p'.bare = p.bare := rfl
  have hm : m'.bare = m.bare := by
    simp only [m, m', stored, Machine.bare, Machine.rename, Frames.rename, List.map_toArray]
    rfl
  refine ⟨⟨hp, hm⟩, by decide +kernel, by decide +kernel, ?_⟩
  exact runs_ignore_places_and_groupings host (Natives.blind_builtins _) hp hm

end Scriptlet
