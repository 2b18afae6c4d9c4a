import Scriptlet.Proofs.Plans
import Scriptlet.Session

/-!
Limits only cut runs short. Settings that allow more change nothing about a run that no limit ended:
it has the same result, prints the same and leaves the same frames. So does more stack. The proof
follows the two runs side by side. They are in the same state until a guard of the stricter host
refuses to go on, and then the stricter run is over, because no program can go on after an error.
-/

namespace Scriptlet

/-- Whether it is a limit that was reached, rather than a mistake in what runs. -/
def Fault.isLimit : Fault → Bool
  | .stackOverflow => true
  | .loopLimit _ => true
  | .builtinRedefinition _ => true
  | _ => false

inductive LimitMessage : String → Prop where
  | calls : LimitMessage "Stack overflow."
  | rounds (limit : Nat) : LimitMessage s!"Loop exceeded maximum of {limit} iterations."
  | builtins (name : String) : LimitMessage s!"Cannot redefine builtin '{name}'."

theorem LimitMessage.head {text : String} (h : LimitMessage text) :
    ∃ first ∈ ['S', 'L', 'C'], text.toList.head? = some first := by
  cases h with
  | calls => exact ⟨'S', by decide, rfl⟩
  | rounds limit =>
    refine ⟨'L', by decide, ?_⟩
    simp only [String.toList_append, List.append_assoc]
    rfl
  | builtins name =>
    refine ⟨'C', by decide, ?_⟩
    simp only [String.toList_append, List.append_assoc]
    rfl

theorem Fault.limitMessage {fault : Fault} (h : fault.isLimit = true) :
    LimitMessage fault.message := by
  cases fault with
  | stackOverflow => exact .calls
  | loopLimit limit => exact .rounds limit
  | builtinRedefinition name => exact .builtins name
  | _ => cases h

/-- Whether whatever the first settings allow, the second allow as well. -/
structure Settings.Stricter (strict loose : Settings) : Prop where
  loops : loose.maxLoopIterations = 0 ∨
    strict.maxLoopIterations ≠ 0 ∧ strict.maxLoopIterations ≤ loose.maxLoopIterations
  calls : strict.maxCallDepth ≤ loose.maxCallDepth
  shadowing : strict.allowBuiltinShadowing = true → loose.allowBuiltinShadowing = true

theorem Settings.Stricter.roundLimit_le {strict loose : Settings} (h : strict.Stricter loose) :
    strict.roundLimit ≤ loose.roundLimit := by
  have hbound : ∀ settings : Settings, settings.roundLimit ≤ Settings.unlimitedRounds := by
    intro settings
    unfold Settings.roundLimit
    split
    · exact Nat.le_refl _
    · exact Nat.le_of_lt (UInt64.toNat_lt_size _)
  rcases h.loops with hzero | ⟨hne, hle⟩
  · have hloose : loose.roundLimit = Settings.unlimitedRounds := if_pos hzero
    rw [hloose]
    exact hbound strict
  · have hstrict : strict.roundLimit = strict.maxLoopIterations.toNat := if_neg hne
    rw [hstrict]
    unfold Settings.roundLimit
    split
    · exact Nat.le_of_lt (UInt64.toNat_lt_size _)
    · exact UInt64.le_iff_toNat_le.1 hle

def isCut {α : Type} : EStateM.Result RuntimeError Machine α → Bool
  | .ok _ _ => false
  | .error e _ => e.fault.isLimit

/-- A run that ends well, or with a message that does not tell of a limit, was not cut. -/
theorem isCut_eq_false {α : Type} {result : EStateM.Result RuntimeError Machine α}
    (h : ∀ text ∈ message? result, ¬LimitMessage text) : isCut result = false := by
  cases result with
  | ok x after => rfl
  | error e after =>
    cases hlimit : e.fault.isLimit with
    | false => exact hlimit
    | true => exact absurd (Fault.limitMessage hlimit) (h _ rfl)

/-- Whether whatever the first host allows, the second allows as well; they have the same functions.
-/
structure Host.Stricter (strict loose : Host) : Prop where
  settings : strict.settings.Stricter loose.settings
  natives : loose.natives = strict.natives
  stack : ∀ check depth, strict.stack check depth = true → loose.stack check depth = true

namespace Eval

/-- Whether a run that may go further is the same unless a limit ends the shorter one. -/
def ProlongedBy {α : Type} (short long : Eval α) : Prop :=
  ∀ m, isCut (short m) = false → long m = short m

namespace ProlongedBy

variable {α β : Type} {short long : Eval α}

theorem refl (run : Eval α) : run.ProlongedBy run := by
  intro m _
  rfl

theorem raise {fault : Fault} (hlimit : fault.isLimit = true) (token : Token) (long : Eval α) :
    (Eval.raise fault token : Eval α).ProlongedBy long := by
  intro m huncut
  have hcut : isCut ((Eval.raise fault token : Eval α) m) = true := hlimit
  rw [hcut] at huncut
  cases huncut

theorem bind {next next' : α → Eval β} (h : short.ProlongedBy long)
    (k : ∀ x, (next x).ProlongedBy (next' x)) :
    (short >>= next).ProlongedBy (long >>= next') := by
  intro m huncut
  cases hs : short m with
  | error e after =>
    rw [bind_error hs] at huncut ⊢
    have hl : long m = .error e after := by
      rw [h m (by rw [hs]; exact huncut), hs]
    exact bind_error hl
  | ok x after =>
    rw [bind_ok hs] at huncut ⊢
    have hl : long m = .ok x after := by
      rw [h m (by rw [hs]; rfl), hs]
    rw [bind_ok hl]
    exact k x after huncut

theorem map (h : short.ProlongedBy long) (f : α → β) :
    (f <$> short).ProlongedBy (f <$> long) := by
  rw [← bind_pure_comp f short, ← bind_pure_comp f long]
  exact h.bind fun x => refl (pure (f x))

theorem discard (h : short.ProlongedBy long) :
    (discard short).ProlongedBy (discard long) :=
  h.map _

theorem inFrame (h : short.ProlongedBy long) (frame : Frame) :
    (Eval.inFrame frame short).ProlongedBy (Eval.inFrame frame long) := by
  intro m huncut
  cases hs : short (m.entering frame) with
  | ok x after =>
    have hl : long (m.entering frame) = .ok x after := by
      rw [h _ (by rw [hs]; rfl), hs]
    rw [inFrame_ok hl, inFrame_ok hs]
  | error e after =>
    rw [inFrame_error hs] at huncut
    have hl : long (m.entering frame) = .error e after := by
      rw [h _ (by rw [hs]; exact huncut), hs]
    rw [inFrame_error hl, inFrame_error hs]

theorem inScope (h : short.ProlongedBy long) :
    (Eval.inScope short).ProlongedBy (Eval.inScope long) := by
  intro m huncut
  exact h.inFrame ⟨[], some m.scope⟩ m huncut

theorem inCall (h : short.ProlongedBy long) :
    (Eval.inCall short).ProlongedBy (Eval.inCall long) := by
  intro m huncut
  cases hs : short { m with depth := m.depth + 1 } with
  | ok x after =>
    have hl : long { m with depth := m.depth + 1 } = .ok x after := by
      rw [h _ (by rw [hs]; rfl), hs]
    rw [inCall_ok hl, inCall_ok hs]
  | error e after =>
    rw [inCall_error hs] at huncut
    have hl : long { m with depth := m.depth + 1 } = .error e after := by
      rw [h _ (by rw [hs]; exact huncut), hs]
    rw [inCall_error hl, inCall_error hs]

theorem asProgram {short long : Eval Flow} (h : short.ProlongedBy long) :
    short.asProgram.ProlongedBy long.asProgram := by
  intro m huncut
  have hinside : isCut (short { m with watched := true }) = false := by
    unfold Eval.asProgram at huncut
    cases hs : short { m with watched := true } with
    | ok x after => rfl
    | error e after =>
      rw [hs] at huncut
      exact huncut
  unfold Eval.asProgram
  rw [h _ hinside]

end ProlongedBy

variable {strict loose : Host}

theorem prolongedBy_guardBuiltin (hloose : strict.Stricter loose) (name : Token) :
    (guardBuiltin strict.settings name).ProlongedBy (guardBuiltin loose.settings name) := by
  intro m huncut
  unfold guardBuiltin at huncut ⊢
  split at huncut
  · cases huncut
  next hallowed =>
    rw [if_neg hallowed, if_neg]
    intro hrefused
    apply hallowed
    simp only [Bool.and_eq_true, Bool.not_eq_true', decide_eq_true_eq] at hrefused ⊢
    obtain ⟨⟨hforbidden, hglobal⟩, hreserved⟩ := hrefused
    refine ⟨⟨?_, hglobal⟩, hreserved⟩
    cases hs : strict.settings.allowBuiltinShadowing with
    | false => rfl
    | true =>
      rw [hloose.settings.shadowing hs] at hforbidden
      cases hforbidden

theorem prolongedBy_checkStack (hloose : strict.Stricter loose) (token : Token) :
    (checkStack strict token).ProlongedBy (checkStack loose token) := by
  intro m huncut
  unfold checkStack at huncut ⊢
  dsimp only at huncut ⊢
  split at huncut
  next hholds =>
    rw [if_pos hholds, if_pos]
    simp only [Bool.or_eq_true] at hholds ⊢
    exact hholds.imp_right (hloose.stack _ _)
  next => cases huncut

theorem prolongedBy_guardCall (hloose : strict.Stricter loose) (paren : Token) :
    (guardCall strict paren).ProlongedBy (guardCall loose paren) := by
  have hdepth : (guardDepth strict.settings paren).ProlongedBy
      (guardDepth loose.settings paren) := by
    intro m huncut
    have hle : strict.settings.maxCallDepth.toNat ≤ loose.settings.maxCallDepth.toNat :=
      UInt64.le_iff_toNat_le.1 hloose.settings.calls
    unfold guardDepth at huncut ⊢
    split at huncut
    · cases huncut
    next hroom => rw [if_neg hroom, if_neg (by omega)]
  exact hdepth.bind fun _ => prolongedBy_checkStack hloose paren

theorem prolongedBy_applyNative (hloose : strict.Stricter loose) (paren : Token) (code : Nat)
    (arguments : List Value) :
    (applyNative strict paren code arguments).ProlongedBy
      (applyNative loose paren code arguments) := by
  intro m _
  unfold applyNative
  rw [hloose.natives]

end Eval

/-- Whether calls are prolonged by those of another caller. -/
def Caller.ProlongedBy (short long : Caller) : Prop :=
  ∀ callee paren arguments,
    (short callee paren arguments).ProlongedBy (long callee paren arguments)

open Eval (ProlongedBy)

variable {short long : Caller} {strict loose : Host}

mutual

theorem evaluate_prolonged (hloose : strict.Stricter loose) (hcall : short.ProlongedBy long) :
    (e : Expr) → (evaluate strict short e).ProlongedBy (evaluate loose long e)
  | .literal value => ProlongedBy.refl _
  | .identifier name => ProlongedBy.refl _
  | .grouping inner => by
    simpa [evaluate] using evaluate_prolonged hloose hcall inner
  | .unary operator operand => by
    apply (Eval.prolongedBy_checkStack hloose operator).bind
    intro _
    apply (evaluate_prolonged hloose hcall operand).bind
    intro value
    exact ProlongedBy.refl _
  | .binary left operator right => by
    apply (Eval.prolongedBy_checkStack hloose operator).bind
    intro _
    apply (evaluate_prolonged hloose hcall left).bind
    intro l
    apply (evaluate_prolonged hloose hcall right).bind
    intro r
    exact ProlongedBy.refl _
  | .logical left operator right => by
    apply (Eval.prolongedBy_checkStack hloose operator).bind
    intro _
    apply (evaluate_prolonged hloose hcall left).bind
    intro l
    apply (ProlongedBy.refl _).bind
    intro decided
    cases decided with
    | true => exact ProlongedBy.refl _
    | false => exact evaluate_prolonged hloose hcall right
  | .assignment name value => by
    apply (Eval.prolongedBy_checkStack hloose name).bind
    intro _
    apply (evaluate_prolonged hloose hcall value).bind
    intro v
    exact ProlongedBy.refl _
  | .call callee paren arguments => by
    apply (Eval.prolongedBy_checkStack hloose paren).bind
    intro _
    apply (evaluate_prolonged hloose hcall callee).bind
    intro c
    apply (evaluateAll_prolonged hloose hcall arguments).bind
    intro vs
    exact hcall c paren vs

theorem evaluateAll_prolonged (hloose : strict.Stricter loose) (hcall : short.ProlongedBy long) :
    (es : List Expr) → (evaluateAll strict short es).ProlongedBy (evaluateAll loose long es)
  | [] => ProlongedBy.refl _
  | e :: es => by
    apply (evaluate_prolonged hloose hcall e).bind
    intro v
    apply (evaluateAll_prolonged hloose hcall es).bind
    intro vs
    exact ProlongedBy.refl _

end

theorem evaluateOr_prolonged (hloose : strict.Stricter loose) (hcall : short.ProlongedBy long)
    (absent : Value) : (o : Option Expr) →
    (evaluateOr strict short absent o).ProlongedBy (evaluateOr loose long absent o)
  | some e => evaluate_prolonged hloose hcall e
  | none => ProlongedBy.refl _

theorem runLoop_prolonged (limit limit' : Nat) (keyword : Token) {condition condition' : Eval Bool}
    {body body' : Eval Flow} {increment increment' : Eval Unit}
    (hcondition : condition.ProlongedBy condition') (hbody : body.ProlongedBy body')
    (hincrement : increment.ProlongedBy increment') : (rounds rounds' : Nat) → rounds ≤ rounds' →
    (runLoop limit keyword condition body increment rounds).ProlongedBy
      (runLoop limit' keyword condition' body' increment' rounds')
  | 0, rounds', _ => by
    -- no round is left: either the condition ends the loop, or the limit does
    cases rounds' with
    | zero =>
      apply hcondition.bind
      intro holds
      cases holds with
      | true => exact ProlongedBy.raise rfl keyword _
      | false => exact ProlongedBy.refl _
    | succ rounds' =>
      apply hcondition.bind
      intro holds
      cases holds with
      | true => exact ProlongedBy.raise rfl keyword _
      | false => exact ProlongedBy.refl _
  | rounds + 1, 0, hle => absurd hle (Nat.not_succ_le_zero rounds)
  | rounds + 1, rounds' + 1, hle => by
    apply hcondition.bind
    intro holds
    cases holds with
    | false => exact ProlongedBy.refl _
    | true =>
      apply hbody.bind
      intro flow
      cases flow with
      | returning value => exact ProlongedBy.refl _
      | normal =>
        apply hincrement.bind
        intro _
        exact runLoop_prolonged limit limit' keyword hcondition hbody hincrement rounds rounds'
          (Nat.le_of_succ_le_succ hle)

mutual

theorem execute_prolonged (hloose : strict.Stricter loose) (hcall : short.ProlongedBy long) :
    (s : Stmt) → (execute strict short s).ProlongedBy (execute loose long s)
  | .expression value => by
    apply (evaluate_prolonged hloose hcall value).discard.bind
    intro _
    exact ProlongedBy.refl _
  | .print keyword value => by
    apply (evaluate_prolonged hloose hcall value).bind
    intro v
    exact ProlongedBy.refl _
  | .block body => by
    simp only [execute]
    exact (executeAll_prolonged hloose hcall body).inScope
  | .conditional condition thenBranch elseBranch => by
    rw [execute_conditional, execute_conditional]
    apply (evaluate_prolonged hloose hcall condition).bind
    intro v
    cases v.isTruthy with
    | true => exact execute_prolonged hloose hcall thenBranch
    | false => exact executeIfAny_prolonged hloose hcall elseBranch
  | .whileLoop keyword condition body => by
    simp only [execute]
    apply (Eval.prolongedBy_checkStack hloose keyword).bind
    intro _
    exact runLoop_prolonged _ _ keyword ((evaluate_prolonged hloose hcall condition).map _)
      (execute_prolonged hloose hcall body) (ProlongedBy.refl _) _ _ hloose.settings.roundLimit_le
  | .forLoop keyword initializer condition increment body => by
    rw [execute_forLoop, execute_forLoop]
    apply (Eval.prolongedBy_checkStack hloose keyword).bind
    intro _
    apply ProlongedBy.inScope
    apply (executeIfAny_prolonged hloose hcall initializer).discard.bind
    intro _
    exact runLoop_prolonged _ _ keyword ((evaluateOr_prolonged hloose hcall _ condition).map _)
      (execute_prolonged hloose hcall body)
      (evaluateOr_prolonged hloose hcall _ increment).discard _ _
      hloose.settings.roundLimit_le
  | .variableDecl name initializer constant => by
    apply (Eval.prolongedBy_guardBuiltin hloose name).bind
    intro _
    apply (evaluateOr_prolonged hloose hcall _ initializer).bind
    intro v
    exact ProlongedBy.refl _
  | .functionDecl name parameters body => by
    apply (Eval.prolongedBy_guardBuiltin hloose name).bind
    intro _
    exact ProlongedBy.refl _
  | .returnStmt _ value => by
    simp only [execute]
    exact (evaluateOr_prolonged hloose hcall _ value).map _

theorem executeIfAny_prolonged (hloose : strict.Stricter loose) (hcall : short.ProlongedBy long) :
    (o : Option Stmt) → (executeIfAny strict short o).ProlongedBy (executeIfAny loose long o)
  | some s => execute_prolonged hloose hcall s
  | none => ProlongedBy.refl _

theorem executeAll_prolonged (hloose : strict.Stricter loose) (hcall : short.ProlongedBy long) :
    (ss : List Stmt) → (executeAll strict short ss).ProlongedBy (executeAll loose long ss)
  | [] => ProlongedBy.refl _
  | s :: ss => by
    apply (execute_prolonged hloose hcall s).bind
    intro flow
    cases flow with
    | returning value => exact ProlongedBy.refl _
    | normal => exact executeAll_prolonged hloose hcall ss

end

theorem callValue_prolonged (hloose : strict.Stricter loose) :
    (calls calls' : Nat) → calls ≤ calls' →
    (callValue strict calls).ProlongedBy (callValue loose calls')
  | calls, calls', _, .native f, paren, arguments => by
    rw [callValue_native, callValue_native]
    apply (ProlongedBy.refl _).bind
    intro _
    apply (Eval.prolongedBy_guardCall hloose paren).bind
    intro _
    exact (Eval.prolongedBy_applyNative hloose paren f.code arguments).inCall
  | 0, calls', _, .function f, paren, arguments => by
    cases calls' with
    | zero =>
      apply (ProlongedBy.refl _).bind
      intro _
      apply (Eval.prolongedBy_guardCall hloose paren).bind
      intro _
      exact ProlongedBy.raise rfl paren _
    | succ calls' =>
      apply (ProlongedBy.refl _).bind
      intro _
      apply (Eval.prolongedBy_guardCall hloose paren).bind
      intro _
      exact ProlongedBy.raise rfl paren _
  | calls + 1, 0, hle, .function f, _, _ => absurd hle (Nat.not_succ_le_zero calls)
  | calls + 1, calls' + 1, hle, .function f, paren, arguments => by
    have hbody := executeAll_prolonged hloose
      (callValue_prolonged hloose calls calls' (Nat.le_of_succ_le_succ hle)) f.body
    rw [callValue_function, callValue_function]
    apply (ProlongedBy.refl _).bind
    intro _
    apply (Eval.prolongedBy_guardCall hloose paren).bind
    intro _
    apply (hbody.inFrame (f.frame arguments)).inCall.bind
    intro flow
    exact ProlongedBy.refl _
  | calls, calls', _, .nil, _, _ => by
    cases calls <;> cases calls' <;> exact ProlongedBy.refl _
  | calls, calls', _, .boolean _, _, _ => by
    cases calls <;> cases calls' <;> exact ProlongedBy.refl _
  | calls, calls', _, .number _, _, _ => by
    cases calls <;> cases calls' <;> exact ProlongedBy.refl _
  | calls, calls', _, .string _, _, _ => by
    cases calls <;> cases calls' <;> exact ProlongedBy.refl _

/-- A program that ends well, or with a message that does not tell of a limit, ends in the same way,
with the same output and the same frames, under settings that allow more and with more stack. -/
theorem interpret_of_looser_limits (strict loose : Host) (looser : strict.Stricter loose)
    (program : Program) (m : Machine)
    (uncut : ∀ text ∈ message? (strict.interpret program m), ¬LimitMessage text) :
    loose.interpret program m = strict.interpret program m := by
  have hcalls : strict.settings.maxCallDepth.toNat ≤ loose.settings.maxCallDepth.toNat :=
    UInt64.le_iff_toNat_le.1 looser.settings.calls
  have hprolonged := executeAll_prolonged looser (callValue_prolonged looser _ _ hcalls) program
  exact hprolonged.asProgram m (isCut_eq_false uncut)

/-- One round and one call are as many as this program needs, and as many as it may make. It ends
with an error of its own, and so it does if there is no limit to rounds and the stack holds more. -/
theorem interpret_of_looser_limits_one_round :
    let word (lexeme : String) : Token := ⟨.identifier, lexeme, none, ⟨1, 1⟩⟩
    let stop : Stmt := .expression (.assignment (word "go") (.literal (.boolean false)))
    let program : Program :=
      [.functionDecl (word "f") [] [stop],
        .variableDecl (word "go") (some (.literal (.boolean true))) false,
        .whileLoop (word "while") (.identifier (word "go"))
          (.expression (.call (.identifier (word "f")) (word ")") [])),
        .print (word "print") (.identifier (word "missing"))]
    let strict : Host := ⟨{ maxLoopIterations := 1, maxCallDepth := 1 }, .builtins fun _ => none,
      fun _ depth => depth < 2⟩
    let loose : Host := ⟨{ maxLoopIterations := 0, allowBuiltinShadowing := true },
      .builtins fun _ => none, fun _ _ => true⟩
    let m := (Machine.fresh (.empty none)).installBuiltins
    strict.Stricter loose ∧
      (∀ text ∈ message? (strict.interpret program m), ¬LimitMessage text) ∧
      loose.interpret program m = strict.interpret program m := by
  intro word stop program strict loose m
  have hstricter : strict.Stricter loose :=
    ⟨⟨.inl rfl, by decide, by decide⟩, rfl, fun _ _ _ => rfl⟩
  have hmessage : message? (strict.interpret program m) = some "Undefined variable 'missing'." := by
    decide +kernel
  have huncut : ∀ text ∈ message? (strict.interpret program m), ¬LimitMessage text := by
    intro text htext hlimit
    obtain rfl := Option.some.inj (hmessage.symm.trans htext)
    obtain ⟨first, hmem, hhead⟩ := hlimit.head
    have hfirst : some 'U' = some first := hhead
    cases hfirst
    revert hmem
    decide
  exact ⟨hstricter, huncut, interpret_of_looser_limits strict loose hstricter program m huncut⟩

end Scriptlet
