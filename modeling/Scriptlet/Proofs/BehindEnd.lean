import Scriptlet.Proofs.ParsingEnds

/-!
Nothing behind the first end of input is read. States that differ only in tokens behind it cannot be
told apart by a single step, and no step moves past it. So two readings of token lists that agree up
to the first end of input go through the same steps and give the same answer, whatever they are
reading and however often they fail and go on.
-/

namespace Scriptlet

namespace Descent

/-- Whether two states differ at most in tokens behind the first end of input. -/
structure State.Alike (s s' : State) : Prop where
  inside : s.Inside
  tokens : ∀ i ≤ s.last, s'.tokens[i]? = s.tokens[i]?
  current : s'.current = s.current
  errors : s'.errors = s.errors
  functions : s'.functions = s.functions
  nesting : s'.nesting = s.nesting

inductive Event.Alike : Event → Event → Prop where
  | reached {s s' : State} (h : s.Alike s') : Alike (.reached s) (.reached s')
  | lost (brace : Token) : Alike (.lost brace) (.lost brace)

/-- Whether two runs end in the same way, in states that are alike. -/
inductive EndAlike {α : Type} :
    EStateM.Result SyntaxError State α → EStateM.Result SyntaxError State α → Prop where
  | ok (x : α) {s s' : State} (h : s.Alike s') : EndAlike (.ok x s) (.ok x s')
  | error (e : SyntaxError) {s s' : State} (h : s.Alike s') : EndAlike (.error e s) (.error e s')

section Steps

variable {α β : Type} {s s' u : State}

theorem State.Alike.peek (h : s.Alike s') : s'.tokens[s'.current]? = s.tokens[s.current]? := by
  rw [h.current]
  exact h.tokens s.current h.inside.current

theorem State.Inside.current_lt (h : s.Inside) {t : Token} (ht : s.tokens[s.current]? = some t)
    (hkind : t.kind ≠ .endOfInput) : s.current < s.last := by
  have hcurrent := h.current_eq
  rw [h.getElem?_current] at ht
  obtain rfl := Option.some.inj ht
  cases hahead : s.cursor.ahead with
  | nil =>
    rw [Cursor.peek, hahead] at hkind
    exact absurd h.kind_finish hkind
  | cons t rest =>
    rw [hahead, List.length_cons] at hcurrent
    omega

theorem State.Alike.nested (h : s.Alike s') (f : Nat → Nat) :
    ({ s with nesting := f s.nesting } : State).Alike { s' with nesting := f s'.nesting } :=
  ⟨⟨h.inside.ended, h.inside.current⟩, h.tokens, h.current, h.errors, h.functions,
    congrArg f h.nesting⟩

theorem State.Alike.inFunctions (h : s.Alike s') (f : Nat → Nat) :
    ({ s with functions := f s.functions } : State).Alike
      { s' with functions := f s'.functions } :=
  ⟨⟨h.inside.ended, h.inside.current⟩, h.tokens, h.current, h.errors, congrArg f h.functions,
    h.nesting⟩

/-- No step can tell states apart that are alike, and what it leaves is alike. -/
theorem Action.perform_alike {action : Action β} {y : β} (h : s.Alike s')
    (performed : action.perform s = some (y, u)) :
    ∃ u', action.perform s' = some (y, u') ∧ u.Alike u' := by
  cases action with
  | peek =>
    obtain ⟨t, ht, heq⟩ := Option.map_eq_some_iff.1 performed
    cases heq
    exact ⟨s', by rw [Action.perform, h.peek, ht]; rfl, h⟩
  | take =>
    obtain ⟨t, ht, heq⟩ := Option.map_eq_some_iff.1 performed
    cases heq
    refine ⟨_, by rw [Action.perform, h.peek, ht]; rfl, ?_⟩
    split
    · exact h
    · next hkind =>
      exact ⟨⟨h.inside.ended, h.inside.current_lt ht hkind⟩, h.tokens,
        congrArg Nat.succ h.current, h.errors, h.functions, h.nesting⟩
  | record e =>
    cases performed
    exact ⟨_, rfl, ⟨h.inside.ended, h.inside.current⟩, h.tokens, h.current,
      congrArg (· ++ [e]) h.errors, h.functions, h.nesting⟩
  | nesting =>
    cases performed
    exact ⟨s', by rw [Action.perform, h.nesting], h⟩
  | enter =>
    cases performed
    exact ⟨_, rfl, h.nested (· + 1)⟩
  | leave =>
    cases performed
    exact ⟨_, rfl, h.nested (· - 1)⟩
  | functions =>
    cases performed
    exact ⟨s', by rw [Action.perform, h.functions], h⟩
  | enterFunction =>
    cases performed
    exact ⟨_, rfl, h.inFunctions (· + 1)⟩
  | leaveFunction =>
    cases performed
    exact ⟨_, rfl, h.inFunctions (· - 1)⟩

end Steps

section Runs

variable {α : Type} {s s' : State}

/-- From states that are alike a code runs in the same steps to the same end. -/
theorem Runs.alike {code : Code α} {events : List Event}
    {result : EStateM.Result SyntaxError State α} (h : Runs code s events result)
    (hs : s.Alike s') :
    ∃ events' result', Runs code s' events' result' ∧
      List.Forall₂ Event.Alike events events' ∧ EndAlike result result' := by
  induction h generalizing s' with
  | done x s => exact ⟨[], _, .done x s', .nil, .ok x hs⟩
  | raise e s => exact ⟨[], _, .raise e s', .nil, .error e hs⟩
  | act performed _ ih =>
    obtain ⟨u', performed', hu⟩ := Action.perform_alike hs performed
    obtain ⟨events', result', hruns, hevents, hend⟩ := ih hu
    exact ⟨_, result', .act performed' hruns, .cons (.reached hu) hevents, hend⟩
  | lose _ ih =>
    obtain ⟨events', result', hruns, hevents, hend⟩ := ih hs
    exact ⟨_, result', .lose hruns, .cons (.lost _) hevents, hend⟩
  | returned _ _ ih ih' =>
    obtain ⟨events', _, hcalled, hevents, hend⟩ := ih hs
    cases hend with
    | ok _ hu =>
      obtain ⟨more', result', hruns, hmore, hend⟩ := ih' hu
      exact ⟨_, result', .returned hcalled hruns, List.rel_append hevents hmore, hend⟩
  | failed _ _ ih ih' =>
    obtain ⟨events', _, hcalled, hevents, hend⟩ := ih hs
    cases hend with
    | error _ hu =>
      obtain ⟨more', result', hruns, hmore, hend⟩ := ih' hu
      exact ⟨_, result', .failed hcalled hruns, List.rel_append hevents hmore, hend⟩

end Runs

section Answers

variable {α : Type} {r : Routine α} {tokens tokens' : List Token}
  {answer answer' : Except (List SyntaxError) α}

def settled : EStateM.Result SyntaxError State α → Except (List SyntaxError) α
  | .ok x s => if s.errors.isEmpty then .ok x else .error s.errors
  | .error e s => .error (s.errors ++ [e])

theorem EndAlike.settled_eq {result result' : EStateM.Result SyntaxError State α}
    (h : EndAlike result result') : settled result' = settled result := by
  cases h with
  | ok x hs => rw [settled, settled, hs.errors]
  | error e hs => rw [settled, settled, hs.errors]

/-- Whether a routine that reads a token list gives an answer. -/
def Answers (r : Routine α) (tokens : List Token) (answer : Except (List SyntaxError) α) : Prop :=
  ∃ events result, Runs r.code (.ofTokens tokens) events result ∧ settled result = answer

theorem Answers.unique (h : Answers r tokens answer) (h' : Answers r tokens answer') :
    answer = answer' := by
  obtain ⟨events, result, hruns, rfl⟩ := h
  obtain ⟨events', result', hruns', rfl⟩ := h'
  rw [(hruns.unique hruns').2]

theorem answers_parse (r : Routine α) (tokens : List Token) :
    Answers r tokens
      (Grammar.settle (parseOf Grammar.nestingLimit false r (.ofTokens tokens))) := by
  obtain ⟨after, hstart⟩ := State.stands_ofTokens tokens
  obtain ⟨events, hruns, -⟩ := (ends_with_parse r hstart.inside).runs
  rw [hstart.cursor_eq] at hruns
  refine ⟨events, _, hruns, ?_⟩
  show settled (State.result _ (parseOf Grammar.nestingLimit false r (.ofTokens tokens))) = _
  cases parseOf Grammar.nestingLimit false r (.ofTokens tokens) <;> rfl

theorem Answers.alike (h : Answers r tokens answer)
    (hstart : (State.ofTokens tokens).Alike (.ofTokens tokens')) : Answers r tokens' answer := by
  obtain ⟨events, result, hruns, rfl⟩ := h
  obtain ⟨events', result', hruns', -, hend⟩ := hruns.alike hstart
  exact ⟨events', result', hruns', hend.settled_eq⟩

/-- Whether a routine reads two token lists in the same steps and ends in the same way. -/
def ReadsAlike (r : Routine α) (tokens tokens' : List Token) : Prop :=
  ∃ events result events' result', Runs r.code (.ofTokens tokens) events result ∧
    Runs r.code (.ofTokens tokens') events' result' ∧
    List.Forall₂ Event.Alike events events' ∧ EndAlike result result'

theorem readsAlike_of_start (r : Routine α)
    (hstart : (State.ofTokens tokens).Alike (.ofTokens tokens')) : ReadsAlike r tokens tokens' := by
  obtain ⟨events, result, hruns, -⟩ := answers_parse r tokens
  obtain ⟨events', result', hruns', hevents, hend⟩ := hruns.alike hstart
  exact ⟨events, result, events', result', hruns, hruns', hevents, hend⟩

end Answers

section Start

variable {ts : List Token} {e : Token}

theorem State.tokens_ofTokens (ts us : List Token) (e : Token) :
    ∃ tail, (State.ofTokens (ts ++ [e] ++ us)).tokens = ts ++ e :: tail := by
  unfold State.ofTokens
  cases hlast : (ts ++ [e] ++ us).getLast? with
  | none => simp at hlast
  | some t =>
    by_cases hkind : t.kind = .endOfInput
    · exact ⟨us, by simp [hkind]⟩
    · exact ⟨us ++ [.finish (Cursor.behind t)], by simp [hkind]⟩

theorem State.alike_ofTokens (before : ∀ t ∈ ts, t.kind ≠ .endOfInput)
    (ends : e.kind = .endOfInput) (us us' : List Token) :
    (State.ofTokens (ts ++ [e] ++ us)).Alike (.ofTokens (ts ++ [e] ++ us')) := by
  obtain ⟨tail, htokens⟩ := State.tokens_ofTokens ts us e
  obtain ⟨tail', htokens'⟩ := State.tokens_ofTokens ts us' e
  have hstands : (State.ofTokens (ts ++ [e] ++ us)).Stands [] ⟨ts, e, []⟩ tail :=
    ⟨htokens, rfl, rfl, before, ends⟩
  refine ⟨hstands.inside, fun i hi => ?_, rfl, rfl, rfl, rfl⟩
  have hi : i < (ts ++ [e]).length := by
    rw [hstands.last_eq] at hi
    simpa using hi
  rw [htokens, htokens', List.append_cons, List.append_cons ts e tail,
    List.getElem?_append_left hi, List.getElem?_append_left hi]

end Start

/-- Nothing behind the first end of input is read. Whatever stands there, a token list is read as
the same program or expression or with the same errors, and every routine reads it in the same
steps. -/
theorem nothing_read_behind_end {ts : List Token} (before : ∀ t ∈ ts, t.kind ≠ .endOfInput)
    {e : Token} (ends : e.kind = .endOfInput) (us us' : List Token) :
    Grammar.program (ts ++ [e] ++ us) = Grammar.program (ts ++ [e] ++ us') ∧
    Grammar.expression (ts ++ [e] ++ us) = Grammar.expression (ts ++ [e] ++ us') ∧
    ∀ (α : Type) (r : Routine α), ReadsAlike r (ts ++ [e] ++ us) (ts ++ [e] ++ us') := by
  have hstart := State.alike_ofTokens before ends us us'
  refine ⟨?_, ?_, fun α r => readsAlike_of_start r hstart⟩
  · exact ((answers_parse .statements _).alike hstart).unique (answers_parse .statements _)
  · exact ((answers_parse .wholeExpression _).alike hstart).unique
      (answers_parse .wholeExpression _)

/-- A call inside a block is not closed before the end of input. Both routines fail there, and what
would close the call and the block behind the end does not help. -/
theorem nothing_read_behind_end_open_call :
    let t := fun kind lexeme => (⟨kind, lexeme, none, .first⟩ : Token)
    let ts := [t .leftBrace "\x7b", t .identifier "f", t .leftParen "("]
    let e := Token.finish ⟨1, 5⟩
    let us := [t .rightParen ")", t .semicolon ";", t .rightBrace "\x7d", .finish ⟨1, 8⟩]
    (∀ u ∈ ts, u.kind ≠ .endOfInput) ∧ e.kind = .endOfInput ∧
      Grammar.program (ts ++ [e] ++ us) = .error [⟨.expression, e⟩, ⟨.blockEnd, e⟩] ∧
      Grammar.program (ts ++ [e] ++ us) = Grammar.program (ts ++ [e] ++ []) ∧
      ReadsAlike .statements (ts ++ [e] ++ us) (ts ++ [e] ++ []) := by
  intro t ts e us
  have before : ∀ u ∈ ts, u.kind ≠ .endOfInput := by decide
  obtain ⟨hprogram, -, hreads⟩ := nothing_read_behind_end before (e := e) rfl us []
  exact ⟨before, rfl, rfl, hprogram, hreads _ .statements⟩

end Descent

end Scriptlet
