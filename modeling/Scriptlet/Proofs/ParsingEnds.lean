import Scriptlet.Proofs.DescentAgreement

/-!
Parsing always ends and keeps its state in order. From the start of any token list the routines for
a program and for an expression end with what the grammar reads. From any state that stands at or
before the first end of input every routine ends, in one way only. It never looks outside the token
list, it leaves both counters as they were, and it only adds to the recorded errors.
-/

namespace Scriptlet

namespace Descent

theorem State.stands_start {tokens : List Token} {finish : Token}
    (h : tokens.find? (·.kind = .endOfInput) = some finish) :
    ∃ after, (⟨tokens, 0, [], 0, 0⟩ : State).Stands []
      ⟨tokens.takeWhile (·.kind ≠ .endOfInput), finish, []⟩ after := by
  obtain ⟨hfinish, before, after, rfl, hbefore⟩ := List.find?_eq_some_iff_append.1 h
  have htake : (before ++ finish :: after).takeWhile (·.kind ≠ .endOfInput) = before := by
    rw [List.takeWhile_append_of_pos (by simpa using hbefore)]
    simpa using hfinish
  rw [htake]
  exact ⟨after, rfl, rfl, rfl, by simpa using hbefore, by simpa using hfinish⟩

theorem takeWhile_append_finish (tokens : List Token) (t : Token) (ht : t.kind = .endOfInput) :
    (tokens ++ [t]).takeWhile (·.kind ≠ .endOfInput) =
      tokens.takeWhile (·.kind ≠ .endOfInput) := by
  induction tokens with
  | nil => simp [ht]
  | cons u tokens ih => by_cases hu : u.kind = .endOfInput <;> simp_all

theorem State.stands_ofTokens (tokens : List Token) :
    ∃ after, (State.ofTokens tokens).Stands [] (Cursor.ofTokens tokens) after := by
  unfold State.ofTokens Cursor.ofTokens
  cases hlast : tokens.getLast? with
  | none =>
    obtain rfl := List.getLast?_eq_none_iff.1 hlast
    exact State.stands_start rfl
  | some t =>
    by_cases ht : t.kind = .endOfInput
    · have hsome : (tokens.find? (·.kind = .endOfInput)).isSome :=
        List.find?_isSome.2 ⟨t, List.mem_of_getLast? hlast, decide_eq_true ht⟩
      obtain ⟨finish, hfind⟩ := Option.isSome_iff_exists.1 hsome
      simp only [ht, if_true, hfind]
      exact State.stands_start hfind
    -- The end of input that is added is read only if there is no other one.
    · have htake := takeWhile_append_finish tokens (.finish (Cursor.behind t)) rfl
      simp only [ht, if_false, ← htake]
      apply State.stands_start
      rw [List.find?_append]
      cases tokens.find? (·.kind = .endOfInput) with
      | none => rfl
      | some finish => rfl

def State.reached {α : Type} : EStateM.Result SyntaxError State α → State
  | .ok _ s => s
  | .error _ s => s

/-- What a routine leaves as it found it, and where it may have moved. -/
structure State.Keeps (s s' : State) : Prop where
  tokens : s'.tokens = s.tokens
  forward : s.current ≤ s'.current
  inside : s'.Inside
  nesting : s'.nesting = s.nesting
  functions : s'.functions = s.functions
  errors : s.errors <+: s'.errors

/-- Whether a routine ends with a result, in one way only and with the state in order all along. -/
structure EndsWith {α : Type} (r : Routine α) (s : State)
    (result : EStateM.Result SyntaxError State α) : Prop where
  runs : ∃ events, Runs r.code s events result ∧
    ∀ m, .reached m ∈ events → s.Leads m
  unique : ∀ events' result', Runs r.code s events' result' → result' = result
  keeps : s.Keeps (State.reached result)

variable {α : Type} {s : State}

theorem State.Inside.keeps_moved {c : Cursor} (h : s.Inside) (hc : s.cursor.Reaches c) :
    s.Keeps (s.moved c) :=
  ⟨rfl, (h.leads_moved hc).forward, (h.move hc).1, rfl, rfl, hc.errors⟩

theorem ends_with_parse (r : Routine α) (h : s.Inside) :
    EndsWith r s (s.result
      (parseOf (Grammar.nestingLimit - s.nesting) (0 < s.functions) r s.cursor)) := by
  obtain ⟨hreaches, events, hruns, hleads⟩ := follows s.nesting s.functions r s h rfl rfl
  refine ⟨⟨events, hruns, hleads⟩, fun _ _ hruns' => (hruns.unique hruns').2, ?_⟩
  have hkeeps := h.keeps_moved hreaches
  cases hp : parseOf (Grammar.nestingLimit - s.nesting) (0 < s.functions) r s.cursor with
  | ok x c =>
    rw [hp] at hkeeps
    exact hkeeps
  | error e c =>
    rw [hp] at hkeeps
    exact hkeeps

/-- Whether a round of a loop over declarations ends further on, unless it is the last. -/
def RoundAdvances (stop : Kind → Bool) (skipper : Routine Unit) (s : State) : Prop :=
  ∀ t, s.tokens[s.current]? = some t → stop t.kind = false →
    ∃ events x? s', Runs (Code.recovering .declaration skipper) s events (.ok x? s') ∧
      s.current < s'.current

theorem round_advances {stop : Kind → Bool} {skipper : Routine Unit}
    {skipping : List Token → List Token} (h : s.Inside)
    (hskip : Follows s.nesting s.functions skipper.code (skipped skipping))
    (hrounds : Parse.RoundsAdvance stop
      (Parse.declaration (Grammar.nestingLimit - s.nesting) (0 < s.functions)) skipping) :
    RoundAdvances stop skipper s := by
  intro t ht hstop
  have hpeek : s.cursor.peek = t := Option.some.inj (h.getElem?_current.symm.trans ht)
  rw [← hpeek, h.kind_peek] at hstop
  have hitem : Follows s.nesting s.functions Routine.declaration.code
      (Parse.declaration (Grammar.nestingLimit - s.nesting) (0 < s.functions)) :=
    follows s.nesting s.functions .declaration
  obtain ⟨-, events, hruns, -⟩ := follows_recovering hitem hskip s h rfl rfl
  obtain ⟨x?, c, hx⟩ : ∃ x? c, Parse.recovering
      (Parse.declaration (Grammar.nestingLimit - s.nesting) (0 < s.functions)) skipping s.cursor =
        .ok x? c := by
    unfold Parse.recovering
    split <;> exact ⟨_, _, rfl⟩
  rw [hx] at hruns
  have hround : c.ahead.length < s.cursor.ahead.length := by
    simpa [Parse.left, hx] using hrounds s.cursor hstop
  have hcurrent := h.current_eq
  refine ⟨events, x?, s.moved c, hruns, ?_⟩
  show s.current < s.last - c.ahead.length
  omega

/-- Parsing ends on every token list with what the grammar reads there. Each round of the loops over
declarations but the last moves on, and every routine ends with the state in order. -/
theorem parsing_ends_in_order :
    (∀ tokens : List Token,
      EndsWith .statements (.ofTokens tokens)
        ((State.ofTokens tokens).result (Grammar.statements (.ofTokens tokens))) ∧
      EndsWith .wholeExpression (.ofTokens tokens)
        ((State.ofTokens tokens).result (Grammar.wholeExpression (.ofTokens tokens)))) ∧
    (∀ s : State, s.Inside →
      RoundAdvances (· = .endOfInput) .skip s ∧
      RoundAdvances (fun kind => kind = .rightBrace || kind = .endOfInput) .skipInBlock s) ∧
    ∀ (α : Type) (r : Routine α) (s : State), s.Inside →
      EndsWith r s (s.result
        (parseOf (Grammar.nestingLimit - s.nesting) (0 < s.functions) r s.cursor)) := by
  refine ⟨?_, ?_, fun α r s h => ends_with_parse r h⟩
  · intro tokens
    obtain ⟨after, hstart⟩ := State.stands_ofTokens tokens
    rw [← hstart.cursor_eq]
    exact ⟨ends_with_parse .statements hstart.inside,
      ends_with_parse .wholeExpression hstart.inside⟩
  · intro s h
    exact ⟨round_advances h follows_skip (Parse.rounds_advance_at_top _ _),
      round_advances h follows_skipInBlock (Parse.rounds_advance_in_block _ _)⟩

/-- A function inside two others, on the last level, whose parameter list holds a number. -/
def numberAsParameter : State where
  tokens := [⟨.functionWord, "fun", none, ⟨1, 1⟩⟩, ⟨.identifier, "f", none, ⟨1, 5⟩⟩,
    ⟨.leftParen, "(", none, ⟨1, 6⟩⟩, ⟨.number, "1", some (.number 1), ⟨1, 7⟩⟩, .finish ⟨1, 8⟩]
  current := 0
  errors := []
  functions := 2
  nesting := Grammar.nestingLimit

theorem parsing_ends_in_order_number_as_parameter :
    numberAsParameter.Inside ∧
    RoundAdvances (· = .endOfInput) .skip numberAsParameter ∧
    EndsWith .declaration numberAsParameter
      (.error ⟨.parameterName, ⟨.number, "1", some (.number 1), ⟨1, 7⟩⟩⟩
        { numberAsParameter with current := 3 }) := by
  have h : numberAsParameter.Inside := ⟨by decide, by decide⟩
  exact ⟨h, (parsing_ends_in_order.2.1 _ h).1, parsing_ends_in_order.2.2 _ .declaration _ h⟩

end Descent

end Scriptlet
