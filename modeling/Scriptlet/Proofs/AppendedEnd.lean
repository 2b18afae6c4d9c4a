import Scriptlet.Proofs.JoinedTokens
import Scriptlet.Proofs.LongestMatch
import Scriptlet.Proofs.Rescanning

/-!
The end of input that is added to a token list without one. It follows the last token on the line
where that token begins, as many columns further as its lexeme has characters. The scan of a text
puts its end of input where the text ends. If the last token ends the text, the two places are the
same unless the token is a string that goes over a line break.

No routine takes the end of input: it only counts as a place for errors. So with another one a token
list is read as the same program, or with the same errors except that those at the end are at the
other one.
-/

namespace Scriptlet

def SyntaxError.endedBy (finish : Token) (e : SyntaxError) : SyntaxError :=
  if e.token.kind = .endOfInput then { e with token := finish } else e

theorem SyntaxError.endedBy_of_ne {e : SyntaxError} (h : e.token.kind ≠ .endOfInput)
    (finish : Token) : e.endedBy finish = e := if_neg h

theorem SyntaxError.endedBy_eq_iff {finish : Token} {e : SyntaxError} :
    e.endedBy finish = e ↔ (e.token.kind = .endOfInput → e.token = finish) := by
  obtain ⟨complaint, token⟩ := e
  by_cases hkind : token.kind = .endOfInput
  · simp [endedBy, hkind, eq_comm]
  · simp [endedBy, hkind]

theorem SyntaxError.map_endedBy_eq_iff {finish : Token} {errors : List SyntaxError} :
    errors.map (·.endedBy finish) = errors ↔
      ∀ e ∈ errors, e.token.kind = .endOfInput → e.token = finish := by
  simp only [← endedBy_eq_iff]
  simpa using List.map_inj_left (l := errors) (f := (·.endedBy finish)) (g := id)

namespace Cursor

def endedBy (finish : Token) (c : Cursor) : Cursor where
  ahead := c.ahead
  finish := finish
  errors := c.errors.map (·.endedBy finish)

/-- Whether the end of input is of that kind and no token ahead is. -/
structure Ended (c : Cursor) : Prop where
  ahead : ∀ t ∈ c.ahead, t.kind ≠ .endOfInput
  finish : c.finish.kind = .endOfInput

variable {c d : Cursor} {finish : Token}

theorem Ended.reaches (h : c.Ended) (hd : c.Reaches d) : d.Ended := by
  constructor
  · intro t ht
    exact h.ahead t (hd.ahead.subset ht)
  · rw [hd.finish]
    exact h.finish

theorem endedBy_record (e : SyntaxError) :
    (c.record e).endedBy finish = (c.endedBy finish).record (e.endedBy finish) := by
  simp [endedBy, record]

theorem Ended.endedBy_here (h : c.Ended) (complaint : Complaint) :
    SyntaxError.endedBy finish ⟨complaint, c.peek⟩ = ⟨complaint, (c.endedBy finish).peek⟩ := by
  unfold peek endedBy
  cases hahead : c.ahead with
  | nil => exact if_pos h.finish
  | cons t rest =>
    have hkind : t.kind ≠ .endOfInput := h.ahead t (hahead ▸ List.mem_cons_self)
    exact SyntaxError.endedBy_of_ne hkind finish

end Cursor

namespace Parse

variable {α β : Type} {c d : Cursor} {finish : Token}

def endedBy (finish : Token) :
    EStateM.Result SyntaxError Cursor α → EStateM.Result SyntaxError Cursor α
  | .ok x c => .ok x (c.endedBy finish)
  | .error e c => .error (e.endedBy finish) (c.endedBy finish)

/-- Whether a routine does the same before another end of input, errors at the end apart. -/
def Indifferent (finish : Token) (r : Parse α) (c : Cursor) : Prop :=
  r (c.endedBy finish) = endedBy finish (r c)

theorem Indifferent.bind {r : Parse α} {next : α → Parse β} (h : Indifferent finish r c)
    (rest : ∀ x d, r c = .ok x d → Indifferent finish (next x) d) :
    Indifferent finish (r >>= next) c := by
  unfold Indifferent at h ⊢
  cases hr : r c with
  | ok x d =>
    rw [hr] at h
    rw [bind_ok r next h, bind_ok r next hr]
    exact rest x d hr
  | error e d =>
    rw [hr] at h
    rw [bind_error r next h, bind_error r next hr]
    rfl

theorem indifferent_fail (h : c.Ended) (complaint : Complaint) :
    Indifferent finish (fail complaint : Parse α) c := by
  simp only [Indifferent, fail, endedBy, h.endedBy_here]

theorem indifferent_take (h : c.ahead ≠ []) : Indifferent finish take c := by
  unfold Indifferent take Cursor.endedBy
  cases hahead : c.ahead with
  | nil => exact absurd hahead h
  | cons t rest => rfl

theorem indifferent_accept (wanted : Kind → Bool) : Indifferent finish (accept wanted) c := by
  unfold Indifferent accept Cursor.endedBy
  cases hahead : c.ahead with
  | nil => simp [endedBy, Cursor.endedBy, hahead]
  | cons t rest =>
    by_cases hw : wanted t.kind = true
    · simp [endedBy, Cursor.endedBy, hw]
    · simp [endedBy, Cursor.endedBy, hw, hahead]

theorem indifferent_record {e : SyntaxError} (h : e.token.kind ≠ .endOfInput) :
    Indifferent finish (record e) c := by
  simp only [Indifferent, record, endedBy, Cursor.endedBy_record, SyntaxError.endedBy_of_ne h]

theorem indifferent_recordHere (h : c.Ended) (complaint : Complaint) :
    Indifferent finish (recordHere complaint) c := by
  simp only [Indifferent, recordHere, endedBy, Cursor.endedBy_record, h.endedBy_here]

theorem indifferent_recovering {item : Parse α} (h : Indifferent finish item c)
    (skipping : List Token → List Token) : Indifferent finish (recovering item skipping) c := by
  unfold Indifferent at h ⊢
  unfold recovering
  cases hr : item c with
  | ok x d =>
    rw [h, hr]
    rfl
  | error e d =>
    rw [h, hr]
    simp only [endedBy, ← Cursor.endedBy_record]
    rfl

theorem kind_of_take {t : Token} (hc : c.Ended) (hahead : c.ahead ≠ []) (h : take c = .ok t d) :
    t.kind ≠ .endOfInput := by
  obtain ⟨u, rest, hu⟩ := List.exists_cons_of_ne_nil hahead
  have htake : take c = .ok u { c with ahead := rest } := by simp [take, hu]
  cases htake.symm.trans h
  exact hc.ahead t (hu ▸ List.mem_cons_self)

/-- Every routine is indifferent to the end of input, where a token is ahead if it needs one. -/
theorem Built.indifferent {held : List Token} {ready : Bool} {r : Parse α}
    (h : Built held r ready) (hheld : ∀ t ∈ held, t.kind ≠ .endOfInput) (hc : c.Ended)
    (hready : ready = true → c.ahead ≠ []) : Indifferent finish r c := by
  induction h generalizing c with
  | pure x => rfl
  | fail complaint => exact indifferent_fail hc complaint
  | lookahead _ ih =>
    refine Indifferent.bind rfl fun kind d hd => ?_
    cases hd
    refine ih c.kind hheld hc fun hkind hnil => ?_
    -- A kind that is not the end of input is the kind of a token ahead.
    rcases Bool.or_eq_true_iff.1 hkind with hready' | hkind
    · exact hready hready' hnil
    · simp [Cursor.kind, hnil] at hkind
  | upcoming _ ih =>
    refine Indifferent.bind rfl fun ts d hd => ?_
    cases hd
    refine ih c.ahead hheld hc fun hahead hnil => ?_
    rcases Bool.or_eq_true_iff.1 hahead with hready' | hahead
    · exact hready hready' hnil
    · simp [hnil] at hahead
  | take _ ih =>
    refine (indifferent_take (hready rfl)).bind fun t d hd => ?_
    have ht := kind_of_take hc (hready rfl) hd
    exact ih t (List.forall_mem_cons.2 ⟨ht, hheld⟩) (hc.reaches (forward_take.ok hd)) (by simp)
  | takeRecorded complaint _ ih =>
    refine (indifferent_take (hready rfl)).bind fun t d hd => ?_
    have ht := kind_of_take hc (hready rfl) hd
    refine (indifferent_record ht).bind fun _ d' hd' => ?_
    have hd'c := (forward_take.ok hd).trans ((forward_record _).ok hd')
    exact ih t (List.forall_mem_cons.2 ⟨ht, hheld⟩) (hc.reaches hd'c) (by simp)
  | accept wanted _ _ ih ih' =>
    refine (indifferent_accept wanted).bind fun o d hd => ?_
    have hdc := hc.reaches ((forward_accept wanted).ok hd)
    rcases accept_cases wanted c with ⟨-, hnone⟩ | ⟨t, rest, hahead, hwanted, hsome⟩
    · cases hnone.symm.trans hd
      exact ih' hheld hdc (by simp)
    · cases hsome.symm.trans hd
      have ht := hc.ahead t (hahead ▸ List.mem_cons_self)
      exact ih t hwanted (List.forall_mem_cons.2 ⟨ht, hheld⟩) hdc (by simp)
  | recordHere complaint _ ih =>
    refine (indifferent_recordHere hc complaint).bind fun _ d hd => ?_
    exact ih hheld (hc.reaches ((forward_recordHere complaint).ok hd)) (by simp)
  | recordHeld mem equals _ ih =>
    refine (indifferent_record (hheld _ mem)).bind fun _ d hd => ?_
    exact ih hheld (hc.reaches ((forward_record _).ok hd)) (by simp)
  | recovering suffix part _ ih ih' =>
    refine (indifferent_recovering (ih hheld hc (by simp)) _).bind fun o d hd => ?_
    exact ih' o hheld (hc.reaches ((forward_recovering part.forward suffix).ok hd)) (by simp)

end Parse

section Programs

variable {ts : List Token} {e : Token}

theorem Cursor.ofTokens_ended (before : ∀ t ∈ ts, t.kind ≠ .endOfInput)
    (ends : e.kind = .endOfInput) : ofTokens (ts ++ [e]) = ⟨ts, e, []⟩ := by
  rw [Grammar.ofTokens_append before (List.cons_ne_nil e [])]
  simp [ofTokens, ends]

theorem Cursor.ofTokens_unended (before : ∀ t ∈ ts, t.kind ≠ .endOfInput) :
    ofTokens ts = ⟨ts, .finish ((ts.getLast?.map behind).getD .first), []⟩ := by
  have hnone : ts.find? (·.kind = .endOfInput) = none := by simpa using before
  have hall : ts.takeWhile (·.kind ≠ .endOfInput) = ts := by simpa using before
  rw [ofTokens, hnone, hall]

namespace Grammar

theorem settle_endedBy {α : Type} (finish : Token)
    (result : EStateM.Result SyntaxError Cursor α) :
    settle (Parse.endedBy finish result) =
      (settle result).mapError (List.map (·.endedBy finish)) := by
  cases result with
  | ok x c =>
    by_cases herrors : c.errors = []
    · simp [settle, Parse.endedBy, Cursor.endedBy, Except.mapError, herrors]
    · simp [settle, Parse.endedBy, Cursor.endedBy, Except.mapError, herrors]
  | error err c =>
    simp [settle, Parse.endedBy, Cursor.endedBy, Cursor.record, Except.mapError]

/-- Without its end of input a token list is read as with it, but what was wrong there is wrong at
the end of input that is added. -/
theorem program_unended (before : ∀ t ∈ ts, t.kind ≠ .endOfInput) (ends : e.kind = .endOfInput) :
    program ts = (program (ts ++ [e])).mapError
      (List.map (·.endedBy (Cursor.ofTokens ts).finish)) := by
  set finish := (Cursor.ofTokens ts).finish with hfinish
  have hstart : Cursor.ofTokens ts = (Cursor.ofTokens (ts ++ [e])).endedBy finish := by
    rw [hfinish, Cursor.ofTokens_unended before, Cursor.ofTokens_ended before ends]
    rfl
  have hended : (Cursor.ofTokens (ts ++ [e])).Ended := by
    rw [Cursor.ofTokens_ended before ends]
    exact ⟨before, ends⟩
  have hread : Parse.Indifferent finish statements (Cursor.ofTokens (ts ++ [e])) :=
    built_statements.indifferent (by simp) hended (by simp)
  rw [program, programFrom, hstart, hread, settle_endedBy]
  rfl

theorem token_of_error_at_end (before : ∀ t ∈ ts, t.kind ≠ .endOfInput)
    (ends : e.kind = .endOfInput) {errors : List SyntaxError}
    (h : program (ts ++ [e]) = .error errors) :
    ∀ err ∈ errors, err.token.kind = .endOfInput → err.token = e := by
  intro err herr hkind
  rcases (errors_of_program h).2 err herr with hmem | hfinish
  · have hne := List.mem_takeWhile_imp hmem
    simp [hkind] at hne
  · rwa [Cursor.ofTokens_ended before ends] at hfinish

/-- The two readings are the same just if the ends of input are or nothing was wrong there. -/
theorem program_unended_eq_iff (before : ∀ t ∈ ts, t.kind ≠ .endOfInput)
    (ends : e.kind = .endOfInput) :
    program ts = program (ts ++ [e]) ↔ (Cursor.ofTokens ts).finish = e ∨
      ∀ errors, program (ts ++ [e]) = .error errors →
        ∀ err ∈ errors, err.token.kind ≠ .endOfInput := by
  rw [program_unended before ends]
  cases hp : program (ts ++ [e]) with
  | ok p => simp [Except.mapError]
  | error errors =>
    have hend := token_of_error_at_end before ends hp
    rw [Except.mapError, Except.error.injEq, SyntaxError.map_endedBy_eq_iff]
    constructor
    · intro h
      by_cases hfinish : (Cursor.ofTokens ts).finish = e
      · exact .inl hfinish
      · right
        rintro _ ⟨⟩ err herr hkind
        exact hfinish ((h err herr hkind).symm.trans (hend err herr hkind))
    · rintro (hfinish | hnone) err herr hkind
      · rw [hfinish]
        exact hend err herr hkind
      · exact absurd hkind (hnone errors rfl err herr)

end Grammar

end Programs

theorem Position.after_of_one_line {cs : List Char} (h : '\n' ∉ cs) (p : Position) :
    p.after cs = ⟨p.line, p.column + cs.length⟩ := by
  induction cs generalizing p with
  | nil => rfl
  | cons c cs ih =>
    obtain ⟨hc, hcs⟩ := List.ne_and_not_mem_of_not_mem_cons h
    have hnext : p.next c = ⟨p.line, p.column + 1⟩ := if_neg hc.symm
    rw [after_cons, hnext, ih hcs, List.length_cons, Nat.add_assoc, Nat.add_comm 1]

def Token.after (t : Token) : Position := t.position.after t.lexeme.toList

theorem Token.line_behind_lt {t : Token} (h : '\n' ∈ t.lexeme.toList) :
    (Cursor.behind t).line < t.after.line := by
  have hbreaks : 0 < t.lexeme.toList.count '\n' := List.count_pos_iff.2 h
  rw [Token.after, Position.line_after]
  show t.position.line < _
  omega

theorem Token.behind_eq_after_iff (t : Token) :
    Cursor.behind t = t.after ↔ '\n' ∉ t.lexeme.toList := by
  constructor
  · intro heq hbreak
    have hline := Token.line_behind_lt hbreak
    rw [heq] at hline
    exact lt_irrefl _ hline
  · intro h
    rw [Token.after, Position.after_of_one_line h, String.length_toList]
    rfl

/-- Of the lexemes that are tokens only strings go over line breaks. -/
theorem Lexeme.Proper.kind_of_break {l : Lexeme} (hl : l.Proper) {p : Position} {t : Token}
    (ht : l.token? p = some t) (h : '\n' ∈ l.chars) : t.kind = .string := by
  have hsymbol : ∀ entry ∈ Pattern.symbols, '\n' ∉ entry.1 := by decide
  cases hl with
  | word start part =>
    rcases List.mem_cons.1 h with rfl | hmem
    · exact absurd start (by decide)
    · exact absurd (part _ hmem) (by decide)
  | whole digit digits =>
    rcases List.mem_cons.1 h with rfl | hmem
    · exact absurd digit (by decide)
    · exact absurd (digits _ hmem) (by decide)
  | point digit digits first fraction =>
    simp only [List.cons_append, List.mem_cons, List.mem_append] at h
    rcases h with rfl | hmem | hpoint | rfl | hmem
    · exact absurd digit (by decide)
    · exact absurd (digits _ hmem) (by decide)
    · exact absurd hpoint (by decide)
    · exact absurd first (by decide)
    · exact absurd (fraction _ hmem) (by decide)
  | string =>
    cases ht
    rfl
  | single symbol => exact absurd h (hsymbol _ (mem_symbols_single symbol))
  | pair symbol => exact absurd h (hsymbol _ (mem_symbols_pair symbol))

theorem Lexeme.place_append (p : Position) (ls more : List Lexeme) :
    place p (ls ++ more) = place p ls ++ place (p.after (spelled ls)) more := by
  induction ls generalizing p with
  | nil => rfl
  | cons l ls ih => simp [place, ih, spelled]

namespace Token.StandsIn

variable {t : Token} {text before : List Char}

theorem of_all {l : Lexeme} {earlier later : List Lexeme}
    (hall : Lexeme.all text = earlier ++ l :: later)
    (ht : l.token? (Position.first.after (Lexeme.spelled earlier)) = some t) :
    t.StandsIn text (Lexeme.spelled earlier) (Lexeme.spelled later) := by
  have hcut := Lexeme.cutOut_of_all hall
  have hposition := Lexeme.position_of_token? ht
  refine ⟨?_, hposition, l, hcut, hposition ▸ ht⟩
  rw [Token.Scanned.lexeme_eq ht]
  exact hcut.text_eq

theorem last (h : t.StandsIn text before []) :
    (Lexeme.found Lexeme.token? .first text).getLast? = some t := by
  obtain ⟨l, hcut, ht⟩ := h.lexeme
  obtain ⟨earlier, later, hall, hbefore, hlater⟩ := hcut.lexemes
  -- No lexeme is empty, so there is none behind this one.
  rw [List.append_cons] at hall
  rw [Lexeme.eq_nil_of_spelled hall hlater, List.append_nil] at hall
  rw [h.position] at ht
  simp [Lexeme.found, hall, Lexeme.place_append, Lexeme.place, hbefore, ht]

theorem after_eq (h : t.StandsIn text before []) : Position.first.after text = t.after := by
  rw [h.text_eq, List.append_nil, Position.after_append, ← h.position, Token.after]

theorem kind_of_break (h : t.StandsIn text before []) (hbreak : '\n' ∈ t.lexeme.toList) :
    t.kind = .string := by
  obtain ⟨l, hcut, ht⟩ := h.lexeme
  obtain ⟨earlier, later, hall, -, -⟩ := hcut.lexemes
  have hmem : l ∈ Lexeme.all text := hall ▸ List.mem_append_right _ List.mem_cons_self
  rw [Token.Scanned.lexeme_eq ht] at hbreak
  exact (Lexeme.proper_of_token? hmem ht).kind_of_break ht hbreak

end Token.StandsIn

/-- A text that ends with a token, and its tokens without their end of input. The one that is added
instead is the one of the scan just if the last token has no line break. Only a string can have one,
and then the place that is added is too high up. The tokens are read as the same program or with the
same errors, but errors at the end are at the end of input that was added. So the errors are all the
same just if the two ends are or none of the errors is there. -/
theorem appended_end_agrees_behind_one_line {text : String} {t : Token} {before : List Char}
    (hend : t.StandsIn text.toList before []) :
    let tokens := (Scan.ofText text).tokens
    let scanned := (Cursor.ofTokens tokens).finish
    let appended := (Cursor.ofTokens tokens.dropLast).finish
    tokens = tokens.dropLast ++ [scanned] ∧
    tokens.dropLast.getLast? = some t ∧
    scanned = .finish (LineTable.ofText text).finish ∧
    appended = .finish ⟨t.position.line, t.position.column + t.lexeme.length⟩ ∧
    (appended = scanned ↔ '\n' ∉ t.lexeme.toList) ∧
    ('\n' ∈ t.lexeme.toList →
      t.kind = .string ∧ appended.position.line < scanned.position.line) ∧
    Grammar.program tokens.dropLast =
      (Grammar.program tokens).mapError (List.map (·.endedBy appended)) ∧
    (Grammar.program tokens.dropLast = Grammar.program tokens ↔
      '\n' ∉ t.lexeme.toList ∨ ∀ errors, Grammar.program tokens = .error errors →
        ∀ e ∈ errors, e.token.kind ≠ .endOfInput) := by
  intro tokens scanned appended
  have hfound : tokens.dropLast = Lexeme.found Lexeme.token? .first text.toList :=
    Scan.dropLast_tokens text
  have hkinds : ∀ u ∈ tokens.dropLast, u.kind ≠ .endOfInput := by
    rw [hfound]
    exact fun u => Lexeme.kind_of_found
  have hscanned : scanned = .finish t.after := by
    rw [← hend.after_eq]
    exact Scan.finish_eq text.toList
  have htokens : tokens = tokens.dropLast ++ [scanned] := by
    rw [hfound, hscanned, ← hend.after_eq]
    rfl
  have hlast : tokens.dropLast.getLast? = some t := hfound ▸ hend.last
  have happended : appended = .finish (Cursor.behind t) := by
    simp only [appended, Cursor.ofTokens_unended hkinds, hlast]
    rfl
  have hagree : appended = scanned ↔ '\n' ∉ t.lexeme.toList := by
    rw [happended, hscanned, ← Token.behind_eq_after_iff]
    exact ⟨congrArg Token.position, congrArg Token.finish⟩
  have hends : scanned.kind = .endOfInput := by rw [hscanned]; rfl
  have hread := Grammar.program_unended hkinds hends
  have hsame := Grammar.program_unended_eq_iff hkinds hends
  rw [← htokens] at hread hsame
  refine ⟨htokens, hlast, ?_, happended, hagree, fun hbreak => ⟨hend.kind_of_break hbreak, ?_⟩,
    hread, hsame.trans (or_congr hagree Iff.rfl)⟩
  · rw [hscanned, LineTable.finish_ofText, hend.after_eq]
  · rw [happended, hscanned]
    exact Token.line_behind_lt hbreak

/-- A string of letters that take several bytes is the last token, behind a string over two lines and
a character that begins nothing. The semicolon behind it is missing. -/
theorem appended_end_agrees_behind_accents :
    let text := "\"\n\";@ print \"é日\""
    let tokens := (Scan.ofText text).tokens
    let t : Token := ⟨.string, "\"é日\"", some (.string "é日"), ⟨2, 11⟩⟩
    (∃ before, t.StandsIn text.toList before []) ∧
    Grammar.program tokens = .error [⟨.printEnd, .finish ⟨2, 15⟩⟩] ∧
    Grammar.program tokens.dropLast = .error [⟨.printEnd, .finish ⟨2, 15⟩⟩] := by
  intro text tokens t
  let earlier : List Lexeme := [⟨.string, "\"\n\"".toList⟩, ⟨.symbol .semicolon, [';']⟩,
    ⟨.stray, ['@']⟩, ⟨.blank, [' ']⟩, ⟨.word, "print".toList⟩, ⟨.blank, [' ']⟩]
  have hall : Lexeme.all text.toList = earlier ++ [⟨.string, t.lexeme.toList⟩] := by decide +kernel
  have hend : t.StandsIn text.toList (Lexeme.spelled earlier) [] :=
    .of_all hall (by decide +kernel)
  have htokens : tokens = [⟨.string, "\"\n\"", some (.string "\n"), ⟨1, 1⟩⟩,
      ⟨.semicolon, ";", none, ⟨2, 2⟩⟩, ⟨.printWord, "print", none, ⟨2, 5⟩⟩, t,
      .finish ⟨2, 15⟩] := by decide +kernel
  have hread : Grammar.program tokens = .error [⟨.printEnd, .finish ⟨2, 15⟩⟩] := by
    rw [htokens]
    rfl
  obtain ⟨-, -, -, -, -, -, -, hsame⟩ := appended_end_agrees_behind_one_line hend
  exact ⟨⟨_, hend⟩, hread, (hsame.2 (.inl (by decide))).trans hread⟩

/-- Behind a string over two lines the end of input that is added is on the first of them, in a
column that the line does not have, and the missing semicolon is reported there. -/
theorem appended_end_misplaced_behind_line_break :
    let text := "\"a\nb\""
    let tokens := (Scan.ofText text).tokens
    let t : Token := ⟨.string, text, some (.string "a\nb"), ⟨1, 1⟩⟩
    (∃ before, t.StandsIn text.toList before []) ∧
    (Cursor.ofTokens tokens).finish = .finish ⟨2, 3⟩ ∧
    (Cursor.ofTokens tokens.dropLast).finish = .finish ⟨1, 6⟩ ∧
    Grammar.program tokens = .error [⟨.expressionEnd, .finish ⟨2, 3⟩⟩] ∧
    Grammar.program tokens.dropLast = .error [⟨.expressionEnd, .finish ⟨1, 6⟩⟩] := by
  intro text tokens t
  have hall : Lexeme.all text.toList = [] ++ [⟨.string, text.toList⟩] := by decide +kernel
  have htokens : tokens = [t, .finish ⟨2, 3⟩] := by decide +kernel
  have hbehind : Cursor.behind t = ⟨1, 6⟩ := by decide +kernel
  have hbare : Cursor.ofTokens tokens.dropLast = ⟨[t], .finish ⟨1, 6⟩, []⟩ := by
    rw [htokens, ← hbehind]
    exact Cursor.ofTokens_unended (by decide)
  refine ⟨⟨_, .of_all hall (by decide +kernel)⟩, ?_, ?_, ?_, ?_⟩
  · rw [htokens]
    rfl
  · rw [hbare]
  · rw [htokens]
    rfl
  · rw [Grammar.program, hbare]
    rfl

end Scriptlet
