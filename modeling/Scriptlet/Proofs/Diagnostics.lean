import Scriptlet.Proofs.LineBreaks
import Scriptlet.Proofs.ParseSteps
import Scriptlet.Proofs.Relocation

/-!
Where reports point. A text that does not compile gets reports of its lexical faults and then of its
syntax errors, at least one, and nothing runs. Each points to the fault itself: a character that
begins no lexeme, the quote of a string that is never closed, a token, or the end of the text. A
program that fails gets one report, which points to the token that failed in the text, wherever the
failure was raised: a token that is neither in the text nor in stored code could be put elsewhere
without any change in the run, so it cannot be the one that the error has.
-/

namespace Scriptlet

namespace Lexeme

def spelled (ls : List Lexeme) : List Char := ls.flatMap chars

theorem spelled_all (text : List Char) : spelled (all text) = text := by
  induction text using all.induct with
  | case1 => simp [all, spelled]
  | case2 c cs ih =>
    rw [all, spelled, List.flatMap_cons, ← spelled, ih, first_tiles]

/-- Whether a text, when it is cut into lexemes, has this one between what stands before it and what
stands behind it. -/
structure CutOut (l : Lexeme) (text before behind : List Char) : Prop where
  text_eq : text = before ++ l.chars ++ behind
  lexemes : ∃ earlier later, all text = earlier ++ l :: later ∧ spelled earlier = before ∧
    spelled later = behind

theorem cutOut_of_mem_place {l : Lexeme} {text : List Char} {q : Position}
    (h : (l, q) ∈ place .first (all text)) :
    ∃ before behind, l.CutOut text before behind ∧ q = Position.first.after before := by
  have split : ∀ {p : Position} {ls : List Lexeme}, (l, q) ∈ place p ls →
      ∃ earlier later, ls = earlier ++ l :: later ∧ q = p.after (spelled earlier) := by
    intro p ls h
    induction ls generalizing p with
    | nil => cases h
    | cons m ls ih =>
      rcases List.mem_cons.1 h with heq | h
      · obtain ⟨rfl, rfl⟩ := Prod.mk.inj heq
        exact ⟨[], ls, rfl, rfl⟩
      · obtain ⟨earlier, later, rfl, rfl⟩ := ih h
        exact ⟨m :: earlier, later, rfl, by simp [spelled]⟩
  obtain ⟨earlier, later, hall, hq⟩ := split h
  refine ⟨spelled earlier, spelled later, ⟨?_, earlier, later, hall, rfl, rfl⟩, hq⟩
  have htext := spelled_all text
  rw [hall] at htext
  simpa [spelled] using htext.symm

theorem CutOut.begins {l : Lexeme} {text before behind : List Char}
    (h : l.CutOut text before behind) :
    ∃ c cs, l.chars ++ behind = c :: cs ∧ first c cs = (l, behind) := by
  obtain ⟨-, earlier, later, hall, -, rfl⟩ := h
  induction text using all.induct generalizing earlier with
  | case1 => simp [all] at hall
  | case2 c cs ih =>
    rw [all] at hall
    cases earlier with
    | nil =>
      obtain ⟨rfl, hlater⟩ := List.cons.inj hall
      have hrest : spelled later = (first c cs).2 := by rw [← hlater, spelled_all]
      exact ⟨c, cs, by rw [hrest, first_tiles], by rw [hrest]⟩
    | cons m earlier => exact ih earlier (List.cons.inj hall).2

theorem position_of_token? {l : Lexeme} {p : Position} {t : Token} (h : l.token? p = some t) :
    t.position = p := by
  unfold token? at h
  split at h <;> cases h <;> rfl

/-- Whether no lexeme begins with a character. -/
structure BeginsNothing (c : Char) : Prop where
  blank : isBlank c = false
  word : isWordStart c = false
  digit : c.isDigit = false
  quote : c ≠ '"'
  symbol : single? c = none

theorem number_form (c : Char) (cs : List Char) : (number c cs).1.form = .number := by
  unfold number
  dsimp only
  split
  · split <;> rfl
  · rfl

theorem symbol_form (c : Char) (cs : List Char) : (∃ kind, (symbol c cs).1.form = .symbol kind) ∨
    (symbol c cs).1 = ⟨.stray, [c]⟩ ∧ single? c = none := by
  unfold symbol
  split
  · split
    · exact .inl ⟨_, rfl⟩
    · exact .inl ⟨_, rfl⟩
    · exact .inr ⟨rfl, ‹_›⟩
  · split
    · exact .inl ⟨_, rfl⟩
    · exact .inr ⟨rfl, ‹_›⟩

theorem string_form (cs : List Char) : (string '"' cs).1.form = .string ∨
    string '"' cs = (⟨.unclosedString, '"' :: cs⟩, []) ∧ '"' ∉ cs := by
  by_cases hquote : '"' ∈ cs
  · obtain ⟨inner, rest, rfl, hinner⟩ := List.eq_append_cons_of_mem hquote
    rw [string_closed fun c hc heq => hinner (heq ▸ hc)]
    exact .inl rfl
  · exact .inr ⟨string_open hquote, hquote⟩

theorem first_stray {c : Char} {cs : List Char} (h : (first c cs).1.form = .stray) :
    (first c cs).1 = ⟨.stray, [c]⟩ ∧ BeginsNothing c := by
  unfold first at h ⊢
  split_ifs at h ⊢ with hb hw hd hq hc
  · cases h
  · cases h
  · rw [number_form] at h
    cases h
  · subst hq
    rcases string_form cs with hform | ⟨hopen, -⟩
    · rw [hform] at h
      cases h
    · rw [hopen] at h
      cases h
  · cases h
  · rcases symbol_form c cs with ⟨kind, hform⟩ | ⟨hstray, hsingle⟩
    · rw [hform] at h
      cases h
    · exact ⟨hstray, ⟨by simpa using hb, by simpa using hw, by simpa using hd, hq, hsingle⟩⟩

/-- A string that is not closed reaches to the end of the text. -/
theorem first_unclosed {c : Char} {cs : List Char} (h : (first c cs).1.form = .unclosedString) :
    first c cs = (⟨.unclosedString, '"' :: cs⟩, []) ∧ '"' ∉ cs := by
  unfold first at h ⊢
  split_ifs at h ⊢ with hb hw hd hq hc
  · cases h
  · cases h
  · rw [number_form] at h
    cases h
  · subst hq
    exact (string_form cs).resolve_left fun hform => by rw [hform] at h; cases h
  · cases h
  · rcases symbol_form c cs with ⟨kind, hform⟩ | ⟨hstray, -⟩
    · rw [hform] at h
      cases h
    · rw [hstray] at h
      cases h

end Lexeme

structure Report.PointsBehind (report : Report) (stage : Stage) (before : List Char) : Prop where
  stage : report.stage = stage
  line : report.line = (Position.first.after before).line
  column : report.column = some (Position.first.after before).column

theorem Report.pointsBehind {p : Position} {before : List Char} (h : p = Position.first.after before)
    (stage : Stage) (message : String) :
    Report.PointsBehind ⟨stage, p.line, some p.column, message⟩ stage before := by
  subst h
  exact ⟨rfl, rfl, rfl⟩

/-- A lexer report points to a character that begins nothing and names it, or to the quote of a
string that is never closed. -/
inductive Report.TellsFault (text : List Char) (report : Report) : Prop where
  | unexpected {c : Char} {before behind : List Char}
      (cut : (⟨.stray, [c]⟩ : Lexeme).CutOut text before behind) (nothing : Lexeme.BeginsNothing c)
      (points : report.PointsBehind .lexer before)
      (message : report.message = s!"Unexpected character '{c}'.")
  | unterminated {inner before : List Char}
      (cut : (⟨.unclosedString, '"' :: inner⟩ : Lexeme).CutOut text before [])
      (unclosed : '"' ∉ inner) (points : report.PointsBehind .lexer before)
      (message : report.message = "Unterminated string.")

/-- A token of a text, and where in the text it is. -/
structure Token.StandsIn (t : Token) (text before behind : List Char) : Prop where
  text_eq : text = before ++ t.lexeme.toList ++ behind
  position : t.position = Position.first.after before
  lexeme : ∃ l : Lexeme, l.CutOut text before behind ∧ l.token? t.position = some t

/-- A parse report points to the start of a token or to the end of the text. -/
inductive Report.TellsToken (text : List Char) (report : Report) : Prop where
  | token {t : Token} {before behind : List Char} (stands : t.StandsIn text before behind)
      (points : report.PointsBehind .parse before)
  | finish (points : report.PointsBehind .parse text)

theorem Scan.tellsFault {text : List Char} {e : LexicalError} (h : e ∈ (Scan.ofChars text).errors) :
    e.report.TellsFault text := by
  obtain ⟨⟨l, q⟩, hl, he⟩ := List.mem_filterMap.1 h
  obtain ⟨before, behind, hcut, rfl⟩ := Lexeme.cutOut_of_mem_place hl
  obtain ⟨c, cs, hchars, hfirst⟩ := hcut.begins
  obtain ⟨form, chars⟩ := l
  have hform : (Lexeme.first c cs).1.form = form := by rw [hfirst]
  cases form with
  | stray =>
    obtain ⟨hstray, hnothing⟩ := Lexeme.first_stray hform
    rw [hfirst] at hstray
    cases hstray
    obtain rfl := Option.some.inj he
    exact .unexpected hcut hnothing (Report.pointsBehind rfl _ _) rfl
  | unclosedString =>
    obtain ⟨hopen, hquote⟩ := Lexeme.first_unclosed hform
    rw [hfirst] at hopen
    cases hopen
    obtain rfl := Option.some.inj he
    exact .unterminated hcut hquote (Report.pointsBehind rfl _ _) rfl
  | _ => cases he

theorem Scan.standsIn {text : List Char} {t : Token}
    (h : t ∈ Lexeme.found Lexeme.token? .first text) :
    ∃ before behind, t.StandsIn text before behind := by
  obtain ⟨⟨l, q⟩, hl, ht⟩ := List.mem_filterMap.1 h
  obtain ⟨before, behind, hcut, hq⟩ := Lexeme.cutOut_of_mem_place hl
  have hposition : t.position = q := Lexeme.position_of_token? ht
  refine ⟨before, behind, ?_, hposition.trans hq, l, hcut, hposition ▸ ht⟩
  rw [Token.Scanned.lexeme_eq ht]
  exact hcut.text_eq

theorem Scan.finish_eq (text : List Char) :
    (Cursor.ofTokens (Scan.ofChars text).tokens).finish =
      .finish (Position.first.after text) := by
  have hnone : (Lexeme.found Lexeme.token? .first text).find? (·.kind = .endOfInput) = none := by
    rw [List.find?_eq_none]
    intro t ht
    simpa using Lexeme.kind_of_found ht
  unfold Cursor.ofTokens
  rw [Scan.tokens_ofChars, List.find?_append, hnone]
  rfl

theorem SyntaxError.tellsToken {text : List Char} {errors : List SyntaxError}
    (h : Grammar.program (Scan.ofChars text).tokens = .error errors) {e : SyntaxError}
    (he : e ∈ errors) : e.report.TellsToken text := by
  have htoken := (Grammar.errors_of_program h).2 e he
  rw [Scan.takeWhile_tokens, Scan.finish_eq] at htoken
  rcases htoken with htoken | hfinish
  · obtain ⟨before, behind, hstands⟩ := Scan.standsIn htoken
    exact .token hstands (Report.pointsBehind hstands.position _ _)
  · have hposition : e.token.position = Position.first.after text := by
      rw [hfinish]
      rfl
    exact .finish (Report.pointsBehind hposition _ _)

/-- The token of an error is in the program or in the code that the machine had stored. -/
theorem Host.token_of_error {host : Host} (blind : host.natives.Blind) {tokens : List Token}
    {p : Program} (hp : Grammar.program tokens = .ok p) {m after : Machine} {e : RuntimeError}
    (h : host.interpret p m = .error e after) :
    e.token ∈ tokens ∨ Slot.token e.token ∈ m.code := by
  classical
  -- All other tokens are moved away. Nothing in the run is, so the error is where it was.
  let place : Token → Position := fun t =>
    if t ∈ tokens ∨ Slot.token t ∈ m.code then t.position
    else ⟨t.position.line + 1, t.position.column⟩
  have hkeeps : (Renaming.moving place).KeepsNumbers := Renaming.keepsNumbers_moving place
  have hstays : ∀ t, t ∈ tokens ∨ Slot.token t ∈ m.code → (Renaming.moving place).token t = t := by
    intro t ht
    have hplace : place t = t.position := if_pos ht
    exact congrArg (fun position => { t with position }) hplace
  have hprogram : p.rename (.moving place) = p := by
    have hmoved := Grammar.program_moving place hp
    rw [List.map_congr_left fun t ht => hstays t (.inl ht), List.map_id', hp] at hmoved
    exact (Except.ok.inj hmoved).symm
  have hmachine : m.rename (.moving place) = m := by
    refine Machine.rename_self hkeeps rfl fun slot hslot => ?_
    cases slot with
    | token t => exact hstays t (.inr hslot)
    | _ => trivial
  have hrun := Host.interpret_rename blind hkeeps p m
  rw [hprogram, hmachine, h] at hrun
  have htoken : e.token.position.line = (place e.token).line :=
    congrArg (fun e : RuntimeError => e.token.position.line) (EStateM.Result.error.inj hrun).1
  by_contra hnot
  have hplace : place e.token = ⟨e.token.position.line + 1, e.token.position.column⟩ :=
    if_neg hnot
  rw [hplace] at htoken
  exact absurd htoken (Nat.ne_of_lt (Nat.lt_succ_self _))

theorem Machine.code_eq_nil_iff {m : Machine} : m.code = [] ↔
    ∀ id frame, m.frames.frame? id = some frame →
      ∀ entry ∈ frame.bindings, entry.2.value.code = [] := by
  simp only [Machine.code, List.flatMap_eq_nil_iff, Array.mem_toList_iff, Array.mem_iff_getElem?,
    forall_exists_index]
  exact forall_comm

theorem Machine.code_defineGlobal {m : Machine} (h : m.code = []) (name : String)
    {binding : Binding} (hb : binding.value.code = []) :
    (m.defineGlobal name binding).code = [] := by
  rw [Machine.code_eq_nil_iff] at h ⊢
  intro id frame hframe
  simp only [Machine.defineGlobal, Machine.modifyFrames, Frames.frame?_define] at hframe
  split at hframe
  · obtain ⟨old, hold, rfl⟩ := Option.map_eq_some_iff.1 hframe
    exact Frame.values_define (P := (·.code = [])) (h id old hold) name hb
  · exact h id frame hframe

theorem Machine.code_installBuiltins {m : Machine} (h : m.code = []) :
    m.installBuiltins.code = [] := by
  unfold Machine.installBuiltins
  induction Builtin.all generalizing m with
  | nil => exact h
  | cons builtin builtins ih => exact ih (Machine.code_defineGlobal h _ rfl)

theorem reports_of_compile {source : String} {reports : List Report}
    (h : compile source = .error reports) :
    ∃ faults errors, reports = faults ++ errors ∧ faults ++ errors ≠ [] ∧
      (∀ report ∈ faults, report.TellsFault source.toList) ∧
      ∀ report ∈ errors, report.TellsToken source.toList := by
  have hfaults : ∀ report ∈ (Scan.ofText source).reports, report.TellsFault source.toList := by
    intro report hreport
    obtain ⟨e, he, rfl⟩ := List.mem_map.1 hreport
    exact Scan.tellsFault he
  unfold compile at h
  dsimp only at h
  cases hprogram : Grammar.program (Scan.ofText source).tokens with
  | ok p =>
    rw [hprogram] at h
    cases herrors : (Scan.ofText source).errors with
    | nil => simp [herrors] at h
    | cons e es =>
      have heq : (Scan.ofText source).reports = reports := by simpa [herrors] using h
      refine ⟨_, [], heq ▸ (List.append_nil _).symm, ?_, hfaults, by simp⟩
      simp [Scan.reports, herrors]
  | error errors =>
    rw [hprogram] at h
    refine ⟨_, _, (Except.error.inj h).symm, ?_, hfaults, fun report hreport => ?_⟩
    · simp [(Grammar.errors_of_program hprogram).1]
    · obtain ⟨e, he, rfl⟩ := List.mem_map.1 hreport
      exact SyntaxError.tellsToken hprogram he

/-- What a run of a source text ends in: well, with a report of what failed, or with reports of why
the text does not compile, and then nothing has run. -/
inductive Diagnosis (interpret : Program → Eval Unit) (source : String) (m : Machine) :
    Except (List Report) Unit × Machine → Prop where
  | ended {p : Program} {after : Machine} (compiled : compile source = .ok p)
      (ran : interpret p m = .ok () after) : Diagnosis interpret source m (.ok (), after)
  | failed {p : Program} {e : RuntimeError} {after : Machine} {before behind : List Char}
      (compiled : compile source = .ok p) (ran : interpret p m = .error e after)
      (stands : e.token.StandsIn source.toList before behind)
      (points : e.report.PointsBehind .runtime before) :
      Diagnosis interpret source m (.error [e.report], after)
  | rejected {faults errors : List Report} (refused : compile source = .error (faults ++ errors))
      (some : faults ++ errors ≠ [])
      (lexical : ∀ report ∈ faults, report.TellsFault source.toList)
      (syntactic : ∀ report ∈ errors, report.TellsToken source.toList) :
      Diagnosis interpret source m (.error (faults ++ errors), m)

theorem Host.diagnosis {host : Host} (blind : host.natives.Blind) (source : String) {m : Machine}
    (hm : m.code = []) : Diagnosis host.interpret source m (host.run source m) := by
  cases hcompile : compile source with
  | ok p =>
    rw [host.run_of_compile hcompile]
    cases hrun : host.interpret p m with
    | ok _ after => exact .ended hcompile hrun
    | error e after =>
      have hprogram := Scan.program_of_tokens (compile_eq_ok_iff.1 hcompile).1
      have htoken := (Host.token_of_error blind hprogram hrun).resolve_right (by simp [hm])
      obtain ⟨before, behind, hstands⟩ := Scan.standsIn htoken
      exact .failed hcompile hrun hstands (Report.pointsBehind hstands.position _ _)
  | error reports =>
    obtain ⟨faults, errors, rfl, hsome, hfaults, herrors⟩ := reports_of_compile hcompile
    unfold Host.run
    rw [hcompile]
    exact .rejected hcompile hsome hfaults herrors

/-- Every report of a run on a new machine with the builtins points to what it tells of, whatever
the settings are, the clock shows and the stack holds. -/
theorem reports_point_into_source (source : String) (settings : Settings)
    (clock : Nat → Option Float) (stack : (check depth : Nat) → Bool) (output : Output) :
    let host : Host := ⟨settings, .builtins clock, stack⟩
    let m := (Machine.fresh output).installBuiltins
    Diagnosis host.interpret source m (host.run source m) := by
  intro host m
  have hblind : host.natives.Blind := Natives.blind_builtins clock
  exact Host.diagnosis hblind source (Machine.code_installBuiltins rfl)

end Scriptlet
