import Scriptlet.Proofs.LineBreaks
import Scriptlet.Proofs.Relocation
import Scriptlet.Proofs.Returns
import Scriptlet.Proofs.RoundTrip

/-!
One text and its pieces. Two texts that compile alone compile with a line break between them, and
the whole runs as the first and then, if that ended well, as the second. Only the lines of the
second are larger. To tell them from the lines of code that was there before, the second piece is
also run from further down than all that code: its lines in that run are marked.
-/

namespace Scriptlet

theorem Stmt.writtenAll_append (ss more : List Stmt) :
    Stmt.writtenAll (ss ++ more) = Stmt.writtenAll ss ++ Stmt.writtenAll more := by
  induction ss with
  | nil => rfl
  | cons s ss ih => simp only [List.cons_append, Stmt.writtenAll, ih, List.append_assoc]

theorem Stmt.allCanonical_append {inFunction : Bool} {ss more : List Stmt}
    (h : Stmt.AllCanonical inFunction ss) (k : Stmt.AllCanonical inFunction more) :
    Stmt.AllCanonical inFunction (ss ++ more) := by
  induction ss with
  | nil => exact k
  | cons s ss ih => exact ⟨h.1, ih h.2⟩

theorem Stmt.nestingAll_append (ss more : List Stmt) :
    Stmt.nestingAll (ss ++ more) = max (Stmt.nestingAll ss) (Stmt.nestingAll more) := by
  induction ss with
  | nil => simp [Stmt.nestingAll]
  | cons s ss ih => simp only [List.cons_append, Stmt.nestingAll, ih, max_assoc]

theorem Grammar.program_append {tokens more : List Token} {p q : Program}
    (hend : ∀ t ∈ tokens, t.kind ≠ .endOfInput) (hp : program tokens = .ok p)
    (hq : program more = .ok q) : program (tokens ++ more) = .ok (p ++ q) := by
  obtain ⟨hcanonical, hnesting, hfits⟩ := program_eq_ok_iff.1 hp
  obtain ⟨hcanonical', hnesting', hfits'⟩ := program_eq_ok_iff.1 hq
  have hend' : ∀ t ∈ tokens, decide (t.kind ≠ .endOfInput) = true := by simpa using hend
  rw [List.takeWhile_eq_self_iff.2 hend'] at hfits
  refine program_eq_ok_iff.2 ⟨Stmt.allCanonical_append hcanonical hcanonical', ?_, ?_⟩
  · rw [Program.nesting, Stmt.nestingAll_append]
    exact max_le hnesting hnesting'
  · rw [List.takeWhile_append_of_pos hend', Program.written, Stmt.writtenAll_append]
    exact hfits.append hfits'

def Program.down (n : Nat) (p : Program) : Program := p.rename (.moving (·.position.down n))

def lineBreaks (n : Nat) : String := String.ofList (List.replicate n '\n')

theorem Position.after_lineBreaks (n : Nat) :
    first.after (List.replicate n '\n') = first.down n := by
  induction n with
  | zero => rfl
  | succ n ih =>
    rw [List.replicate_succ', after_append, ih]
    rfl

theorem compile_lineBreaks {b : String} {q : Program} (h : compile b = .ok q) (n : Nat) :
    compile (lineBreaks n ++ b) = .ok (q.down n) := by
  obtain ⟨hprogram, herrors⟩ := compile_eq_ok_iff.1 h
  have hblank : ∀ c ∈ List.replicate n '\n', Lexeme.isBlank c = true := by
    intro c hc
    rw [List.eq_of_mem_replicate hc]
    decide
  have hchars : (lineBreaks n ++ b).toList = List.replicate n '\n' ++ b.toList := by
    simp [lineBreaks]
  have htokens : (Scan.ofText (lineBreaks n ++ b)).tokens =
      (Scan.ofText b).tokens.map (Token.down n) := by
    unfold Scan.ofText
    rw [hchars, Scan.tokens_ofChars, Scan.tokens_ofChars,
      Lexeme.found_blanks (fun l p => Lexeme.token?_of_isGap (l := l) (p := p)) hblank,
      Position.after_append, Position.after_lineBreaks, Position.after_down,
      Lexeme.found_down (Lexeme.token?_down n), List.map_append]
    rfl
  refine compile_eq_ok_iff.2 ⟨?_, ?_⟩
  · rw [htokens]
    exact Grammar.program_moving _ hprogram
  · unfold Scan.ofText at herrors ⊢
    rw [hchars, Scan.errors_ofChars,
      Lexeme.found_blanks (fun l p => Lexeme.error?_of_isGap (l := l) (p := p)) hblank,
      Position.after_lineBreaks, Lexeme.found_down (Lexeme.error?_down n),
      ← Scan.errors_ofChars, herrors]
    rfl

theorem compile_joined {a b : String} {p q : Program} (ha : compile a = .ok p)
    (hb : compile b = .ok q) :
    compile (a ++ "\n" ++ b) = .ok (p ++ q.down (a.toList.count '\n' + 1)) := by
  obtain ⟨hp, herrors⟩ := compile_eq_ok_iff.1 ha
  obtain ⟨hq, herrors'⟩ := compile_eq_ok_iff.1 hb
  unfold Scan.ofText at hp hq herrors herrors'
  have hclosed := Scan.closed_of_errors herrors
  have hchars : (a ++ "\n" ++ b).toList = a.toList ++ '\n' :: b.toList := by simp
  refine compile_eq_ok_iff.2 ⟨?_, ?_⟩
  · rw [Scan.ofText, hchars, Scan.tokens_break hclosed]
    exact Grammar.program_append (fun _ => Lexeme.kind_of_found) (Scan.program_of_tokens hp)
      (Grammar.program_moving _ hq)
  · rw [Scan.ofText, hchars, Scan.errors_break hclosed, herrors, herrors']
    rfl

def Slot.StandsBefore (line : Nat) : Slot → Prop
  | .token t => t.position.line < line
  | _ => True

theorem Slot.StandsBefore.mono {slot : Slot} {line further : Nat} (h : slot.StandsBefore line)
    (hle : line ≤ further) : slot.StandsBefore further := by
  cases slot with
  | token t => exact lt_of_lt_of_le h hle
  | _ => trivial

theorem exists_standsBefore (slots : List Slot) :
    ∃ line, Each (Slot.StandsBefore line) slots := by
  induction slots with
  | nil => exact ⟨0, fun _ h => absurd h List.not_mem_nil⟩
  | cons slot slots ih =>
    obtain ⟨line, hline⟩ := ih
    obtain ⟨own, hown⟩ : ∃ own, slot.StandsBefore own := by
      cases slot with
      | token t => exact ⟨t.position.line + 1, Nat.lt_succ_self _⟩
      | _ => exact ⟨0, trivial⟩
    exact ⟨max own line, each_cons.2 ⟨hown.mono (le_max_left own line),
      fun other hother => (hline other hother).mono (le_max_right own line)⟩⟩

/-- A line without its mark and `n` further down, if it is marked. -/
def lowerLine (mark n line : Nat) : Nat := if mark ≤ line then line - mark + n else line

def Position.lowered (mark n : Nat) (p : Position) : Position :=
  ⟨lowerLine mark n p.line, p.column⟩

theorem Position.lowered_of_lt {mark : Nat} {p : Position} (h : p.line < mark) (n : Nat) :
    p.lowered mark n = p := by
  rw [lowered, lowerLine, if_neg (Nat.not_le.2 h)]

theorem Position.lowered_down (mark n : Nat) (p : Position) :
    (p.down mark).lowered mark n = p.down n := by
  simp [lowered, lowerLine, down]

/-- Takes the marks off, and puts the tokens that had them `n` lines further down. -/
def Renaming.lowering (mark n : Nat) : Renaming := .moving (·.position.lowered mark n)

theorem Program.lowering_down (mark n : Nat) (p : Program) :
    (p.down mark).rename (.lowering mark n) = p.down n := by
  have hplaces : (Renaming.moving (·.position.down mark)).andThen (.lowering mark n) =
      .moving (·.position.down n) := by
    unfold Renaming.andThen Renaming.lowering Renaming.moving
    congr 1
    funext t
    exact Position.lowered_down mark n t.position
  rw [Program.down, Program.rename_rename, hplaces, Program.down]

theorem Program.down_zero (p : Program) : p.down 0 = p :=
  Stmt.renameAll_self rfl p fun slot _ => by
    cases slot with
    | token t => rfl
    | _ => trivial

theorem Machine.lowering_self {m : Machine} {mark : Nat}
    (h : Each (Slot.StandsBefore mark) m.code) (n : Nat) : m.rename (.lowering mark n) = m := by
  refine Machine.rename_self (Renaming.keepsNumbers_moving _) rfl fun slot hslot => ?_
  cases slot with
  | token t =>
    have hplace := Position.lowered_of_lt (h _ hslot) n
    exact congrArg (fun place => { t with position := place }) hplace
  | _ => trivial

/-- A program in another place does what it does with its lines marked, but in that place. -/
theorem Host.interpret_down {host : Host} (blind : host.natives.Blind) (q : Program) {m : Machine}
    {mark : Nat} (h : Each (Slot.StandsBefore mark) m.code) (n : Nat) :
    host.interpret (q.down n) m =
      (Renaming.lowering mark n).outcome id (host.interpret (q.down mark) m) := by
  have hkeeps : (Renaming.lowering mark n).KeepsNumbers := Renaming.keepsNumbers_moving _
  rw [← Host.interpret_rename blind hkeeps, Program.lowering_down, Machine.lowering_self h]

def Report.lowered (mark n : Nat) (report : Report) : Report :=
  { report with line := lowerLine mark n report.line }

def lowered (mark n : Nat) (ran : Except (List Report) Unit × Machine) :
    Except (List Report) Unit × Machine :=
  (ran.1.mapError (·.map (Report.lowered mark n)), ran.2.rename (.lowering mark n))

theorem reported_lowering (mark n : Nat) (ended : EStateM.Result RuntimeError Machine Unit) :
    reported ((Renaming.lowering mark n).outcome id ended) = lowered mark n (reported ended) := by
  cases ended <;> rfl

/-- Whether a text of two pieces runs as the first and then, if that ends well, as the second. The
second piece shows the same as alone. Its lines, and nothing else, are larger by the number of
lines above it: with a mark beyond all code that is there before it runs, whatever is marked after
it ran from beyond the mark is its own. -/
def RunsAsPieces (run : String → Machine → Except (List Report) Unit × Machine) (a b : String)
    (m : Machine) : Prop :=
  match run a m with
  | (.error reports, middle) => run (a ++ "\n" ++ b) m = (.error reports, middle)
  | (.ok _, middle) =>
    SameShow (run b middle) (run (a ++ "\n" ++ b) m) ∧
      ∃ mark, Each (Slot.StandsBefore mark) middle.code ∧
        run b middle = lowered mark 0 (run (lineBreaks mark ++ b) middle) ∧
        run (a ++ "\n" ++ b) m =
          lowered mark (a.toList.count '\n' + 1) (run (lineBreaks mark ++ b) middle)

/-- Two texts that compile alone compile with a line break between them, and the whole runs as its
pieces, on every machine. -/
theorem joined_text_runs_as_pieces {a b : String} {p q : Program} (first : compile a = .ok p)
    (second : compile b = .ok q) :
    compile (a ++ "\n" ++ b) = .ok (p ++ q.down (a.toList.count '\n' + 1)) ∧
      ∀ host : Host, host.natives.Blind → ∀ m : Machine, RunsAsPieces host.run a b m := by
  refine ⟨compile_joined first second, fun host blind m => ?_⟩
  have hreturn : Stmt.NoReturnAll p := by
    obtain ⟨hcanonical, -⟩ := Grammar.program_eq_ok_iff.1 (compile_eq_ok_iff.1 first).1
    exact Stmt.noReturnAll_of_canonical p hcanonical
  unfold RunsAsPieces
  rw [host.run_of_compile (compile_joined first second), host.interpret_append hreturn,
    host.run_of_compile first]
  cases hfirst : host.interpret p m with
  | error e middle => rw [Eval.bind_error hfirst]; rfl
  | ok _ middle =>
    obtain ⟨mark, hmark⟩ := exists_standsBefore middle.code
    have hdown := fun n => Host.interpret_down blind q hmark n
    have hsecond := host.run_of_compile second middle
    have hmarked := host.run_of_compile (compile_lineBreaks second mark) middle
    rw [Eval.bind_ok hfirst]
    refine ⟨?_, mark, hmark, ?_, ?_⟩
    · rw [hsecond]
      exact sameShow_of_outcome (interpret_of_unplaced blind (q.unplaced_moving _) middle)
    · rw [hsecond, hmarked, ← reported_lowering, ← hdown 0, Program.down_zero]
    · rw [hmarked, ← reported_lowering, ← hdown]

/-- A string that spans lines and a comment stand before the line break. -/
theorem joined_text_runs_as_pieces_after_comment :
    let a := "let s = \"x\ny\"; // note"
    let b := "print t;"
    let p : Program := [.variableDecl ⟨.identifier, "s", none, ⟨1, 5⟩⟩
      (some (.literal (.string "x\ny"))) false]
    let q : Program := [.print ⟨.printWord, "print", none, ⟨1, 1⟩⟩
      (.identifier ⟨.identifier, "t", none, ⟨1, 7⟩⟩)]
    compile a = .ok p ∧ compile b = .ok q ∧ compile (a ++ "\n" ++ b) = .ok (p ++ q.down 2) ∧
      ∀ settings clock m, RunsAsPieces (Host.standard settings clock).run a b m := by
  intro a b p q
  have hp : Program.Canonical p := by
    simp [p, Program.Canonical, Stmt.AllCanonical, Stmt.Canonical, Expr.CanonicalIfAny,
      Expr.Canonical]
  have hq : Program.Canonical q := by
    simp [q, Program.Canonical, Stmt.AllCanonical, Stmt.Canonical, Expr.Canonical]
  have ha : compile a = .ok p := compile_eq_ok_iff.2
    ⟨Grammar.program_eq_ok_iff.2 ⟨hp, by decide, by decide +kernel⟩, by decide +kernel⟩
  have hb : compile b = .ok q := compile_eq_ok_iff.2
    ⟨Grammar.program_eq_ok_iff.2 ⟨hq, by decide, by decide +kernel⟩, by decide +kernel⟩
  have hlines : a.toList.count '\n' + 1 = 2 := by decide +kernel
  obtain ⟨hjoined, hruns⟩ := joined_text_runs_as_pieces ha hb
  rw [hlines] at hjoined
  exact ⟨ha, hb, hjoined, fun settings clock m =>
    hruns (.standard settings clock) (Natives.blind_builtins clock) m⟩

end Scriptlet
