import Scriptlet.Proofs.Spelling

/-!
Scanning across a line break. Only a string reaches over the end of a line, so a text without an
unclosed string is scanned before a line break as it is alone, and what follows is scanned as it is
alone but further down.
-/

namespace Scriptlet

namespace Position

def down (n : Nat) (p : Position) : Position := ⟨p.line + n, p.column⟩

theorem next_down (n : Nat) (p : Position) (c : Char) : (p.down n).next c = (p.next c).down n := by
  unfold next down
  split
  · simp [Nat.add_right_comm]
  · rfl

theorem after_down (n : Nat) (p : Position) (cs : List Char) :
    (p.down n).after cs = (p.after cs).down n := by
  induction cs generalizing p with
  | nil => rfl
  | cons c cs ih => rw [after_cons, after_cons, next_down, ih]

theorem line_after (p : Position) (cs : List Char) :
    (p.after cs).line = p.line + cs.count '\n' := by
  induction cs generalizing p with
  | nil => rfl
  | cons c cs ih =>
    rw [after_cons, ih, next]
    split
    · rename_i hc
      rw [hc, List.count_cons_self, Nat.add_right_comm, Nat.add_assoc]
    · rename_i hc
      rw [List.count_cons_of_ne hc]

theorem next_break (cs : List Char) :
    (first.after cs).next '\n' = first.down (cs.count '\n' + 1) := by
  simp only [next, if_true, line_after, down]
  simp [first, Nat.add_comm, Nat.add_left_comm]

end Position

namespace Lexeme

section Break

variable {inside : Char → Bool} (h : inside '\n' = false) (cs b : List Char)

include h

theorem takeWhile_break : (cs ++ '\n' :: b).takeWhile inside = cs.takeWhile inside := by
  induction cs with
  | nil => simp [h]
  | cons c cs ih => by_cases hc : inside c = true <;> simp [hc, ih]

theorem dropWhile_break :
    (cs ++ '\n' :: b).dropWhile inside = cs.dropWhile inside ++ '\n' :: b := by
  induction cs with
  | nil => simp [h]
  | cons c cs ih => by_cases hc : inside c = true <;> simp [hc, ih]

theorem run_break (form : Form) (c : Char) : run form inside c (cs ++ '\n' :: b) =
    ((run form inside c cs).1, (run form inside c cs).2 ++ '\n' :: b) := by
  simp only [run, takeWhile_break h, dropWhile_break h]

end Break

theorem number_break (c : Char) (cs b : List Char) :
    number c (cs ++ '\n' :: b) = ((number c cs).1, (number c cs).2 ++ '\n' :: b) := by
  have hbreak : Char.isDigit '\n' = false := by decide
  unfold number
  rw [takeWhile_break hbreak, dropWhile_break hbreak]
  rcases cs.dropWhile Char.isDigit with _ | ⟨point, _ | ⟨d, rest⟩⟩
  · rfl
  · by_cases hp : point = '.'
    · subst hp
      simp [hbreak]
    · simp [hp]
  · by_cases hp : point = '.'
    · subst hp
      by_cases hd : d.isDigit = true
      · simp [hd, takeWhile_break hbreak, dropWhile_break hbreak]
      · simp [hd]
    · simp [hp]

theorem string_open {cs : List Char} (h : '"' ∉ cs) :
    string '"' cs = (⟨.unclosedString, '"' :: cs⟩, []) := by
  have hinside : ∀ c ∈ cs, decide (c ≠ '"') = true := by
    intro c hc
    simpa using fun heq : c = '"' => h (heq ▸ hc)
  unfold string
  rw [List.dropWhile_eq_nil_iff.2 hinside, List.takeWhile_eq_self_iff.2 hinside]

theorem string_break {cs : List Char} (h : (string '"' cs).1.form ≠ .unclosedString)
    (b : List Char) :
    string '"' (cs ++ '\n' :: b) = ((string '"' cs).1, (string '"' cs).2 ++ '\n' :: b) := by
  have hquote : '"' ∈ cs := by
    by_contra hnone
    rw [string_open hnone] at h
    exact h rfl
  obtain ⟨inner, rest, rfl, hinner⟩ := List.eq_append_cons_of_mem hquote
  have hopen : ∀ c ∈ inner, c ≠ '"' := fun c hc heq => hinner (heq ▸ hc)
  rw [List.append_assoc, List.cons_append, string_closed hopen, string_closed hopen]

theorem symbol_break (c : Char) (cs b : List Char) :
    symbol c (cs ++ '\n' :: b) = ((symbol c cs).1, (symbol c cs).2 ++ '\n' :: b) := by
  unfold symbol
  cases cs with
  | nil =>
    simp only [List.nil_append, pair?_eq_none c (show '\n' ≠ '=' by decide)]
    cases single? c <;> rfl
  | cons d rest => simp only [List.cons_append]; split <;> rfl

/-- A lexeme other than a gap is cut off in the same way before a line break. -/
theorem first_break {c : Char} {cs : List Char} (hb : isBlank c = false)
    (hs : (first c cs).1.form ≠ .unclosedString) (b : List Char) :
    first c (cs ++ '\n' :: b) = ((first c cs).1, (first c cs).2 ++ '\n' :: b) := by
  have hhead : (cs ++ '\n' :: b).head? = some '/' ↔ cs.head? = some '/' := by
    cases cs <;> simp
  unfold first at hs ⊢
  simp only [hb, hhead, Bool.false_eq_true, if_false] at hs ⊢
  split_ifs at hs ⊢ with hw hd hq hc
  · exact run_break (show isWordPart '\n' = false by decide) cs b .word c
  · exact number_break c cs b
  · subst hq
    exact string_break hs b
  · exact run_break (show decide ('\n' ≠ '\n') = false by decide) cs b .comment c
  · exact symbol_break c cs b

/-- What a reading of single lexemes finds in a text that begins at `p`. -/
def found {α : Type} (read : Lexeme → Position → Option α) (p : Position) (cs : List Char) :
    List α :=
  (place p (all cs)).filterMap fun x => read x.1 x.2

section Found

variable {α : Type} {read : Lexeme → Position → Option α}

theorem found_nil (p : Position) : found read p [] = [] := by
  simp [found, all, place]

theorem found_cons (p : Position) (c : Char) (cs : List Char) :
    found read p (c :: cs) =
      (read (first c cs).1 p).toList ++ found read (p.after (first c cs).1.chars) (first c cs).2 := by
  rw [found, all, place, List.filterMap_cons]
  cases read (first c cs).1 p <;> rfl

variable (gaps : ∀ l p, l.isGap = true → read l p = none)

include gaps

theorem found_blank {c : Char} (h : isBlank c = true) (p : Position) (cs : List Char) :
    found read p (c :: cs) = found read (p.next c) cs := by
  have skip : ∀ c cs p, isBlank c = true → found read p (c :: cs) =
      found read (p.after (c :: cs.takeWhile isBlank)) (cs.dropWhile isBlank) := by
    intro c cs p h
    have hfirst : first c cs = (⟨.blank, c :: cs.takeWhile isBlank⟩, cs.dropWhile isBlank) := by
      simp [first, h, run]
    rw [found_cons, hfirst, gaps _ _ rfl]
    rfl
  rw [skip c cs p h]
  cases cs with
  | nil => rfl
  | cons d ds =>
    by_cases hd : isBlank d = true
    · rw [skip d ds _ hd, List.takeWhile_cons_of_pos hd, List.dropWhile_cons_of_pos hd]
      rfl
    · rw [List.takeWhile_cons_of_neg hd, List.dropWhile_cons_of_neg hd]
      rfl

theorem found_blanks {cs : List Char} (h : ∀ c ∈ cs, isBlank c = true) (p : Position)
    (rest : List Char) : found read p (cs ++ rest) = found read (p.after cs) rest := by
  induction cs generalizing p with
  | nil => rfl
  | cons c cs ih =>
    rw [List.cons_append, found_blank gaps (h c (by simp)), ih fun d hd => h d (by simp [hd])]
    rfl

/-- What is found across a line break is found before and after it. -/
theorem found_break {a : List Char} (closed : ∀ l ∈ all a, l.form ≠ .unclosedString) (p : Position)
    (b : List Char) : found read p (a ++ '\n' :: b) =
      found read p a ++ found read ((p.after a).next '\n') b := by
  induction a using all.induct generalizing p with
  | case1 => rw [List.nil_append, found_blank gaps (by decide), found_nil]; rfl
  | case2 c cs ih =>
    rw [all] at closed
    have htail := ih fun l hl => closed l (List.mem_cons_of_mem _ hl)
    have htiles := first_tiles c cs
    have hafter : p.after (c :: cs) = (p.after (first c cs).1.chars).after (first c cs).2 := by
      rw [← htiles, Position.after_append]
    cases hb : isBlank c with
    | true =>
      -- The blanks before the line break run on into those after it.
      have hblanks : ∀ d ∈ (first c cs).1.chars, isBlank d = true := by
        simp only [first, hb, if_true, run, List.mem_cons]
        rintro d (rfl | hd)
        · exact hb
        · exact List.mem_takeWhile_imp hd
      rw [hafter, ← htiles, List.append_assoc, found_blanks gaps hblanks, found_blanks gaps hblanks,
        htail]
    | false =>
      rw [List.cons_append, found_cons, first_break hb (closed _ List.mem_cons_self), found_cons,
        hafter, htail, List.append_assoc]

end Found

theorem exists_mem_place {l : Lexeme} {ls : List Lexeme} (p : Position) (h : l ∈ ls) :
    ∃ q, (l, q) ∈ place p ls := by
  induction ls generalizing p with
  | nil => cases h
  | cons m ls ih =>
    rcases List.mem_cons.1 h with rfl | h
    · exact ⟨p, List.mem_cons_self⟩
    · obtain ⟨q, hq⟩ := ih (p.after m.chars) h
      exact ⟨q, List.mem_cons_of_mem _ hq⟩

theorem place_down (n : Nat) (p : Position) (ls : List Lexeme) :
    place (p.down n) ls = (place p ls).map fun x => (x.1, x.2.down n) := by
  induction ls generalizing p with
  | nil => rfl
  | cons l ls ih => rw [place, place, Position.after_down, ih]; rfl

theorem found_down {α : Type} {read : Lexeme → Position → Option α} {n : Nat} {lower : α → α}
    (h : ∀ l p, read l (p.down n) = (read l p).map lower) (p : Position) (cs : List Char) :
    found read (p.down n) cs = (found read p cs).map lower := by
  rw [found, found, place_down, List.filterMap_map, List.map_filterMap]
  exact congrArg (List.filterMap · _) (funext fun x => h x.1 x.2)

theorem kind_of_found {p : Position} {cs : List Char} {t : Token} (h : t ∈ found token? p cs) :
    t.kind ≠ .endOfInput := by
  obtain ⟨x, hx, ht⟩ := List.mem_filterMap.1 h
  exact (proper_of_token? (mem_place hx) ht).kind_ne_endOfInput ht

end Lexeme

def Token.down (n : Nat) (t : Token) : Token := { t with position := t.position.down n }

def LexicalError.down (n : Nat) (e : LexicalError) : LexicalError :=
  { e with position := e.position.down n }

namespace Lexeme

theorem token?_down (n : Nat) (l : Lexeme) (p : Position) :
    l.token? (p.down n) = (l.token? p).map (Token.down n) := by
  unfold token?
  split <;> rfl

theorem error?_down (n : Nat) (l : Lexeme) (p : Position) :
    l.error? (p.down n) = (l.error? p).map (LexicalError.down n) := by
  unfold error?
  split
  case h_2 => cases l.chars.head? <;> rfl
  all_goals rfl

end Lexeme

namespace Scan

theorem tokens_ofChars (cs : List Char) : (ofChars cs).tokens =
    Lexeme.found Lexeme.token? .first cs ++ [.finish (Position.first.after cs)] := rfl

theorem errors_ofChars (cs : List Char) :
    (ofChars cs).errors = Lexeme.found Lexeme.error? .first cs := rfl

theorem takeWhile_tokens (cs : List Char) :
    (ofChars cs).tokens.takeWhile (·.kind ≠ .endOfInput) =
      Lexeme.found Lexeme.token? .first cs := by
  rw [tokens_ofChars, List.takeWhile_append_of_pos fun t ht => by
    simpa using Lexeme.kind_of_found ht]
  simp [Token.finish]

theorem program_of_tokens {cs : List Char} {p : Program}
    (h : Grammar.program (ofChars cs).tokens = .ok p) :
    Grammar.program (Lexeme.found Lexeme.token? .first cs) = .ok p := by
  have hend : ∀ t ∈ Lexeme.found Lexeme.token? .first cs, decide (t.kind ≠ .endOfInput) = true :=
    fun t ht => by simpa using Lexeme.kind_of_found ht
  rw [Grammar.program_eq_ok_iff, takeWhile_tokens] at h
  rwa [Grammar.program_eq_ok_iff, List.takeWhile_eq_self_iff.2 hend]

theorem closed_of_faults {cs : List Char}
    (h : ∀ e ∈ (ofChars cs).errors, e.fault ≠ .unterminated) :
    ∀ l ∈ Lexeme.all cs, l.form ≠ .unclosedString := by
  intro l hl hform
  obtain ⟨q, hq⟩ := Lexeme.exists_mem_place .first hl
  have herror : l.error? q = some ⟨.unterminated, q⟩ := by simp [Lexeme.error?, hform]
  exact h _ (List.mem_filterMap.2 ⟨(l, q), hq, herror⟩) rfl

theorem closed_of_errors {cs : List Char} (h : (ofChars cs).errors = []) :
    ∀ l ∈ Lexeme.all cs, l.form ≠ .unclosedString :=
  closed_of_faults (by simp [h])

section Break

variable {a : List Char} (closed : ∀ l ∈ Lexeme.all a, l.form ≠ .unclosedString) (b : List Char)

include closed

theorem tokens_break : (ofChars (a ++ '\n' :: b)).tokens =
    Lexeme.found Lexeme.token? .first a ++
      (ofChars b).tokens.map (Token.down (a.count '\n' + 1)) := by
  have hgaps := fun l p => Lexeme.token?_of_isGap (l := l) (p := p)
  rw [tokens_ofChars, tokens_ofChars, Lexeme.found_break hgaps closed, Position.after_append,
    Position.after_cons, Position.next_break, Position.after_down,
    Lexeme.found_down (Lexeme.token?_down _), List.map_append, List.append_assoc]
  rfl

theorem errors_break : (ofChars (a ++ '\n' :: b)).errors =
    (ofChars a).errors ++ (ofChars b).errors.map (LexicalError.down (a.count '\n' + 1)) := by
  have hgaps := fun l p => Lexeme.error?_of_isGap (l := l) (p := p)
  rw [errors_ofChars, errors_ofChars, errors_ofChars, Lexeme.found_break hgaps closed,
    Position.next_break, Lexeme.found_down (Lexeme.error?_down _)]

end Break

end Scan

end Scriptlet
