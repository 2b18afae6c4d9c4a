import Mathlib
import Scriptlet.Token.Scan

/-!
The shapes of the lexemes that are tokens, and when a lexeme is read again as itself. A lexeme of
such a shape is cut off a text just where it ends, provided that what follows does not prolong it.
Blanks before a lexeme change nothing.
-/

namespace Scriptlet

namespace Lexeme

theorem isBlank_cases {c : Char} (h : isBlank c = true) :
    c = ' ' ∨ c = '\t' ∨ c = '\n' ∨ c = '\r' ∨ c = '\x0c' := by
  simpa [isBlank, or_assoc] using h

theorem not_blank_of_wordStart {c : Char} (h : isWordStart c = true) : isBlank c = false := by
  by_contra hb
  rcases isBlank_cases (by simpa using hb) with rfl | rfl | rfl | rfl | rfl <;> cases h

theorem not_blank_of_digit {c : Char} (h : c.isDigit = true) : isBlank c = false := by
  by_contra hb
  rcases isBlank_cases (by simpa using hb) with rfl | rfl | rfl | rfl | rfl <;> cases h

theorem not_wordStart_of_digit {c : Char} (h : c.isDigit = true) : isWordStart c = false := by
  have hc : c ≠ '_' := by
    rintro rfl
    cases h
  simp only [isWordStart, hc, decide_false, Bool.or_false]
  simp only [Char.isDigit, Char.isAlpha, Char.isUpper, Char.isLower, Bool.and_eq_true,
    decide_eq_true_eq, ge_iff_le, UInt32.le_iff_toNat_le, Bool.or_eq_false_iff,
    Bool.and_eq_false_iff, decide_eq_false_iff_not] at h ⊢
  simp at h ⊢
  omega

theorem single?_class {c : Char} {kind : Kind} (h : single? c = some kind) :
    isBlank c = false ∧ isWordStart c = false ∧ c.isDigit = false ∧ c ≠ '"' := by
  unfold single? at h
  split at h
  case h_17 => cases h
  all_goals decide

theorem pair?_class {c d : Char} {kind : Kind} (h : pair? c d = some kind) :
    isBlank c = false ∧ isWordStart c = false ∧ c.isDigit = false ∧ c ≠ '"' ∧ c ≠ '/' := by
  unfold pair? at h
  split at h
  case h_5 => cases h
  all_goals decide

/-- The lexemes that are tokens. -/
inductive Proper : Lexeme → Prop where
  | word {c : Char} {cs : List Char} (start : isWordStart c = true)
      (part : ∀ d ∈ cs, isWordPart d = true) : Proper ⟨.word, c :: cs⟩
  | whole {c : Char} {cs : List Char} (digit : c.isDigit = true)
      (digits : ∀ d ∈ cs, d.isDigit = true) : Proper ⟨.number, c :: cs⟩
  | point {c d : Char} {cs ds : List Char} (digit : c.isDigit = true)
      (digits : ∀ d ∈ cs, d.isDigit = true) (first : d.isDigit = true)
      (fraction : ∀ d ∈ ds, d.isDigit = true) : Proper ⟨.number, c :: cs ++ '.' :: d :: ds⟩
  | string {inner : List Char} (open_ : ∀ c ∈ inner, c ≠ '"') :
      Proper ⟨.string, '"' :: inner ++ ['"']⟩
  | single {c : Char} {kind : Kind} (symbol : single? c = some kind) : Proper ⟨.symbol kind, [c]⟩
  | pair {c d : Char} {kind : Kind} (symbol : pair? c d = some kind) :
      Proper ⟨.symbol kind, [c, d]⟩

/-- Whether a text does not prolong a lexeme that stands before it. -/
def Closes (l : Lexeme) (rest : List Char) : Prop :=
  match l.form with
  | .word => ∀ d ∈ rest.head?, isWordPart d = false
  | .number => (∀ d ∈ rest.head?, d.isDigit = false) ∧
      ∀ d more, rest = '.' :: d :: more → d.isDigit = false
  | .symbol _ => ∀ c d, l.chars = [c] → d ∈ rest.head? →
      pair? c d = none ∧ ¬ (c = '/' ∧ d = '/')
  | _ => True

section Runs

variable {p : Char → Bool} {cs rest : List Char}

theorem takeWhile_run (h : ∀ d ∈ cs, p d = true) (hr : ∀ d ∈ rest.head?, p d = false) :
    (cs ++ rest).takeWhile p = cs := by
  rw [List.takeWhile_append_of_pos h]
  cases rest with
  | nil => simp
  | cons d rest => simp [hr d rfl]

theorem dropWhile_run (h : ∀ d ∈ cs, p d = true) (hr : ∀ d ∈ rest.head?, p d = false) :
    (cs ++ rest).dropWhile p = rest := by
  rw [List.dropWhile_append_of_pos h]
  cases rest with
  | nil => simp
  | cons d rest => simp [hr d rfl]

end Runs

theorem number_whole {c : Char} {cs rest : List Char} (h : ∀ d ∈ cs, d.isDigit = true)
    (hr : (⟨.number, c :: cs⟩ : Lexeme).Closes rest) :
    number c (cs ++ rest) = (⟨.number, c :: cs⟩, rest) := by
  obtain ⟨hd, hp⟩ := hr
  unfold number
  rw [takeWhile_run h hd, dropWhile_run h hd]
  split
  · rename_i d more
    rw [if_neg (by simp [hp d more rfl])]
  · rfl

theorem number_point {c d : Char} {cs ds rest : List Char} (h : ∀ d ∈ cs, d.isDigit = true)
    (hd : d.isDigit = true) (hds : ∀ d ∈ ds, d.isDigit = true)
    (hr : ∀ d ∈ rest.head?, d.isDigit = false) :
    number c (cs ++ '.' :: d :: ds ++ rest) = (⟨.number, c :: cs ++ '.' :: d :: ds⟩, rest) := by
  have hpoint : ∀ e ∈ ('.' :: (d :: ds ++ rest)).head?, e.isDigit = false := by simp
  unfold number
  rw [List.append_assoc, List.cons_append, takeWhile_run h hpoint, dropWhile_run h hpoint]
  simp only [List.cons_append, hd, if_true]
  rw [takeWhile_run hds hr, dropWhile_run hds hr]

theorem string_closed {inner rest : List Char} (h : ∀ c ∈ inner, c ≠ '"') :
    string '"' (inner ++ '"' :: rest) = (⟨.string, '"' :: inner ++ ['"']⟩, rest) := by
  have hin : ∀ c ∈ inner, decide (c ≠ '"') = true := by simpa using h
  have hq : ∀ c ∈ ('"' :: rest).head?, decide (c ≠ '"') = false := by simp
  unfold string
  rw [takeWhile_run hin hq, dropWhile_run hin hq]

theorem symbol_single {c : Char} {kind : Kind} (h : single? c = some kind) {rest : List Char}
    (hr : ∀ d ∈ rest.head?, pair? c d = none) : symbol c rest = (⟨.symbol kind, [c]⟩, rest) := by
  unfold symbol
  cases rest with
  | nil => simp [h]
  | cons d rest => simp [h, hr d rfl]

/-- A lexeme is read again as itself before a text that does not prolong it. -/
theorem first_proper {l : Lexeme} (h : l.Proper) {rest : List Char} (hr : l.Closes rest) :
    ∃ c cs, l.chars = c :: cs ∧ first c (cs ++ rest) = (l, rest) := by
  cases h with
  | @word c cs start part =>
    refine ⟨c, cs, rfl, ?_⟩
    simp [first, not_blank_of_wordStart start, start, run, takeWhile_run part hr,
      dropWhile_run part hr]
  | @whole c cs digit digits =>
    refine ⟨c, cs, rfl, ?_⟩
    simp [first, not_blank_of_digit digit, not_wordStart_of_digit digit, digit,
      number_whole digits hr]
  | @point c d cs ds digit digits first' fraction =>
    refine ⟨c, cs ++ '.' :: d :: ds, rfl, ?_⟩
    have h := number_point (c := c) digits first' fraction hr.1
    simp only [first, not_blank_of_digit digit, not_wordStart_of_digit digit, digit]
    simpa using h
  | @string inner open_ =>
    refine ⟨'"', inner ++ ['"'], rfl, ?_⟩
    simpa [first, isBlank, isWordStart] using string_closed open_
  | @single c kind symbol =>
    refine ⟨c, [], rfl, ?_⟩
    obtain ⟨hb, hw, hd, hq⟩ := single?_class symbol
    have hc : ¬ (c = '/' ∧ rest.head? = some '/') := fun h => (hr c '/' rfl h.2).2 ⟨h.1, rfl⟩
    simp only [first, hb, hw, hd, hq, List.nil_append, hc, if_false]
    exact symbol_single symbol fun d hd => (hr c d rfl hd).1
  | @pair c d kind symbol =>
    refine ⟨c, [d], rfl, ?_⟩
    obtain ⟨hb, hw, hd, hq, hs⟩ := pair?_class symbol
    simp [first, hb, hw, hd, hq, hs, Lexeme.symbol, symbol]

theorem all_proper {l : Lexeme} (h : l.Proper) {rest : List Char} (hr : l.Closes rest) :
    all (l.chars ++ rest) = l :: all rest := by
  obtain ⟨c, cs, hc, hf⟩ := first_proper h hr
  rw [hc, List.cons_append, all, hf]

theorem mem_all {l : Lexeme} {cs : List Char} (h : l ∈ all cs) :
    ∃ c rest, l = (first c rest).1 := by
  induction cs using all.induct with
  | case1 => simp [all] at h
  | case2 c cs ih =>
    rw [all, List.mem_cons] at h
    rcases h with rfl | h
    · exact ⟨c, cs, rfl⟩
    · exact ih h

theorem number_proper {c : Char} (hc : c.isDigit = true) (cs : List Char) :
    (number c cs).1.Proper := by
  have run : ∀ {cs : List Char}, ∀ d ∈ cs.takeWhile Char.isDigit, d.isDigit = true :=
    fun d hd => List.mem_takeWhile_imp hd
  unfold number
  split
  · split
    · rename_i hd
      exact .point hc run hd run
    · exact .whole hc run
  · exact .whole hc run

theorem string_proper (cs : List Char) :
    (string '"' cs).1.form = .unclosedString ∨ (string '"' cs).1.Proper := by
  unfold string
  split
  · rename_i quote rest hq
    have hquote : quote = '"' := by
      have hhead := List.head?_dropWhile_not (fun c => decide (c ≠ '"')) cs
      rw [hq] at hhead
      simpa using hhead
    subst hquote
    exact .inr (.string fun c hc => by simpa using List.mem_takeWhile_imp hc)
  · exact .inl rfl

theorem symbol_proper (c : Char) (cs : List Char) :
    (symbol c cs).1.form = .stray ∨ (symbol c cs).1.Proper := by
  unfold symbol
  split
  · split
    · exact .inr (.pair ‹_›)
    · exact .inr (.single ‹_›)
    · exact .inl rfl
  · split
    · exact .inr (.single ‹_›)
    · exact .inl rfl

theorem proper_of_token? {l : Lexeme} {cs : List Char} (h : l ∈ all cs) {p : Position} {t : Token}
    (ht : l.token? p = some t) : l.Proper := by
  obtain ⟨c, rest, rfl⟩ := mem_all h
  have fault : (first c rest).1.form ≠ .unclosedString ∧ (first c rest).1.form ≠ .stray := by
    constructor <;> intro hf <;> simp [token?, hf] at ht
  unfold first at ht fault ⊢
  split_ifs at ht fault ⊢ with hb hw hd hq hc
  · simp [run, token?] at ht
  · exact .word hw fun d hd => List.mem_takeWhile_imp hd
  · exact number_proper hd rest
  · subst hq
    exact (string_proper rest).resolve_left fault.1
  · simp [run, token?] at ht
  · exact (symbol_proper c rest).resolve_left fault.2

theorem Proper.kind_ne_endOfInput {l : Lexeme} (hl : l.Proper) {position : Position}
    {t : Token} (ht : l.token? position = some t) : t.kind ≠ .endOfInput := by
  cases hl with
  | word =>
    obtain rfl := Option.some.inj ht
    unfold Kind.ofWord?
    dsimp only
    split <;> decide
  | single symbol =>
    obtain rfl := Option.some.inj ht
    rintro ⟨⟩
    unfold single? at symbol
    split at symbol <;> cases symbol
  | pair symbol =>
    obtain rfl := Option.some.inj ht
    rintro ⟨⟩
    unfold pair? at symbol
    split at symbol <;> cases symbol
  | _ =>
    obtain rfl := Option.some.inj ht
    rintro ⟨⟩

/-- Whether a lexeme only moves the place. -/
def isGap (l : Lexeme) : Bool := l.form = .blank || l.form = .comment

theorem form_of_isGap {l : Lexeme} (h : l.isGap = true) : l.form = .blank ∨ l.form = .comment := by
  simpa [isGap] using h

theorem token?_of_isGap {l : Lexeme} (h : l.isGap = true) (p : Position) : l.token? p = none := by
  rcases form_of_isGap h with hf | hf <;> simp [token?, hf]

theorem error?_of_isGap {l : Lexeme} (h : l.isGap = true) (p : Position) : l.error? p = none := by
  rcases form_of_isGap h with hf | hf <;> simp [error?, hf]

/-- What the lexemes of a text other than gaps stand for; a fault stands for nothing. -/
def scanned (cs : List Char) : List (Option Token) :=
  ((all cs).filter (!·.isGap)).map (·.token? .first)

@[simp] theorem scanned_nil : scanned [] = [] := by
  simp [scanned, all]

theorem scanned_proper {l : Lexeme} (h : l.Proper) {rest : List Char} (hr : l.Closes rest) :
    scanned (l.chars ++ rest) = l.token? .first :: scanned rest := by
  have gap : l.isGap = false := by cases h <;> rfl
  simp [scanned, all_proper h hr, gap]

@[simp] theorem scanned_blank {c : Char} (h : isBlank c = true) (cs : List Char) :
    scanned (c :: cs) = scanned cs := by
  have skip : ∀ c cs, isBlank c = true → scanned (c :: cs) = scanned (cs.dropWhile isBlank) := by
    intro c cs h
    rw [scanned, all]
    simp [first, h, run, isGap, scanned]
  rw [skip c cs h]
  cases cs with
  | nil => rfl
  | cons d ds =>
    by_cases hd : isBlank d = true
    · rw [List.dropWhile_cons_of_pos hd, skip d ds hd]
    · rw [List.dropWhile_cons_of_neg hd]

end Lexeme

def Token.unplaced (t : Token) : Token := { t with position := .first }

namespace Lexeme

theorem token?_unplaced (l : Lexeme) (p : Position) :
    (l.token? p).map Token.unplaced = l.token? .first := by
  unfold token?
  split <;> rfl

theorem token?_place {l : Lexeme} {p : Position} {t : Token} (h : l.token? p = some t) :
    l.token? .first = some t.unplaced := by
  rw [← token?_unplaced l p, h]
  rfl

theorem filterMap_place {α : Type} (f : Lexeme → Position → Option α) (g : Lexeme → Option α)
    (u : α → α) (h : ∀ l p, (f l p).map u = g l) (p : Position) (ls : List Lexeme) :
    ((place p ls).filterMap fun x => f x.1 x.2).map u = ls.filterMap g := by
  induction ls generalizing p with
  | nil => rfl
  | cons l ls ih =>
    rw [place, List.filterMap_cons, List.filterMap_cons, ← h l p, ← ih (p.after l.chars)]
    cases f l p <;> rfl

theorem mem_place {l : Lexeme} {p q : Position} {ls : List Lexeme} (h : (l, q) ∈ place p ls) :
    l ∈ ls := by
  induction ls generalizing p with
  | nil => simp [place] at h
  | cons m ls ih =>
    rw [place, List.mem_cons] at h
    rcases h with h | h
    · simp [(Prod.mk.inj h).1]
    · exact List.mem_cons_of_mem _ (ih h)

theorem no_fault {cs : List Char} {ts : List Token} (h : scanned cs = ts.map some) {l : Lexeme}
    (hl : l ∈ all cs) (p : Position) : l.error? p = none := by
  by_cases hg : l.isGap = true
  · exact error?_of_isGap hg p
  · have hmem : l.token? .first ∈ scanned cs :=
      List.mem_map_of_mem (List.mem_filter.2 ⟨hl, by simpa using hg⟩)
    rw [h, List.mem_map] at hmem
    obtain ⟨t, _, ht⟩ := hmem
    unfold token? at ht
    unfold error?
    split at ht <;> simp_all

theorem filterMap_token? {cs : List Char} {ts : List Token} (h : scanned cs = ts.map some) :
    (all cs).filterMap (·.token? .first) = ts := by
  have gaps : ∀ ls : List Lexeme, ls.filterMap (·.token? .first) =
      ((ls.filter (!·.isGap)).map (·.token? .first)).filterMap id := by
    intro ls
    induction ls with
    | nil => rfl
    | cons l ls ih =>
      by_cases hg : l.isGap = true
      · simp [hg, token?_of_isGap hg, ih]
      · simp [hg, List.filterMap_cons, ih]
  rw [gaps, ← scanned, h]
  simp

end Lexeme

namespace Scan

theorem ofChars_scanned {cs : List Char} {ts : List Token}
    (h : Lexeme.scanned cs = ts.map some) :
    (ofChars cs).errors = [] ∧
      (ofChars cs).tokens.map Token.unplaced = ts ++ [.finish .first] := by
  constructor
  · simp only [ofChars, List.filterMap_eq_nil_iff]
    rintro ⟨l, p⟩ hl
    exact Lexeme.no_fault h (Lexeme.mem_place hl) p
  · have htokens := Lexeme.filterMap_place Lexeme.token? (·.token? .first) Token.unplaced
      Lexeme.token?_unplaced .first (Lexeme.all cs)
    simp only [ofChars, List.map_append, htokens, Lexeme.filterMap_token? h]
    rfl

theorem proper_of_mem {cs : List Char} {t : Token} (h : t ∈ (ofChars cs).tokens)
    (hk : t.kind ≠ .endOfInput) :
    ∃ (l : Lexeme) (p : Position), l.Proper ∧ l.token? p = some t := by
  simp only [ofChars, List.mem_append, List.mem_filterMap, List.mem_singleton] at h
  rcases h with ⟨⟨l, p⟩, hl, ht⟩ | rfl
  · exact ⟨l, p, Lexeme.proper_of_token? (Lexeme.mem_place hl) ht, ht⟩
  · exact absurd rfl hk

end Scan

end Scriptlet
