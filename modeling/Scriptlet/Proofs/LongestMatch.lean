import Scriptlet.Proofs.Diagnostics
import Scriptlet.Proofs.NumberText

/-!
A text is cut into longest matches. The patterns of lexemes are listed here on their own, as rows of
character classes. Each lexeme of a text is the longest match of a pattern at its place, and no
other pattern matches as much; a character at which no pattern matches stands alone. There is only
one way to cut a text like this, and tokens and errors are read off the pieces in order.
-/

namespace Scriptlet

/-- A part of a pattern: one character of a class, or any number of them. -/
inductive Piece where
  | one (inside : Char → Bool)
  | many (inside : Char → Bool)

namespace Piece

def exactly (c : Char) : Piece := .one (· = c)

/-- The texts that a row of pieces matches. -/
def Match : List Piece → List Char → Prop
  | [], cs => cs = []
  | .one inside :: pieces, cs => ∃ c rest, cs = c :: rest ∧ inside c = true ∧ Match pieces rest
  | .many inside :: pieces, cs =>
    ∃ run rest, cs = run ++ rest ∧ (∀ c ∈ run, inside c = true) ∧ Match pieces rest

theorem match_map_exactly {chars cs : List Char} : Match (chars.map exactly) cs ↔ cs = chars := by
  induction chars generalizing cs with
  | nil => exact Iff.rfl
  | cons c chars ih => simp [Match, exactly, ih]

theorem match_run {inside more : Char → Bool} {cs : List Char} :
    Match [.one inside, .many more] cs ↔
      ∃ c run, cs = c :: run ∧ inside c = true ∧ ∀ d ∈ run, more d = true := by
  simp [Match]

end Piece

namespace Pattern

open Piece (exactly)

def symbols : List (List Char × Kind) :=
  [(['('], .leftParen), ([')'], .rightParen), (['{'], .leftBrace), (['}'], .rightBrace),
    ([','], .comma), (['.'], .dot), ([';'], .semicolon), (['-'], .minus), (['+'], .plus),
    (['/'], .slash), (['*'], .star), (['%'], .percent), (['!'], .bang), (['!', '='], .bangEqual),
    (['='], .equal), (['=', '='], .equalEqual), (['>'], .greater), (['>', '='], .greaterEqual),
    (['<'], .less), (['<', '='], .lessEqual)]

def digit (c : Char) : Bool := '0' ≤ c && c ≤ '9'

def letter (c : Char) : Bool := 'a' ≤ c && c ≤ 'z' || 'A' ≤ c && c ≤ 'Z' || c = '_'

def blank (c : Char) : Bool := [' ', '\t', '\n', '\r', '\x0c'].contains c

/-- The patterns that are not a fixed text, each with the form of what it matches. -/
def runs : List (Form × List Piece) :=
  [(.number, [.one digit, .many digit]),
    (.number, [.one digit, .many digit, exactly '.', .one digit, .many digit]),
    (.string, [exactly '"', .many (· ≠ '"'), exactly '"']),
    (.unclosedString, [exactly '"', .many (· ≠ '"')]),
    (.word, [.one letter, .many fun c => letter c || digit c]),
    (.blank, [.one blank, .many blank]),
    (.comment, [exactly '/', exactly '/', .many (· ≠ '\n')])]

def all : List (Form × List Piece) :=
  symbols.map (fun (chars, kind) => (.symbol kind, chars.map exactly)) ++ runs

theorem digit_eq (c : Char) : digit c = c.isDigit := rfl

theorem letter_eq (c : Char) : letter c = Lexeme.isWordStart c := by
  have hupper : c.isUpper = ('A' ≤ c && c ≤ 'Z') := by simp [Char.isUpper, Char.le_def]
  have hlower : c.isLower = ('a' ≤ c && c ≤ 'z') := rfl
  rw [letter, Lexeme.isWordStart, Char.isAlpha, hupper, hlower, Bool.or_comm ('A' ≤ c && c ≤ 'Z')]

theorem part_eq (c : Char) : (letter c || digit c) = Lexeme.isWordPart c := by
  rw [letter_eq, digit_eq, Lexeme.isWordStart, Lexeme.isWordPart, Char.isAlphanum,
    Bool.or_right_comm]

theorem blank_eq (c : Char) : blank c = Lexeme.isBlank c := by
  simp [blank, Lexeme.isBlank, Bool.or_assoc]

end Pattern

namespace Lexeme

/-- Whether a pattern of its form matches the lexeme. -/
def Matched (l : Lexeme) : Prop :=
  ∃ pieces, (l.form, pieces) ∈ Pattern.all ∧ Piece.Match pieces l.chars

inductive Shaped : Lexeme → Prop where
  | token {l : Lexeme} (proper : l.Proper) : Shaped l
  | blank {c : Char} {cs : List Char} (start : isBlank c = true)
      (part : ∀ d ∈ cs, isBlank d = true) : Shaped ⟨.blank, c :: cs⟩
  | comment {cs : List Char} (line : ∀ d ∈ cs, d ≠ '\n') : Shaped ⟨.comment, '/' :: '/' :: cs⟩
  | unclosed {cs : List Char} (open_ : ∀ d ∈ cs, d ≠ '"') : Shaped ⟨.unclosedString, '"' :: cs⟩

theorem symbols_shaped : ∀ entry ∈ Pattern.symbols,
    (match entry.1 with
      | [c] => single? c
      | [c, d] => pair? c d
      | _ => none) = some entry.2 := by decide

theorem mem_symbols_single {c : Char} {kind : Kind} (h : single? c = some kind) :
    ([c], kind) ∈ Pattern.symbols := by
  unfold single? at h
  split at h <;> cases h <;> decide

theorem mem_symbols_pair {c d : Char} {kind : Kind} (h : pair? c d = some kind) :
    ([c, d], kind) ∈ Pattern.symbols := by
  unfold pair? at h
  split at h <;> cases h <;> decide

theorem shaped_symbol {kind : Kind} {cs : List Char} :
    (⟨.symbol kind, cs⟩ : Lexeme).Shaped ↔ (cs, kind) ∈ Pattern.symbols := by
  constructor
  · intro h
    rcases h with ⟨h⟩ | _ | _ | _
    cases h with
    | single symbol => exact mem_symbols_single symbol
    | pair symbol => exact mem_symbols_pair symbol
  · intro h
    have hkind := symbols_shaped _ h
    split at hkind
    next c hc =>
      obtain rfl : cs = [c] := hc
      exact .token (.single hkind)
    next c d hc =>
      obtain rfl : cs = [c, d] := hc
      exact .token (.pair hkind)
    next => cases hkind

theorem shaped_of_matched {l : Lexeme} (h : l.Matched) : l.Shaped := by
  obtain ⟨form, cs⟩ := l
  obtain ⟨pieces, hmem, hmatch⟩ := h
  rcases List.mem_append.1 hmem with hsymbol | hother
  · obtain ⟨⟨chars, kind⟩, hentry, heq⟩ := List.mem_map.1 hsymbol
    obtain ⟨rfl, rfl⟩ := Prod.mk.inj heq
    obtain rfl := Piece.match_map_exactly.1 hmatch
    exact shaped_symbol.2 hentry
  · simp only [Pattern.runs, List.mem_cons, List.not_mem_nil, or_false, Prod.mk.injEq] at hother
    rcases hother with ⟨rfl, rfl⟩ | ⟨rfl, rfl⟩ | ⟨rfl, rfl⟩ | ⟨rfl, rfl⟩ | ⟨rfl, rfl⟩ | ⟨rfl, rfl⟩ |
      ⟨rfl, rfl⟩
    · obtain ⟨c, run, rfl, hc, hrun⟩ := Piece.match_run.1 hmatch
      exact .token (.whole hc hrun)
    · simp only [Piece.Match, Piece.exactly, decide_eq_true_eq] at hmatch
      obtain ⟨c, -, rfl, hc, run, -, rfl, hrun, -, -, rfl, rfl, d, -, rfl, hd, more, -, rfl, hmore,
        rfl⟩ := hmatch
      rw [List.append_nil]
      exact .token (.point hc hrun hd hmore)
    · simp only [Piece.Match, Piece.exactly, decide_eq_true_eq] at hmatch
      obtain ⟨-, -, rfl, rfl, inner, -, rfl, hinner, -, -, rfl, rfl, rfl⟩ := hmatch
      exact .token (.string hinner)
    · obtain ⟨c, run, rfl, hc, hrun⟩ := Piece.match_run.1 hmatch
      obtain rfl : c = '"' := by simpa using hc
      exact .unclosed (by simpa using hrun)
    · obtain ⟨c, run, rfl, hc, hrun⟩ := Piece.match_run.1 hmatch
      exact .token (.word (Pattern.letter_eq c ▸ hc) fun d hd => Pattern.part_eq d ▸ hrun d hd)
    · obtain ⟨c, run, rfl, hc, hrun⟩ := Piece.match_run.1 hmatch
      exact .blank (Pattern.blank_eq c ▸ hc) fun d hd => Pattern.blank_eq d ▸ hrun d hd
    · simp only [Piece.Match, Piece.exactly, decide_eq_true_eq] at hmatch
      obtain ⟨-, -, rfl, rfl, -, -, rfl, rfl, run, -, rfl, hrun, rfl⟩ := hmatch
      rw [List.append_nil]
      exact .comment hrun

theorem matched_of_shaped {l : Lexeme} (h : l.Shaped) : l.Matched := by
  have symbol : ∀ {kind : Kind} {cs : List Char}, (cs, kind) ∈ Pattern.symbols →
      (⟨.symbol kind, cs⟩ : Lexeme).Matched := by
    intro kind cs hmem
    exact ⟨_, List.mem_append_left _ (List.mem_map_of_mem hmem), Piece.match_map_exactly.2 rfl⟩
  have run : ∀ {form : Form} {cs : List Char} (pieces : List Piece),
      (form, pieces) ∈ Pattern.runs → Piece.Match pieces cs → (⟨form, cs⟩ : Lexeme).Matched := by
    intro form cs pieces hmem hmatch
    exact ⟨pieces, List.mem_append_right _ hmem, hmatch⟩
  cases h with
  | token proper =>
    cases proper with
    | single hkind => exact symbol (mem_symbols_single hkind)
    | pair hkind => exact symbol (mem_symbols_pair hkind)
    | @word c cs start part =>
      refine run [.one Pattern.letter, .many fun c => Pattern.letter c || Pattern.digit c]
        (by simp [Pattern.runs]) (Piece.match_run.2 ⟨c, cs, rfl, Pattern.letter_eq c ▸ start, ?_⟩)
      intro d hd
      rw [Pattern.part_eq]
      exact part d hd
    | @whole c cs digit digits =>
      exact run [.one Pattern.digit, .many Pattern.digit] (by simp [Pattern.runs])
        (Piece.match_run.2 ⟨c, cs, rfl, digit, digits⟩)
    | @point c d cs ds digit digits first fraction =>
      exact run _ (List.mem_cons_of_mem _ List.mem_cons_self)
        ⟨c, _, rfl, digit, cs, _, rfl, digits, '.', _, rfl, rfl, d, ds, rfl, first, ds, [],
          (List.append_nil ds).symm, fraction, rfl⟩
    | @string inner open_ =>
      exact run [.exactly '"', .many (· ≠ '"'), .exactly '"'] (by simp [Pattern.runs])
        ⟨'"', _, rfl, rfl, inner, _, rfl, by simpa using open_, '"', [], rfl, rfl, rfl⟩
  | @blank c cs start part =>
    refine run [.one Pattern.blank, .many Pattern.blank] (by simp [Pattern.runs])
      (Piece.match_run.2 ⟨c, cs, rfl, Pattern.blank_eq c ▸ start, ?_⟩)
    intro d hd
    rw [Pattern.blank_eq]
    exact part d hd
  | @comment cs line =>
    exact run [.exactly '/', .exactly '/', .many (· ≠ '\n')] (by simp [Pattern.runs])
      ⟨'/', _, rfl, rfl, '/', cs, rfl, rfl, cs, [], (List.append_nil cs).symm, by simpa using line,
        rfl⟩
  | @unclosed cs open_ =>
    exact run [.exactly '"', .many (· ≠ '"')] (by simp [Pattern.runs])
      (Piece.match_run.2 ⟨'"', cs, rfl, rfl, by simpa using open_⟩)

/-- What a character begins. -/
inductive Opening where
  | blank
  | word
  | number
  | quote
  | mark
  deriving DecidableEq

def Opening.ofChar (c : Char) : Opening :=
  if isBlank c then .blank
  else if isWordStart c then .word
  else if c.isDigit then .number
  else if c = '"' then .quote
  else .mark

def opening : Form → Opening
  | .blank => .blank
  | .word => .word
  | .number => .number
  | .string => .quote
  | .unclosedString => .quote
  | .comment => .mark
  | .symbol _ => .mark
  | .stray => .mark

theorem Shaped.opens {l : Lexeme} (h : l.Shaped) :
    ∃ c cs, l.chars = c :: cs ∧ opening l.form = .ofChar c := by
  have mark : ∀ {c : Char},
      isBlank c = false ∧ isWordStart c = false ∧ c.isDigit = false ∧ c ≠ '"' →
        Opening.mark = .ofChar c := by
    rintro c ⟨hb, hw, hd, hq⟩
    simp [Opening.ofChar, hb, hw, hd, hq]
  cases h with
  | token proper =>
    cases proper with
    | word start =>
      exact ⟨_, _, rfl, by simp [opening, Opening.ofChar, start, not_blank_of_wordStart start]⟩
    | whole digit =>
      exact ⟨_, _, rfl, by simp [opening, Opening.ofChar, digit, not_blank_of_digit digit,
        not_wordStart_of_digit digit]⟩
    | point digit =>
      exact ⟨_, _, rfl, by simp [opening, Opening.ofChar, digit, not_blank_of_digit digit,
        not_wordStart_of_digit digit]⟩
    | string => exact ⟨'"', _, rfl, rfl⟩
    | single symbol => exact ⟨_, _, rfl, mark (single?_class symbol)⟩
    | pair symbol =>
      obtain ⟨hb, hw, hd, hq, -⟩ := pair?_class symbol
      exact ⟨_, _, rfl, mark ⟨hb, hw, hd, hq⟩⟩
  | blank start => exact ⟨_, _, rfl, by simp [opening, Opening.ofChar, start]⟩
  | comment => exact ⟨'/', _, rfl, rfl⟩
  | unclosed => exact ⟨'"', _, rfl, rfl⟩

theorem Shaped.begins {l : Lexeme} (h : l.Shaped) {c : Char} {cs : List Char}
    (hp : l.chars <+: c :: cs) :
    ∃ xs, l.chars = c :: xs ∧ xs <+: cs ∧ opening l.form = .ofChar c := by
  obtain ⟨d, xs, hl, hopen⟩ := h.opens
  rw [hl] at hp
  obtain ⟨rfl, hxs⟩ := List.cons_prefix_cons.1 hp
  exact ⟨xs, hl, hxs, hopen⟩

/-- Whether longest match cuts the lexeme off a text: a pattern matches it, and all other matches
are shorter, or no pattern matches and it is a single character. -/
inductive Cuts : Lexeme → List Char → Prop where
  | longest {l : Lexeme} {text : List Char} (matched : l.Matched) (begins : l.chars <+: text)
      (longest : ∀ k : Lexeme, k.Matched → k.chars <+: text →
        k = l ∨ k.chars.length < l.chars.length) : Cuts l text
  | stray {c : Char} {rest : List Char}
      (unmatched : ∀ k : Lexeme, k.Matched → ¬ k.chars <+: c :: rest) :
      Cuts ⟨.stray, [c]⟩ (c :: rest)

theorem eq_or_shorter {form : Form} {xs ys : List Char} (h : xs <+: ys) :
    (⟨form, xs⟩ : Lexeme) = ⟨form, ys⟩ ∨ xs.length < ys.length := by
  rcases Nat.lt_or_ge xs.length ys.length with hlt | hge
  · exact .inr hlt
  · exact .inl (by rw [h.eq_of_length_le hge])

theorem prefix_takeWhile {p : Char → Bool} {xs cs : List Char} (h : xs <+: cs)
    (hp : ∀ x ∈ xs, p x = true) : xs <+: cs.takeWhile p := by
  obtain ⟨more, rfl⟩ := h
  rw [List.takeWhile_append_of_pos hp]
  exact List.prefix_append _ _

/-- A lexeme is cut off if every other match there is a shorter one of its form, or a shorter one
anyway. -/
theorem Shaped.cuts {l : Lexeme} {c : Char} {cs : List Char} (h : l.Shaped)
    (begins : l.chars <+: c :: cs)
    (others : ∀ k xs, Shaped k → opening k.form = .ofChar c → k.chars = c :: xs → xs <+: cs →
      k.form = l.form ∧ k.chars <+: l.chars ∨ k.chars.length < l.chars.length) :
    l.Cuts (c :: cs) := by
  refine .longest (matched_of_shaped h) begins fun k hk hprefix => ?_
  have hshape := shaped_of_matched hk
  obtain ⟨xs, hchars, hxs, hopen⟩ := hshape.begins hprefix
  rcases others k xs hshape hopen hchars hxs with ⟨hform, hle⟩ | hlt
  · obtain ⟨form, chars⟩ := k
    obtain ⟨form', chars'⟩ := l
    obtain rfl : form = form' := hform
    exact eq_or_shorter hle
  · exact .inr hlt

theorem cuts_blank {c : Char} (h : isBlank c = true) (cs : List Char) :
    (run .blank isBlank c cs).1.Cuts (c :: cs) := by
  have hshaped : (run .blank isBlank c cs).1.Shaped :=
    .blank h fun x hx => List.mem_takeWhile_imp hx
  refine hshaped.cuts (List.cons_prefix_cons.2 ⟨rfl, List.takeWhile_prefix _⟩) ?_
  intro k xs hk hopen hchars hxs
  have hclass : opening k.form = .blank := by simp [hopen, Opening.ofChar, h]
  cases hk with
  | blank start part =>
    obtain ⟨rfl, rfl⟩ := List.cons.inj hchars
    exact .inl ⟨rfl, List.cons_prefix_cons.2 ⟨rfl, prefix_takeWhile hxs part⟩⟩
  | token proper => cases proper <;> cases hclass
  | _ => cases hclass

theorem cuts_word {c : Char} (hb : isBlank c = false) (h : isWordStart c = true) (cs : List Char) :
    (run .word isWordPart c cs).1.Cuts (c :: cs) := by
  have hshaped : (run .word isWordPart c cs).1.Shaped :=
    .token (.word h fun x hx => List.mem_takeWhile_imp hx)
  refine hshaped.cuts (List.cons_prefix_cons.2 ⟨rfl, List.takeWhile_prefix _⟩) ?_
  intro k xs hk hopen hchars hxs
  have hclass : opening k.form = .word := by simp [hopen, Opening.ofChar, hb, h]
  cases hk with
  | token proper =>
    cases proper with
    | word start part =>
      obtain ⟨rfl, rfl⟩ := List.cons.inj hchars
      exact .inl ⟨rfl, List.cons_prefix_cons.2 ⟨rfl, prefix_takeWhile hxs part⟩⟩
    | _ => cases hclass
  | _ => cases hclass

theorem begins_of_whole (c : Char) (cs : List Char) :
    c :: cs.takeWhile Char.isDigit <+: (number c cs).1.chars := by
  unfold number
  dsimp only
  split
  · split
    · exact List.prefix_append _ _
    · exact List.prefix_rfl
  · exact List.prefix_rfl

theorem begins_of_point {c d : Char} {xs ds cs : List Char} (hxs : ∀ x ∈ xs, x.isDigit = true)
    (hd : d.isDigit = true) (hds : ∀ x ∈ ds, x.isDigit = true)
    (h : xs ++ '.' :: d :: ds <+: cs) : c :: xs ++ '.' :: d :: ds <+: (number c cs).1.chars := by
  obtain ⟨more, rfl⟩ := h
  have hpoint : ∀ e ∈ ('.' :: d :: (ds ++ more)).head?, e.isDigit = false := by simp
  have hcs : xs ++ '.' :: d :: ds ++ more = xs ++ '.' :: d :: (ds ++ more) := by simp
  unfold number
  rw [hcs, takeWhile_run hxs hpoint, dropWhile_run hxs hpoint]
  simp only [hd, if_true]
  refine (List.prefix_append_right_inj _).2 (List.cons_prefix_cons.2 ⟨rfl, ?_⟩)
  exact List.cons_prefix_cons.2 ⟨rfl, prefix_takeWhile (List.prefix_append ds more) hds⟩

theorem cuts_number {c : Char} (h : c.isDigit = true) {cs : List Char}
    (begins : (number c cs).1.chars <+: c :: cs) : (number c cs).1.Cuts (c :: cs) := by
  have hshaped : (number c cs).1.Shaped := .token (number_proper h cs)
  refine hshaped.cuts begins ?_
  intro k xs hk hopen hchars hxs
  have hclass : opening k.form = .number := by
    simp [hopen, Opening.ofChar, not_blank_of_digit h, not_wordStart_of_digit h, h]
  rw [number_form]
  cases hk with
  | token proper =>
    cases proper with
    | whole _ digits =>
      obtain ⟨rfl, rfl⟩ := List.cons.inj hchars
      refine .inl ⟨rfl, .trans ?_ (begins_of_whole _ cs)⟩
      exact List.cons_prefix_cons.2 ⟨rfl, prefix_takeWhile hxs digits⟩
    | point _ digits first fraction =>
      obtain ⟨rfl, rfl⟩ := List.cons.inj hchars
      exact .inl ⟨rfl, begins_of_point digits first fraction hxs⟩
    | _ => cases hclass
  | _ => cases hclass

theorem takeWhile_quote {inner : List Char} (h : ∀ c ∈ inner, c ≠ '"') (rest : List Char) :
    (inner ++ '"' :: rest).takeWhile (· ≠ '"') = inner :=
  takeWhile_run (by simpa using h) (by simp)

theorem cuts_closed {inner : List Char} (h : ∀ c ∈ inner, c ≠ '"') (rest : List Char) :
    (⟨.string, '"' :: inner ++ ['"']⟩ : Lexeme).Cuts ('"' :: (inner ++ '"' :: rest)) := by
  refine (Shaped.token (.string h)).cuts ⟨rest, by simp⟩ ?_
  intro k xs hk hopen hchars hxs
  have hclass : opening k.form = .quote := hopen
  cases hk with
  | token proper =>
    cases proper with
    | @string inner' open_ =>
      obtain ⟨-, rfl⟩ := List.cons.inj hchars
      obtain ⟨more, hmore⟩ := hxs
      have htext : inner' ++ '"' :: more = inner ++ '"' :: rest := by simpa using hmore
      have hsame := congrArg (List.takeWhile (· ≠ '"')) htext
      rw [takeWhile_quote open_, takeWhile_quote h] at hsame
      rw [hsame]
      exact .inl ⟨rfl, List.prefix_rfl⟩
    | _ => cases hclass
  | unclosed open_ =>
    obtain ⟨-, rfl⟩ := List.cons.inj hchars
    have hle := (prefix_takeWhile (p := (· ≠ '"')) hxs (by simpa using open_)).length_le
    rw [takeWhile_quote h] at hle
    right
    simp only [List.length_cons, List.length_append, List.length_nil]
    omega
  | _ => cases hclass

theorem cuts_unclosed {cs : List Char} (h : '"' ∉ cs) :
    (⟨.unclosedString, '"' :: cs⟩ : Lexeme).Cuts ('"' :: cs) := by
  have hopen : ∀ c ∈ cs, c ≠ '"' := fun c hc heq => h (heq ▸ hc)
  refine (Shaped.unclosed hopen).cuts List.prefix_rfl ?_
  intro k xs hk hopen hchars hxs
  have hclass : opening k.form = .quote := hopen
  cases hk with
  | token proper =>
    cases proper with
    | string =>
      obtain ⟨-, rfl⟩ := List.cons.inj hchars
      exact absurd (hxs.subset (by simp)) h
    | _ => cases hclass
  | unclosed open_ =>
    obtain ⟨-, rfl⟩ := List.cons.inj hchars
    exact .inl ⟨rfl, List.cons_prefix_cons.2 ⟨rfl, hxs⟩⟩
  | _ => cases hclass

theorem cuts_string (cs : List Char) : (string '"' cs).1.Cuts ('"' :: cs) := by
  by_cases hquote : '"' ∈ cs
  · obtain ⟨inner, rest, rfl, hfree⟩ := List.eq_append_cons_of_mem hquote
    have hinner : ∀ c ∈ inner, c ≠ '"' := fun c hc heq => hfree (heq ▸ hc)
    rw [string_closed hinner]
    exact cuts_closed hinner rest
  · rw [string_open hquote]
    exact cuts_unclosed hquote

theorem cuts_comment (cs : List Char) :
    (run .comment (· ≠ '\n') '/' ('/' :: cs)).1.Cuts ('/' :: '/' :: cs) := by
  have hrun : (run .comment (· ≠ '\n') '/' ('/' :: cs)).1 =
      ⟨.comment, '/' :: '/' :: cs.takeWhile (· ≠ '\n')⟩ := rfl
  have hline : ∀ d ∈ cs.takeWhile (· ≠ '\n'), d ≠ '\n' := by
    intro d hd
    simpa using List.mem_takeWhile_imp hd
  rw [hrun]
  refine (Shaped.comment hline).cuts ?_ ?_
  · exact List.cons_prefix_cons.2 ⟨rfl, List.cons_prefix_cons.2 ⟨rfl, List.takeWhile_prefix _⟩⟩
  · intro k xs hk hopen hchars hxs
    have hclass : opening k.form = .mark := hopen
    cases hk with
    | token proper =>
      cases proper with
      | single symbol => exact .inr (by simp)
      | pair symbol =>
        obtain ⟨rfl, rfl⟩ := List.cons.inj hchars
        exact absurd rfl (pair?_class symbol).2.2.2.2
      | _ => cases hclass
    | comment line =>
      obtain ⟨-, rfl⟩ := List.cons.inj hchars
      obtain ⟨-, hxs⟩ := List.cons_prefix_cons.1 hxs
      refine .inl ⟨rfl, List.cons_prefix_cons.2 ⟨rfl, List.cons_prefix_cons.2 ⟨rfl, ?_⟩⟩⟩
      exact prefix_takeWhile hxs (by simpa using line)
    | _ => cases hclass

theorem Shaped.symbol {k : Lexeme} (h : k.Shaped) {c : Char} {cs xs : List Char}
    (hclass : opening k.form = .mark) (hslash : ¬(c = '/' ∧ cs.head? = some '/'))
    (hchars : k.chars = c :: xs) (hxs : xs <+: cs) :
    (∃ kind, k = ⟨.symbol kind, [c]⟩ ∧ single? c = some kind) ∨
      ∃ d rest kind, cs = d :: rest ∧ k = ⟨.symbol kind, [c, d]⟩ ∧ pair? c d = some kind := by
  cases h with
  | token proper =>
    cases proper with
    | single symbol =>
      obtain ⟨rfl, rfl⟩ := List.cons.inj hchars
      exact .inl ⟨_, rfl, symbol⟩
    | pair symbol =>
      obtain ⟨rfl, rfl⟩ := List.cons.inj hchars
      obtain ⟨rest, rfl⟩ := hxs
      exact .inr ⟨_, _, _, rfl, rfl, symbol⟩
    | _ => cases hclass
  | comment =>
    obtain ⟨rfl, rfl⟩ := List.cons.inj hchars
    obtain ⟨rest, rfl⟩ := hxs
    exact absurd ⟨rfl, rfl⟩ hslash
  | _ => cases hclass

theorem pair?_single {c d : Char} {kind : Kind} (h : pair? c d = some kind) :
    (single? c).isSome = true := by
  unfold pair? at h
  split at h <;> first | rfl | cases h

theorem symbol_pair {c d : Char} {kind : Kind} (h : pair? c d = some kind) (rest : List Char) :
    (symbol c (d :: rest)).1 = ⟨.symbol kind, [c, d]⟩ := by
  simp [symbol, h]

theorem symbol_stray {c : Char} (h : single? c = none) (cs : List Char) :
    (symbol c cs).1 = ⟨.stray, [c]⟩ := by
  have hpair : ∀ d, pair? c d = none := by
    intro d
    by_contra hsome
    obtain ⟨kind, hkind⟩ := Option.ne_none_iff_exists'.1 hsome
    have hsingle := pair?_single hkind
    rw [h] at hsingle
    cases hsingle
  cases cs <;> simp [symbol, h, hpair]

theorem cuts_symbol {c : Char} {cs : List Char} (hclass : Opening.ofChar c = .mark)
    (hslash : ¬(c = '/' ∧ cs.head? = some '/')) : (symbol c cs).1.Cuts (c :: cs) := by
  cases hsingle : single? c with
  | none =>
    rw [symbol_stray hsingle]
    refine .stray fun k hk hprefix => ?_
    have hshape := shaped_of_matched hk
    obtain ⟨xs, hchars, hxs, hopen⟩ := hshape.begins hprefix
    rcases hshape.symbol (hopen.trans hclass) hslash hchars hxs with
      ⟨kind, -, hkind⟩ | ⟨d, rest, kind, -, -, hkind⟩
    · rw [hsingle] at hkind
      cases hkind
    · have hsome := pair?_single hkind
      rw [hsingle] at hsome
      cases hsome
  | some kind =>
    by_cases hpair : ∀ d ∈ cs.head?, pair? c d = none
    · rw [symbol_single hsingle hpair]
      refine (Shaped.token (.single hsingle)).cuts (List.prefix_append [c] cs) ?_
      intro k xs hk hopen hchars hxs
      rcases hk.symbol (hopen.trans hclass) hslash hchars hxs with
        ⟨kind', rfl, hkind⟩ | ⟨d, rest, kind', rfl, -, hkind⟩
      · obtain rfl := Option.some.inj (hsingle.symm.trans hkind)
        exact .inl ⟨rfl, List.prefix_rfl⟩
      · rw [hpair d rfl] at hkind
        cases hkind
    · simp only [not_forall] at hpair
      obtain ⟨d, hd, hsome⟩ := hpair
      obtain ⟨kind₂, hkind₂⟩ := Option.ne_none_iff_exists'.1 hsome
      obtain ⟨rest, rfl⟩ := List.head?_eq_some_iff.1 hd
      rw [symbol_pair hkind₂]
      refine (Shaped.token (.pair hkind₂)).cuts (List.prefix_append [c, d] rest) ?_
      intro k xs hk hopen hchars hxs
      rcases hk.symbol (hopen.trans hclass) hslash hchars hxs with
        ⟨kind', rfl, -⟩ | ⟨e, more, kind', heq, rfl, hkind⟩
      · exact .inr (by simp)
      · obtain ⟨rfl, rfl⟩ := List.cons.inj heq
        obtain rfl := Option.some.inj (hkind₂.symm.trans hkind)
        exact .inl ⟨rfl, List.prefix_rfl⟩

theorem first_cuts (c : Char) (cs : List Char) : (first c cs).1.Cuts (c :: cs) := by
  have begins : (first c cs).1.chars <+: c :: cs := ⟨_, first_tiles c cs⟩
  unfold first at begins ⊢
  split_ifs at begins ⊢ with hb hw hd hq hc
  · exact cuts_blank hb cs
  · exact cuts_word (by simpa using hb) hw cs
  · exact cuts_number hd begins
  · subst hq
    exact cuts_string cs
  · obtain ⟨rfl, hhead⟩ := hc
    obtain ⟨rest, rfl⟩ := List.head?_eq_some_iff.1 hhead
    exact cuts_comment rest
  · exact cuts_symbol (by simp [Opening.ofChar, hb, hw, hd, hq]) hc

/-- Whether lexemes are a text cut by longest match, from its first character to its last. -/
def Tiling : List Lexeme → List Char → Prop
  | [], text => text = []
  | l :: ls, text =>
    l.chars ≠ [] ∧ l.Cuts text ∧ ∃ rest, text = l.chars ++ rest ∧ Tiling ls rest

theorem tiling_all (text : List Char) : Tiling (all text) text := by
  induction text using all.induct with
  | case1 =>
    rw [all]
    rfl
  | case2 c cs ih =>
    rw [all]
    exact ⟨first_ne_nil c cs, first_cuts c cs, _, (first_tiles c cs).symm, ih⟩

theorem Cuts.unique {l k : Lexeme} {text : List Char} (h : l.Cuts text) (h' : k.Cuts text) :
    k = l := by
  cases h with
  | longest matched begins longest =>
    cases h' with
    | longest matched' begins' longest' =>
      -- Neither of two longest matches can be shorter than the other.
      rcases longest k matched' begins' with heq | hlt
      · exact heq
      · rcases longest' l matched begins with heq | hlt'
        · exact heq.symm
        · omega
    | stray unmatched => exact absurd begins (unmatched l matched)
  | stray unmatched =>
    cases h' with
    | longest matched' begins' _ => exact absurd begins' (unmatched k matched')
    | stray _ => rfl

theorem Tiling.unique {ls ks : List Lexeme} {text : List Char} (h : Tiling ls text)
    (h' : Tiling ks text) : ks = ls := by
  induction ls generalizing ks text with
  | nil =>
    obtain rfl : text = [] := h
    cases ks with
    | nil => rfl
    | cons k ks =>
      obtain ⟨hne, -, rest, htext, -⟩ := h'
      exact absurd (List.append_eq_nil_iff.1 htext.symm).1 hne
  | cons l ls ih =>
    obtain ⟨hne, hcuts, rest, rfl, hmore⟩ := h
    cases ks with
    | nil => exact absurd (List.append_eq_nil_iff.1 h').1 hne
    | cons k ks =>
      obtain ⟨-, hcuts', rest', htext, hmore'⟩ := h'
      obtain rfl := hcuts.unique hcuts'
      obtain rfl := List.append_cancel_left htext
      rw [ih hmore hmore']

theorem string_of_quote {l : Lexeme} {text before behind : List Char}
    (h : l.CutOut text before behind) (hquote : l.chars.head? = some '"') :
    if '"' ∈ l.chars.tail ++ behind then l.form = .string
    else l.form = .unclosedString ∧ behind = [] := by
  obtain ⟨c, cs, hchars, hfirst⟩ := h.begins
  obtain ⟨inner, hinner⟩ := List.head?_eq_some_iff.1 hquote
  rw [hinner] at hchars ⊢
  obtain ⟨rfl, rfl⟩ := List.cons.inj hchars
  rw [List.tail_cons]
  have hstring : string '"' (inner ++ behind) = (l, behind) := by
    simpa [first, isBlank, isWordStart] using hfirst
  split
  next hmem =>
    rcases string_form (inner ++ behind) with hform | ⟨-, hnone⟩
    · rwa [hstring] at hform
    · exact absurd hmem hnone
  next hnone =>
    rw [string_open hnone] at hstring
    obtain ⟨hl, hbehind⟩ := Prod.mk.inj hstring
    exact ⟨by rw [← hl], hbehind.symm⟩

end Lexeme

def Kind.reserved : List (String × Kind) :=
  [("and", .andWord), ("class", .classWord), ("const", .constWord), ("else", .elseWord),
    ("false", .falseWord), ("for", .forWord), ("fun", .functionWord),
    ("function", .functionWord), ("if", .ifWord), ("let", .letWord), ("nil", .nilWord),
    ("null", .nilWord), ("or", .orWord), ("print", .printWord), ("return", .returnWord),
    ("super", .superWord), ("this", .thisWord), ("true", .trueWord), ("var", .letWord),
    ("while", .whileWord)]

theorem Kind.ofWord?_eq_some_iff {word : String} {kind : Kind} :
    ofWord? word = some kind ↔ (word, kind) ∈ reserved := by
  constructor
  · intro h
    unfold ofWord? at h
    split at h <;> cases h <;> decide
  · have hwords : ∀ entry ∈ reserved, ofWord? entry.1 = some entry.2 := by decide
    exact fun h => hwords _ h

/-- The number that digits spell, with or without a point. -/
inductive Numeral : List Char → ℚ → Prop where
  | whole {cs : List Char} (digits : ∀ c ∈ cs, Pattern.digit c = true) :
      Numeral cs (Nat.ofDigitChars 10 cs 0)
  | point {cs ds : List Char} (digits : ∀ c ∈ cs, Pattern.digit c = true)
      (fraction : ∀ d ∈ ds, Pattern.digit d = true) :
      Numeral (cs ++ '.' :: ds) (Nat.ofDigitChars 10 (cs ++ ds) 0 / 10 ^ ds.length)

theorem Numeral.ofChars {l : Lexeme} (h : l.Proper) (hform : l.form = .number) :
    Numeral l.chars (Decimal.ofChars l.chars).value := by
  cases h with
  | @whole c cs digit digits =>
    have hall : ∀ d ∈ c :: cs, d.isDigit = true := List.forall_mem_cons.2 ⟨digit, digits⟩
    have hvalue : (Decimal.ofChars (c :: cs)).value = Nat.ofDigitChars 10 (c :: cs) 0 := by
      rw [Decimal.ofChars_whole hall, Decimal.value, Decimal.naturalOf_eq]
      simp
    rw [hvalue]
    exact .whole hall
  | @point c d cs ds digit digits first fraction =>
    have hall : ∀ d ∈ c :: cs, d.isDigit = true := List.forall_mem_cons.2 ⟨digit, digits⟩
    have hvalue : (Decimal.ofChars (c :: cs ++ '.' :: d :: ds)).value =
        Nat.ofDigitChars 10 (c :: cs ++ d :: ds) 0 / 10 ^ (d :: ds).length := by
      rw [Decimal.ofChars_point hall, Decimal.value, Decimal.naturalOf_eq, zpow_neg, zpow_natCast,
        div_eq_mul_inv]
    rw [hvalue]
    exact .point hall (List.forall_mem_cons.2 ⟨first, fraction⟩)
  | _ => cases hform

namespace Lexeme

inductive Yields (p : Position) : Lexeme → Token → Prop where
  | symbol (kind : Kind) (chars : List Char) :
      Yields p ⟨.symbol kind, chars⟩ ⟨kind, String.ofList chars, none, p⟩
  | reserved {kind : Kind} {chars : List Char}
      (word : (String.ofList chars, kind) ∈ Kind.reserved) :
      Yields p ⟨.word, chars⟩ ⟨kind, String.ofList chars, none, p⟩
  | name {chars : List Char} (free : ∀ kind, (String.ofList chars, kind) ∉ Kind.reserved) :
      Yields p ⟨.word, chars⟩ ⟨.identifier, String.ofList chars, none, p⟩
  | number {chars : List Char} {value : ℚ} (numeral : Numeral chars value) :
      Yields p ⟨.number, chars⟩ ⟨.number, String.ofList chars,
        some (.number (.ofModel (.pack (Number.nearest value)))), p⟩
  | string (inner : List Char) :
      Yields p ⟨.string, '"' :: inner ++ ['"']⟩ ⟨.string, String.ofList ('"' :: inner ++ ['"']),
        some (.string (String.ofList inner)), p⟩

inductive Faults (p : Position) : Lexeme → Report → Prop where
  | unexpected (c : Char) :
      Faults p ⟨.stray, [c]⟩ ⟨.lexer, p.line, some p.column, s!"Unexpected character '{c}'."⟩
  | unterminated (chars : List Char) :
      Faults p ⟨.unclosedString, chars⟩ ⟨.lexer, p.line, some p.column, "Unterminated string."⟩

/-- Tokens and reports read off lexemes that stand in a row from `p` on. -/
inductive ReadOff : Position → List Lexeme → List Token → List Report → Prop where
  | nil (p : Position) : ReadOff p [] [] []
  | token {p : Position} {l : Lexeme} {t : Token} {ls : List Lexeme} {ts : List Token}
      {rs : List Report} (yields : l.Yields p t) (more : ReadOff (p.after l.chars) ls ts rs) :
      ReadOff p (l :: ls) (t :: ts) rs
  | gap {p : Position} {l : Lexeme} {ls : List Lexeme} {ts : List Token} {rs : List Report}
      (skipped : l.form = .blank ∨ l.form = .comment) (more : ReadOff (p.after l.chars) ls ts rs) :
      ReadOff p (l :: ls) ts rs
  | fault {p : Position} {l : Lexeme} {r : Report} {ls : List Lexeme} {ts : List Token}
      {rs : List Report} (faults : l.Faults p r) (more : ReadOff (p.after l.chars) ls ts rs) :
      ReadOff p (l :: ls) ts (r :: rs)

theorem Proper.yields {l : Lexeme} (h : l.Proper) (p : Position) :
    ∃ t, l.token? p = some t ∧ l.error? p = none ∧ l.Yields p t := by
  cases h with
  | @word c cs start part =>
    refine ⟨_, rfl, rfl, ?_⟩
    cases hword : Kind.ofWord? (String.ofList (c :: cs)) with
    | some kind =>
      simp only [text, hword, Option.getD_some]
      exact .reserved (Kind.ofWord?_eq_some_iff.1 hword)
    | none =>
      simp only [text, hword, Option.getD_none]
      refine .name fun kind hmem => ?_
      rw [Kind.ofWord?_eq_some_iff.2 hmem] at hword
      cases hword
  | @whole c cs digit digits =>
    refine ⟨_, rfl, rfl, ?_⟩
    rw [Decimal.toFloat_eq]
    exact .number (.ofChars (.whole digit digits) rfl)
  | @point c d cs ds digit digits first fraction =>
    refine ⟨_, rfl, rfl, ?_⟩
    rw [Decimal.toFloat_eq]
    exact .number (.ofChars (.point digit digits first fraction) rfl)
  | @string inner open_ =>
    refine ⟨_, rfl, rfl, ?_⟩
    have hinner : Lexeme.inner ⟨.string, '"' :: inner ++ ['"']⟩ = String.ofList inner := by
      simp [Lexeme.inner]
    rw [hinner]
    exact .string inner
  | @single c kind symbol => exact ⟨_, rfl, rfl, .symbol kind [c]⟩
  | @pair c d kind symbol => exact ⟨_, rfl, rfl, .symbol kind [c, d]⟩

theorem Cuts.read {l : Lexeme} {text : List Char} (h : l.Cuts text) (p : Position) :
    (∃ t, l.token? p = some t ∧ l.error? p = none ∧ l.Yields p t) ∨
      ((l.form = .blank ∨ l.form = .comment) ∧ l.token? p = none ∧ l.error? p = none) ∨
      ∃ e, l.token? p = none ∧ l.error? p = some e ∧ l.Faults p e.report := by
  cases h with
  | longest matched begins longest =>
    cases shaped_of_matched matched with
    | token proper => exact .inl (proper.yields p)
    | blank start part => exact .inr (.inl ⟨.inl rfl, rfl, rfl⟩)
    | comment line => exact .inr (.inl ⟨.inr rfl, rfl, rfl⟩)
    | @unclosed cs open_ => exact .inr (.inr ⟨_, rfl, rfl, .unterminated ('"' :: cs)⟩)
  | @stray c cs unmatched => exact .inr (.inr ⟨_, rfl, rfl, .unexpected c⟩)

theorem readOff_all (p : Position) (text : List Char) :
    ReadOff p (all text) (found token? p text)
      ((found error? p text).map LexicalError.report) := by
  induction text using all.induct generalizing p with
  | case1 =>
    rw [all, found_nil, found_nil]
    exact .nil p
  | case2 c cs ih =>
    have hmore := ih (p.after (first c cs).1.chars)
    rw [all, found_cons, found_cons]
    rcases (first_cuts c cs).read p with ⟨t, htoken, herror, hyields⟩ | ⟨hgap, htoken, herror⟩ |
      ⟨e, htoken, herror, hfaults⟩
    · rw [htoken, herror]
      exact .token hyields hmore
    · rw [htoken, herror]
      exact .gap hgap hmore
    · rw [htoken, herror]
      exact .fault hfaults hmore

/-- An unclosed string is the last fault of a text, since it takes all that follows. -/
theorem fault_of_found {p : Position} {text : List Char} {e : LexicalError}
    (h : e ∈ (found error? p text).dropLast) : e.fault ≠ .unterminated := by
  induction text using all.induct generalizing p with
  | case1 =>
    rw [found_nil] at h
    cases h
  | case2 c cs ih =>
    rw [found_cons] at h
    cases herror : error? (first c cs).1 p with
    | none =>
      rw [herror] at h
      exact ih h
    | some f =>
      rw [herror] at h
      cases hmore : found error? (p.after (first c cs).1.chars) (first c cs).2 with
      | nil =>
        rw [hmore] at h
        cases h
      | cons g gs =>
        rw [hmore] at h
        rcases List.mem_cons.1 h with rfl | h
        · intro hfault
          have hform : (first c cs).1.form = .unclosedString := by
            unfold error? at herror
            split at herror
            next hform => exact hform
            next =>
              obtain ⟨d, -, rfl⟩ := Option.map_eq_some_iff.1 herror
              cases hfault
            all_goals cases herror
          rw [(first_unclosed hform).1, found_nil] at hmore
          cases hmore
        · exact ih (hmore ▸ h)

theorem cutOut_of_all {l : Lexeme} {text : List Char} {earlier later : List Lexeme}
    (h : all text = earlier ++ l :: later) : l.CutOut text (spelled earlier) (spelled later) := by
  refine ⟨?_, earlier, later, h, rfl, rfl⟩
  have htext := spelled_all text
  rw [h] at htext
  simpa [spelled] using htext.symm

theorem eq_nil_of_spelled {text : List Char} {earlier later : List Lexeme}
    (h : all text = earlier ++ later) (hspelled : spelled later = []) : later = [] := by
  cases later with
  | nil => rfl
  | cons l later =>
    have hmem : l ∈ all text := h ▸ List.mem_append_right _ List.mem_cons_self
    obtain ⟨c, cs, rfl⟩ := mem_all hmem
    exact absurd (List.append_eq_nil_iff.1 hspelled).1 (first_ne_nil c cs)

end Lexeme

theorem LexicalFault.message_eq {fault : LexicalFault}
    (h : fault.message = "Unterminated string.") : fault = .unterminated := by
  cases fault with
  | unterminated => rfl
  | unexpected c =>
    have hmessage : message (.unexpected c) = "Unexpected character '" ++ toString c ++ "'." := rfl
    have hthird := congrArg (fun text => (text.toList.drop 2).head?) (hmessage.symm.trans h)
    simp [String.toList_append] at hthird

open Lexeme in
/-- The scan of a text by longest match: its pieces `ls`, which are all of the text and leave no
choice, and the tokens and reports that are read off them. -/
structure LongestMatchScan (source : String) (ls : List Lexeme) (found : List Token) : Prop where
  tiling : Tiling ls source.toList
  only : ∀ ks, Tiling ks source.toList → ks = ls
  covered : spelled ls = source.toList
  quote : ∀ earlier l later, ls = earlier ++ l :: later → l.chars.head? = some '"' →
    if '"' ∈ l.chars.tail ++ spelled later then l.form = .string
    else l.form = .unclosedString ∧ later = []
  readOff : ReadOff .first ls found (Scan.ofText source).reports
  tokens : (Scan.ofText source).tokens = found ++ [.finish (Position.first.after source.toList)]
  finish : ∀ t ∈ found, t.kind ≠ .endOfInput
  unterminated : ∀ r ∈ (Scan.ofText source).reports.dropLast, r.message ≠ "Unterminated string."

open Lexeme in
theorem scan_cuts_longest_matches (source : String) :
    ∃ ls found, LongestMatchScan source ls found := by
  have htiling := tiling_all source.toList
  refine ⟨all source.toList, found token? .first source.toList, htiling,
    fun ks => htiling.unique, spelled_all _, ?_, readOff_all .first _, rfl,
    fun t => kind_of_found, ?_⟩
  · intro earlier l later hls hquote
    have hstring := string_of_quote (cutOut_of_all hls) hquote
    split
    next hmem => rwa [if_pos hmem] at hstring
    next hnone =>
      rw [if_neg hnone] at hstring
      rw [List.append_cons] at hls
      exact ⟨hstring.1, eq_nil_of_spelled hls hstring.2⟩
  · intro r hr hmessage
    rw [Scan.reports, ← List.map_dropLast] at hr
    obtain ⟨e, he, rfl⟩ := List.mem_map.1 hr
    exact fault_of_found he (LexicalFault.message_eq hmessage)

end Scriptlet
