import Scriptlet.Proofs.ProgramReading
import Scriptlet.Proofs.Recasting

/-!
Texts that spell rows of slots. Whatever follows a piece of text, the scan of the piece gives tokens
that fit its slots, as long as what follows does not prolong its last lexeme.
-/

namespace Scriptlet

open Lexeme

/-- A text that begins, if at all, with a character that ends every lexeme. -/
def Delimited (rest : List Char) : Prop :=
  ∀ c ∈ rest.head?, c = ' ' ∨ c = '\n' ∨ c = '(' ∨ c = ')' ∨ c = ',' ∨ c = ';'

abbrev Free : List Char → Prop := fun _ => True

/-- Before a text that `F` allows, the characters are scanned as tokens that fit the slots. -/
def Spells (cs : List Char) (slots : List Slot) (F : List Char → Prop) : Prop :=
  ∀ rest, F rest → ∃ ts, Fits slots ts ∧ scanned (cs ++ rest) = ts.map some ++ scanned rest

theorem pair?_eq_none (c : Char) {d : Char} (h : d ≠ '=') : pair? c d = none := by
  unfold pair?
  split <;> simp_all

theorem closes_of_delimited (l : Lexeme) {rest : List Char} (h : Delimited rest) :
    l.Closes rest := by
  have class_ : ∀ d ∈ rest.head?, isWordPart d = false ∧ d.isDigit = false ∧ d ≠ '=' ∧ d ≠ '/' ∧
      d ≠ '.' := by
    intro d hd
    rcases h d hd with rfl | rfl | rfl | rfl | rfl | rfl <;> decide
  unfold Closes
  split
  · exact fun d hd => (class_ d hd).1
  · refine ⟨fun d hd => (class_ d hd).2.1, ?_⟩
    rintro d more rfl
    exact absurd rfl (class_ '.' rfl).2.2.2.2
  · intro c d _ hd
    obtain ⟨_, _, he, hs, _⟩ := class_ d hd
    exact ⟨pair?_eq_none c he, fun h => hs h.2⟩
  · trivial

namespace Spells

variable {F G : List Char → Prop} {cs ds : List Char} {slots more : List Slot}

theorem mono (h : Spells cs slots F) (hG : ∀ rest, G rest → F rest) : Spells cs slots G :=
  fun rest hr => h rest (hG rest hr)

theorem append (h : Spells cs slots F) (k : Spells ds more G)
    (hF : ∀ rest, G rest → F (ds ++ rest)) : Spells (cs ++ ds) (slots ++ more) G := by
  intro rest hr
  obtain ⟨us, hus, hu⟩ := k rest hr
  obtain ⟨ts, hts, ht⟩ := h (ds ++ rest) (hF rest hr)
  exact ⟨ts ++ us, hts.append hus, by rw [List.append_assoc, ht, hu]; simp⟩

theorem before (h : Spells cs slots Delimited) (k : Spells ds more G) (hd : Delimited ds)
    (hne : ds ≠ []) : Spells (cs ++ ds) (slots ++ more) G := by
  refine h.append k fun rest _ => ?_
  cases ds with
  | nil => exact absurd rfl hne
  | cons d ds => exact hd

theorem andThen (h : Spells cs slots Free) (k : Spells ds more G) :
    Spells (cs ++ ds) (slots ++ more) G :=
  h.append k fun _ _ => trivial

end Spells

theorem spells_nil (F : List Char → Prop) : Spells [] [] F :=
  fun _ _ => ⟨[], .nil, rfl⟩

theorem spells_blank {c : Char} (h : isBlank c = true) : Spells [c] [] Free :=
  fun _ _ => ⟨[], .nil, by simp [scanned_blank h]⟩

theorem Spells.spaced {F : List Char → Prop} {cs ds : List Char} {slots more : List Slot}
    (h : Spells cs slots Delimited) (k : Spells ds more F) :
    Spells (cs ++ ' ' :: ds) (slots ++ more) F :=
  h.before ((spells_blank (by decide)).andThen k) (by simp [Delimited]) (by simp)

theorem spells_lexeme {l : Lexeme} (h : l.Proper) {t : Token} (ht : l.token? .first = some t)
    (slot : Slot) (hs : slot.Holds t) : Spells l.chars [slot] l.Closes := by
  intro rest hr
  exact ⟨[t], .cons hs .nil, by rw [scanned_proper h hr, ht]; rfl⟩

theorem spells_single {c : Char} {kind : Kind} (h : single? c = some kind) (hc : c ≠ '/')
    (slot : Slot) (hs : slot.Holds ⟨kind, String.ofList [c], none, .first⟩) :
    Spells [c] [slot] fun rest => ∀ d ∈ rest.head?, pair? c d = none := by
  refine (spells_lexeme (.single h) rfl slot hs).mono fun rest hr => ?_
  rintro _ d ⟨rfl⟩ hd
  exact ⟨hr d hd, fun h => hc h.1⟩

theorem spells_symbol {c : Char} {kind : Kind} (h : single? c = some kind)
    (hp : ∀ d, pair? c d = none) (hc : c ≠ '/') : Spells [c] [.kind kind] Free :=
  (spells_single h hc (.kind kind) rfl).mono fun _ _ d _ => hp d

theorem spells_leftParen : Spells ['('] [.kind .leftParen] Free :=
  spells_symbol rfl (by simp [pair?]) (by decide)

theorem spells_rightParen : Spells [')'] [.kind .rightParen] Free :=
  spells_symbol rfl (by simp [pair?]) (by decide)

theorem spells_leftBrace : Spells ['\x7b'] [.kind .leftBrace] Free :=
  spells_symbol rfl (by simp [pair?]) (by decide)

theorem spells_rightBrace : Spells ['\x7d'] [.kind .rightBrace] Free :=
  spells_symbol rfl (by simp [pair?]) (by decide)

theorem spells_comma : Spells [','] [.kind .comma] Free :=
  spells_symbol rfl (by simp [pair?]) (by decide)

theorem spells_semicolon : Spells [';'] [.kind .semicolon] Free :=
  spells_symbol rfl (by simp [pair?]) (by decide)

theorem spells_equal : Spells ['='] [.kind .equal] Delimited :=
  (spells_lexeme (.single rfl) rfl (.kind .equal) rfl).mono fun _ hr => closes_of_delimited _ hr

theorem spells_word (c : Char) (cs : List Char)
    (h : (isWordStart c && cs.all isWordPart) = true) (slot : Slot)
    (hs : slot.Holds ⟨(Kind.ofWord? (String.ofList (c :: cs))).getD .identifier,
      String.ofList (c :: cs), none, .first⟩) : Spells (c :: cs) [slot] Delimited := by
  rw [Bool.and_eq_true, List.all_eq_true] at h
  exact (spells_lexeme (.word h.1 h.2) rfl slot hs).mono fun _ hr => closes_of_delimited _ hr

/-- Whether a token is one that a scan gives. -/
def Token.Scanned (t : Token) : Prop :=
  ∃ (l : Lexeme) (p : Position), l.Proper ∧ l.token? p = some t

namespace Token.Scanned

variable {t : Token}

theorem lexeme_eq {l : Lexeme} {p : Position} (h : l.token? p = some t) :
    t.lexeme.toList = l.chars := by
  unfold Lexeme.token? at h
  split at h <;> cases h <;> simp [Lexeme.text]

theorem spells (h : t.Scanned) : Spells t.lexeme.toList [.token t.unplaced] Delimited := by
  obtain ⟨l, p, hl, ht⟩ := h
  rw [lexeme_eq ht]
  exact (spells_lexeme hl (token?_place ht) (.token _) rfl).mono
    fun _ hr => closes_of_delimited l hr

end Token.Scanned

def Kind.word : Kind → String
  | .printWord => "print"
  | .whileWord => "while"
  | .forWord => "for"
  | .returnWord => "return"
  | _ => ""

/-- Kinds of which a tree keeps the keyword. -/
def Kind.Kept (kind : Kind) : Prop :=
  kind = .printWord ∨ kind = .whileWord ∨ kind = .forWord ∨ kind = .returnWord

theorem Kind.Kept.eq_word {kind : Kind} (h : kind.Kept) {s : String}
    (hs : Kind.ofWord? s = some kind) : s = kind.word := by
  unfold Kind.ofWord? at hs
  split at hs <;> cases hs <;> simp_all [Kind.Kept, Kind.word]

theorem Kind.Kept.not_symbol {kind : Kind} (h : kind.Kept) :
    (∀ c, single? c ≠ some kind) ∧ ∀ c d, pair? c d ≠ some kind := by
  constructor
  · intro c hc
    unfold single? at hc
    split at hc <;> cases hc <;> simp [Kind.Kept] at h
  · intro c d hc
    unfold pair? at hc
    split at hc <;> cases hc <;> simp [Kind.Kept] at h

namespace Token.Scanned

variable {t : Token}

theorem eq_keyword (h : t.Scanned) (hk : t.kind.Kept) :
    t.unplaced = ⟨t.kind, t.kind.word, none, .first⟩ := by
  obtain ⟨l, p, hl, ht⟩ := h
  cases hl with
  | @word c cs start part =>
    obtain rfl := Option.some.inj ht
    cases hw : Kind.ofWord? (Lexeme.text ⟨.word, c :: cs⟩) with
    | none => simp [hw, Kind.Kept] at hk
    | some kind =>
      simp only [hw, Option.getD_some] at hk ⊢
      simp [unplaced, hk.eq_word hw]
  | single symbol =>
    obtain rfl := Option.some.inj ht
    exact absurd symbol (hk.not_symbol.1 _)
  | pair symbol =>
    obtain rfl := Option.some.inj ht
    exact absurd symbol (hk.not_symbol.2 _ _)
  | _ =>
    obtain rfl := Option.some.inj ht
    simp [Kind.Kept] at hk

theorem eq_single (h : t.Scanned)
    (hk : t.kind = .bang ∨ t.kind = .minus ∨ t.kind = .rightParen) :
    ∃ c, c ≠ '/' ∧ single? c = some t.kind ∧
      t.unplaced = ⟨t.kind, String.ofList [c], none, .first⟩ := by
  obtain ⟨l, p, hl, ht⟩ := h
  cases hl with
  | @word c cs start part =>
    obtain rfl := Option.some.inj ht
    have hword : ∀ s, (Kind.ofWord? s).getD .identifier ≠ .bang ∧
        (Kind.ofWord? s).getD .identifier ≠ .minus ∧
        (Kind.ofWord? s).getD .identifier ≠ .rightParen := by
      intro s
      unfold Kind.ofWord?
      split <;> decide
    simp [hword] at hk
  | @single c kind symbol =>
    obtain rfl := Option.some.inj ht
    refine ⟨c, ?_, symbol, rfl⟩
    rintro rfl
    cases symbol
    simp at hk
  | @pair c d kind symbol =>
    obtain rfl := Option.some.inj ht
    unfold pair? at symbol
    split at symbol <;> cases symbol <;> simp at hk
  | _ =>
    obtain rfl := Option.some.inj ht
    simp at hk

theorem spells_unary (h : t.Scanned) (hk : t.kind = .bang ∨ t.kind = .minus) :
    Spells t.lexeme.toList [.token t.unplaced] fun rest => ∀ d ∈ rest.head?, d ≠ '=' := by
  obtain ⟨c, hc, hs, ht⟩ := h.eq_single (by tauto)
  have hlexeme : t.lexeme.toList = [c] := by
    rw [← unplaced_lexeme, ht, String.toList_ofList]
  rw [hlexeme]
  exact (spells_single hs hc (.token _) ht.symm).mono fun _ hr d hd => pair?_eq_none c (hr d hd)

theorem spells_rightParen (h : t.Scanned) (hk : t.kind = .rightParen) :
    Spells [')'] [.token t.unplaced] Free := by
  obtain ⟨c, hc, hs, ht⟩ := h.eq_single (by tauto)
  obtain rfl : c = ')' := by
    rw [hk] at hs
    unfold single? at hs
    split at hs <;> cases hs
    rfl
  exact (spells_single hs hc (.token _) ht.symm).mono fun _ _ d _ => by simp [pair?]

theorem spells_keyword (h : t.Scanned) (hk : t.kind.Kept) :
    Spells t.kind.word.toList [.token t.unplaced] Delimited := by
  have hlexeme : t.kind.word = t.lexeme := by
    rw [← unplaced_lexeme, h.eq_keyword hk]
  rw [hlexeme]
  exact h.spells

end Token.Scanned

theorem scanned_equal (tail : List Char) : ∃ t more, scanned ('=' :: tail) = some t :: more ∧
    (t.kind = .equal ∨ t.kind = .equalEqual) := by
  by_cases h : tail.head? = some '='
  · obtain ⟨tail, rfl⟩ : ∃ more, tail = '=' :: more := by
      cases tail with
      | nil => simp at h
      | cons d more => exact ⟨more, by simpa using h⟩
    have hpair : (⟨.symbol .equalEqual, ['=', '=']⟩ : Lexeme).Proper := .pair rfl
    exact ⟨_, _, scanned_proper hpair (by rintro c d ⟨⟩), .inr rfl⟩
  · have hsingle : (⟨.symbol .equal, ['=']⟩ : Lexeme).Proper := .single rfl
    refine ⟨_, _, scanned_proper hsingle ?_, .inl rfl⟩
    rintro _ d ⟨rfl⟩ hd
    refine ⟨pair?_eq_none _ ?_, by simp⟩
    rintro rfl
    exact h hd

end Scriptlet
