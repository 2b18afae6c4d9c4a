import Scriptlet.Proofs.BytePositions
import Scriptlet.Proofs.Diagnostics

/-!
Texts made of texts that were scanned. Two texts with a line break between them are scanned as each
of them alone, the second one further down, and the line table of the whole agrees with theirs. The
lexemes of a text with single spaces between them are scanned as the same tokens again. Tokens stand
one behind the other, where the line table places the bytes at which they begin.
-/

namespace Scriptlet

open String (utf8Len)

theorem Position.atByte_down (n : Nat) (p : Position) (cs : List Char) (bytes : Nat) :
    (p.down n).atByte cs bytes = (p.atByte cs bytes).down n := by
  induction cs generalizing p bytes with
  | nil => rfl
  | cons c cs ih =>
    simp only [atByte, next_down, ih]
    split
    · rfl
    · split <;> rfl

namespace LineTable

theorem position_joined {a : String} {offset : Nat} (h : offset ≤ a.utf8ByteSize) (b : String) :
    (ofText (a ++ b)).position offset = (ofText a).position offset := by
  rw [← String.utf8Len_toList] at h
  rw [position_ofText, position_ofText, String.toList_append, Position.atByte_of_le _ h]

theorem position_behind_break (a b : String) (offset : Nat) :
    (ofText (a ++ "\n" ++ b)).position (a.utf8ByteSize + 1 + offset) =
      ((ofText b).position offset).down (a.toList.count '\n' + 1) := by
  have hlen : a.utf8ByteSize + 1 = utf8Len (a ++ "\n").toList := by
    rw [String.utf8Len_toList, String.utf8ByteSize_append]
    rfl
  have hafter : Position.first.after (a ++ "\n").toList =
      Position.first.down (a.toList.count '\n' + 1) := by
    rw [String.toList_append, Position.after_append]
    exact Position.next_break a.toList
  rw [position_ofText, position_ofText, String.toList_append, hlen, Position.atByte_append, hafter,
    Position.atByte_down]

end LineTable

theorem Scan.dropLast_tokens (source : String) :
    (Scan.ofText source).tokens.dropLast = Lexeme.found Lexeme.token? .first source.toList :=
  List.dropLast_concat

/-- Two texts with a line break between them are scanned as they are alone, the second one further
down, unless a string of the first one runs on. The line tables agree at every offset. -/
theorem scan_composes_at_line_break (a b : String)
    (closed : ∀ e ∈ (Scan.ofText a).errors, e.fault ≠ .unterminated) :
    let lines := a.toList.count '\n' + 1
    let joined := a ++ "\n" ++ b
    (Scan.ofText joined).tokens =
      (Scan.ofText a).tokens.dropLast ++ (Scan.ofText b).tokens.map (Token.down lines) ∧
    (Scan.ofText joined).errors =
      (Scan.ofText a).errors ++ (Scan.ofText b).errors.map (LexicalError.down lines) ∧
    (∀ offset ≤ a.utf8ByteSize, (LineTable.ofText joined).position offset =
      (LineTable.ofText a).position offset) ∧
    ∀ offset, (LineTable.ofText joined).position (a.utf8ByteSize + 1 + offset) =
      ((LineTable.ofText b).position offset).down lines := by
  intro lines joined
  have hclosed := Scan.closed_of_faults closed
  have hchars : joined.toList = a.toList ++ '\n' :: b.toList := by simp [joined]
  refine ⟨?_, ?_, ?_, LineTable.position_behind_break a b⟩
  · rw [Scan.dropLast_tokens, Scan.ofText, hchars, Scan.tokens_break hclosed]
    rfl
  · rw [Scan.ofText, hchars, Scan.errors_break hclosed]
    rfl
  · intro offset hle
    rw [← LineTable.position_joined hle ("\n" ++ b), ← String.append_assoc]

/-- A string over two lines, a character that begins nothing and a comment before the line break,
and an unclosed string behind it. -/
theorem scan_composes_at_line_break_after_comment :
    (∀ e ∈ (Scan.ofText "\"x\ny\"$// c").errors, e.fault ≠ .unterminated) ∧
    (Scan.ofText ("\"x\ny\"$// c" ++ "\n" ++ "z \"")).tokens =
      (Scan.ofText "\"x\ny\"$// c").tokens.dropLast ++
        (Scan.ofText "z \"").tokens.map (Token.down 2) := by
  have closed : ∀ e ∈ (Scan.ofText "\"x\ny\"$// c").errors, e.fault ≠ .unterminated := by
    decide +kernel
  exact ⟨closed, (scan_composes_at_line_break _ "z \"" closed).1⟩

/-- A token of a scan is scanned again as itself before a character that ends every lexeme. -/
theorem Token.Scanned.scanned_append {t : Token} (h : t.Scanned) {rest : List Char}
    (hrest : Delimited rest) :
    Lexeme.scanned (t.lexeme.toList ++ rest) = some t.unplaced :: Lexeme.scanned rest := by
  obtain ⟨l, p, hl, ht⟩ := h
  rw [lexeme_eq ht, Lexeme.scanned_proper hl (closes_of_delimited l hrest), Lexeme.token?_place ht]

theorem scanned_spaced {tokens : List Token} (h : ∀ t ∈ tokens, t.Scanned) :
    Lexeme.scanned ([' '].intercalate (tokens.map (·.lexeme.toList))) =
      (tokens.map Token.unplaced).map some := by
  induction tokens with
  | nil => exact Lexeme.scanned_nil
  | cons t tokens ih =>
    have hfirst := h t List.mem_cons_self
    have hmore := ih fun u hu => h u (List.mem_cons_of_mem t hu)
    cases tokens with
    | nil =>
      have hend : Delimited [] := by simp [Delimited]
      have halone := hfirst.scanned_append hend
      rw [List.append_nil, Lexeme.scanned_nil] at halone
      rw [List.map_singleton, List.intercalate_singleton, halone]
      rfl
    | cons u tokens =>
      rw [List.map_cons] at hmore
      rw [List.map_cons, List.map_cons, List.intercalate_cons_cons, List.append_assoc,
        hfirst.scanned_append (by simp [Delimited]), List.singleton_append,
        Lexeme.scanned_blank (by decide), hmore]
      rfl

theorem Lexeme.found_increasing (p : Position) (cs : List Char) :
    ((found token? p cs).map (·.position) ++ [p.after cs]).Pairwise Position.Before ∧
      ∀ t ∈ found token? p cs, t.position = p ∨ p.Before t.position := by
  induction cs using all.induct generalizing p with
  | case1 =>
    rw [found_nil]
    exact ⟨List.pairwise_singleton _ _, by simp⟩
  | case2 c cs ih =>
    obtain ⟨hpairwise, hfrom⟩ := ih (p.after (first c cs).1.chars)
    have hstep : p.Before (p.after (first c cs).1.chars) :=
      p.before_after (first_ne_nil c cs)
    have hend : p.after (c :: cs) = (p.after (first c cs).1.chars).after (first c cs).2 := by
      rw [← Position.after_append, first_tiles]
    have hlater : ∀ t ∈ found token? (p.after (first c cs).1.chars) (first c cs).2,
        p.Before t.position := by
      intro t ht
      rcases hfrom t ht with heq | hbefore
      · rwa [heq]
      · exact hstep.trans hbefore
    rw [found_cons, hend]
    cases htoken : token? (first c cs).1 p with
    | none => exact ⟨hpairwise, fun t ht => .inr (hlater t ht)⟩
    | some t =>
      have hposition := position_of_token? htoken
      refine ⟨List.pairwise_cons.2 ⟨?_, hpairwise⟩, ?_⟩
      · intro q hq
        show t.position.Before q
        rw [hposition]
        rcases List.mem_append.1 hq with hq | hq
        · obtain ⟨u, hu, rfl⟩ := List.mem_map.1 hq
          exact hlater u hu
        · rw [List.mem_singleton.1 hq, ← hend]
          exact p.before_after (List.cons_ne_nil c cs)
      · intro u hu
        rcases List.mem_cons.1 hu with rfl | hu
        · exact .inl hposition
        · exact .inr (hlater u hu)

/-- The line table places a token at the byte where its lexeme begins. -/
theorem Scan.placed_by_table {source : String} {t : Token}
    (h : t ∈ (Scan.ofText source).tokens.dropLast) :
    ∃ before rest, source = before ++ t.lexeme ++ rest ∧
      t.position = (LineTable.ofText source).position before.utf8ByteSize := by
  rw [Scan.dropLast_tokens] at h
  obtain ⟨before, behind, htext, hposition, -⟩ := Scan.standsIn h
  have hsource : source = String.ofList before ++ t.lexeme ++ String.ofList behind := by
    rw [← String.toList_inj, htext]
    simp
  refine ⟨_, _, hsource, ?_⟩
  rw [hposition]
  nth_rewrite 1 [hsource]
  rw [String.append_assoc, LineTable.position_append, String.toList_ofList]

def Scan.spaced (s : Scan) : String := " ".intercalate (s.tokens.dropLast.map (·.lexeme))

/-- The lexemes of a text with spaces between them are scanned again as its tokens, without an
error, whatever errors the text has. In the text the tokens stand in increasing order, the last of
them behind the last character. -/
theorem lexemes_scan_to_themselves (source : String) :
    (Scan.ofText (Scan.ofText source).spaced).errors = [] ∧
    (Scan.ofText (Scan.ofText source).spaced).tokens.map Token.unplaced =
      (Scan.ofText source).tokens.map Token.unplaced ∧
    ((Scan.ofText source).tokens.map (·.position)).Pairwise Position.Before ∧
    (∀ t ∈ (Scan.ofText source).tokens.dropLast, t.kind ≠ .endOfInput ∧
      ∃ before rest, source = before ++ t.lexeme ++ rest ∧
        t.position = (LineTable.ofText source).position before.utf8ByteSize) ∧
    (Scan.ofText source).tokens.getLast? = some (.finish (LineTable.ofText source).finish) ∧
    (LineTable.ofText source).finish = ⟨1 + source.toList.count '\n',
      1 + (source.toList.rtakeWhile (· ≠ '\n')).length⟩ := by
  have hfound := Scan.dropLast_tokens source
  have htokens : (Scan.ofText source).tokens =
      (Scan.ofText source).tokens.dropLast ++ [.finish (Position.first.after source.toList)] := by
    rw [hfound]
    rfl
  have hkinds : ∀ t ∈ (Scan.ofText source).tokens.dropLast, t.kind ≠ .endOfInput := by
    rw [hfound]
    exact fun t => Lexeme.kind_of_found
  have hproper : ∀ t ∈ (Scan.ofText source).tokens.dropLast, t.Scanned := fun t ht =>
    Scan.proper_of_mem (List.mem_of_mem_dropLast ht) (hkinds t ht)
  have hagain : Lexeme.scanned (Scan.ofText source).spaced.toList =
      ((Scan.ofText source).tokens.dropLast.map Token.unplaced).map some := by
    rw [Scan.spaced, String.toList_intercalate, List.map_map]
    exact scanned_spaced hproper
  obtain ⟨herrors, hsame⟩ := Scan.ofChars_scanned hagain
  refine ⟨herrors, hsame.trans ?_, ?_, fun t ht => ⟨hkinds t ht, Scan.placed_by_table ht⟩, ?_,
    LineTable.finish_eq source⟩
  · rw [htokens, List.map_append, List.dropLast_concat]
    rfl
  · rw [htokens, List.map_append, hfound]
    exact (Lexeme.found_increasing .first source.toList).1
  · rw [htokens, List.getLast?_concat, LineTable.finish_ofText]

/-- A name behind a string over two lines and a character that begins nothing. -/
theorem lexemes_scan_to_themselves_beside_error :
    let source := "\"//\n\"$x"
    let t : Token := ⟨.identifier, "x", none, ⟨2, 3⟩⟩
    (Scan.ofText source).errors ≠ [] ∧ t ∈ (Scan.ofText source).tokens.dropLast ∧
    ∃ before rest, source = before ++ t.lexeme ++ rest ∧
      t.position = (LineTable.ofText source).position before.utf8ByteSize := by
  intro source t
  have ht : t ∈ (Scan.ofText source).tokens.dropLast := by decide +kernel
  obtain ⟨-, -, -, hplaces, -⟩ := lexemes_scan_to_themselves source
  exact ⟨by decide +kernel, ht, (hplaces t ht).2⟩

end Scriptlet
