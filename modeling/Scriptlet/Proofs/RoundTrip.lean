import Scriptlet.Proofs.LayoutReading
import Scriptlet.Proofs.NumberText

/-!
Reading the text of a program that was read. The tokens of a scan are spelled so that the text of a
tree made of them is scanned as the tokens of the same tree, up to places and to numbers that are
too large for a double.
-/

namespace Scriptlet

open Lexeme

theorem Constant.spelt_toFloat (d : Decimal) : (Constant.number d.toFloat).Spelt := by
  have hsign := Number.isNegative_toFloat d
  refine ⟨fun hfinite => ⟨?_, Number.toFloat_text hfinite hsign⟩, fun hinfinite =>
    Number.text_of_infinite hinfinite (Number.isNaN_toFloat d) hsign⟩
  rw [Number.text_of_finite hfinite hsign]
  exact Decimal.text_proper _

theorem Constant.literal_of_ofToken? {t : Token} {value : Constant}
    (h : Constant.ofToken? t = some value) :
    (∀ x, value = .number x → t.literal = some (.number x)) ∧
      ∀ s, value = .string s → t.literal = some (.string s) := by
  unfold Constant.ofToken? at h
  split at h <;> cases h <;> simp_all

theorem Lexeme.number_of_token? {l : Lexeme} {position : Position} {t : Token} {x : Float}
    (ht : l.token? position = some t) (hx : t.literal = some (.number x)) :
    x = (Decimal.ofChars l.chars).toFloat := by
  unfold Lexeme.token? at ht
  split at ht <;> cases ht <;> cases hx
  rfl

theorem Constant.spelt_of_token? {l : Lexeme} (hl : l.Proper) {position : Position} {t : Token}
    (ht : l.token? position = some t) {value : Constant} (hv : Constant.ofToken? t = some value) :
    value.Spelt := by
  have hliteral := Constant.literal_of_ofToken? hv
  cases value with
  | nil => trivial
  | boolean value => trivial
  | number x =>
    have hx := hliteral.1 x rfl
    obtain rfl := Lexeme.number_of_token? ht hx
    exact Constant.spelt_toFloat _
  | string s =>
    have hs := hliteral.2 s rfl
    cases hl with
    | string inner =>
      obtain rfl := Option.some.inj ht
      obtain rfl : _ = s := by simpa using hs
      simpa [Constant.Spelt, Lexeme.inner] using inner
    | _ =>
      obtain rfl := Option.some.inj ht
      simp at hs

theorem Fits.exists_holds {slots : List Slot} {tokens : List Token} (h : Fits slots tokens)
    {slot : Slot} (hs : slot ∈ slots) : ∃ t ∈ tokens, slot.Holds t := by
  induction h with
  | nil => simp at hs
  | cons ht _ ih =>
    rcases List.mem_cons.1 hs with rfl | hs
    · exact ⟨_, by simp, ht⟩
    · obtain ⟨t, hm, ht⟩ := ih hs
      exact ⟨t, by simp [hm], ht⟩

theorem Fits.spelt {cs : List Char} {slots : List Slot}
    (hf : Fits slots ((Scan.ofChars cs).tokens.takeWhile (·.kind ≠ .endOfInput))) :
    Each Slot.Spelt slots := by
  intro slot hs
  obtain ⟨t, ht, hholds⟩ := hf.exists_holds hs
  have hmem := (List.takeWhile_sublist _).subset ht
  obtain ⟨l, position, hl, htoken⟩ :=
    Scan.proper_of_mem hmem (by simpa using List.mem_takeWhile_imp ht)
  cases slot with
  | kind wanted => trivial
  | token kept => exact hholds ▸ ⟨l, position, hl, htoken⟩
  | constant value => exact Constant.spelt_of_token? hl htoken hholds

theorem Program.spelt {cs : List Char} {p : Program}
    (h : Grammar.program (Scan.ofChars cs).tokens = .ok p) : Each Slot.Spelt p.written := by
  obtain ⟨_, _, hf⟩ := Grammar.program_eq_ok_iff.1 h
  exact hf.spelt

/-- What the text of a spelled program is scanned as. -/
theorem Program.scan_text {p : Program} (hc : p.Canonical) (hs : Each Slot.Spelt p.written) :
    (Scan.ofText (p.text .canonical)).errors = [] ∧
      ∃ ts, Fits (Stmt.writtenAll (Stmt.recastAll Constant.respelled p)) ts ∧
        (Scan.ofText (p.text .canonical)).tokens.map Token.unplaced = ts ++ [.finish .first] := by
  obtain ⟨ts, hts, hscan⟩ := Stmt.spells_lines 0 false p hc hs [] trivial
  rw [List.append_nil, scanned_nil, List.append_nil] at hscan
  obtain ⟨herrors, htokens⟩ := Scan.ofChars_scanned hscan
  exact ⟨herrors, ts, hts, htokens⟩

theorem Program.text_recast {g : Constant → Expr} {p : Program}
    (h : Each (Slot.SameText g) p.written) :
    Program.text .canonical (Stmt.recastAll g p) = p.text .canonical :=
  Stmt.lines_recast .canonical 0 p h

theorem Program.text_unplaced (p : Program) : p.unplaced.text .canonical = p.text .canonical :=
  Program.text_recast fun slot _ => by cases slot <;> simp [Slot.SameText, Expr.text]

theorem Slot.Spelt.sameText {slot : Slot} (h : slot.Spelt) :
    slot.SameText Constant.respelled := by
  cases slot with
  | constant value => exact fun layout => Constant.Spelt.text h layout
  | _ => trivial

theorem takeWhile_of_unplaced {tokens ts : List Token}
    (h : tokens.map Token.unplaced = ts ++ [.finish .first]) (hk : ∀ t ∈ ts, t.kind ≠ .endOfInput) :
    (tokens.takeWhile (·.kind ≠ .endOfInput)).map Token.unplaced = ts := by
  have hpred : ((fun t : Token => decide (t.kind ≠ .endOfInput)) ∘ Token.unplaced) =
      fun t => decide (t.kind ≠ .endOfInput) := rfl
  have hmap := List.takeWhile_map (f := Token.unplaced)
    (p := fun t => decide (t.kind ≠ .endOfInput)) (l := tokens)
  rw [hpred, h, List.takeWhile_append_of_pos (by simpa using hk)] at hmap
  simpa [Token.finish] using hmap.symm

theorem Scan.map_kind (text : String) : (Scan.ofText text).tokens.map Token.kind =
    ((Scan.ofText text).tokens.takeWhile (·.kind ≠ .endOfInput)).map Token.kind ++
      [.endOfInput] := by
  simp only [Scan.ofText, Scan.ofChars]
  rw [List.takeWhile_append_of_pos]
  · simp [Token.finish]
  · rintro t ht
    obtain ⟨⟨l, position⟩, hl, ht⟩ := List.mem_filterMap.1 ht
    simpa using (Lexeme.proper_of_token? (Lexeme.mem_place hl) ht).kind_ne_endOfInput ht

def Program.Finite (p : Program) : Prop :=
  ∀ x, Slot.constant (.number x) ∈ p.written → x.isFinite = true

theorem Slot.recast_respelled {slots : List Slot}
    (h : ∀ x, Slot.constant (.number x) ∈ slots → x.isFinite = true) {slot : Slot}
    (hs : slot ∈ slots) : slot.recast Constant.respelled = slot.recast .literal := by
  cases slot with
  | constant value =>
    cases value with
    | number x => simp [Slot.recast, Constant.respelled, h x hs]
    | _ => rfl
  | _ => rfl

/-- Finite numbers are read as what they are. -/
theorem Program.recast_respelled {p : Program} (hc : p.Canonical) (h : p.Finite)
    {tokens : List Token}
    (hf : Fits (Stmt.writtenAll (Stmt.recastAll Constant.respelled p)) tokens) :
    Stmt.recastAll Constant.respelled p = p.unplaced := by
  have hwritten : Stmt.writtenAll (Stmt.recastAll Constant.respelled p) =
      Stmt.writtenAll (Stmt.recastAll .literal p) := by
    rw [Stmt.writtenAll_recast, Stmt.writtenAll_recast]
    exact List.flatMap_congr fun slot hs => Slot.recast_respelled h hs
  have hf' : Fits p.unplaced.written tokens := by
    rw [hwritten] at hf
    exact hf
  exact Grammar.written_inj ((Stmt.allCanonical_recast recasting_respelled false p).2 hc)
    ((Stmt.allCanonical_recast recasting_literal false p).2 hc) hf hf'

theorem Program.wants_unplaced (p : Program) :
    p.unplaced.written.map Slot.wants = p.written.map Slot.wants := by
  have hslot : ∀ slot : Slot, (slot.recast .literal).map Slot.wants = [slot.wants] := by
    intro slot
    cases slot <;> rfl
  change (Stmt.writtenAll (Stmt.recastAll .literal p)).map Slot.wants = _
  rw [Stmt.writtenAll_recast, List.map_flatMap]
  simp only [hslot]
  exact List.flatMap_pure_eq_map _ _

/-- The text of a program that was read is read again, as a program with the same text. If all
numbers are finite it is the same program but for the places, and the kinds of the tokens are those
of the text that was read first. -/
theorem Program.read_text {source : String} {p : Program}
    (h : Grammar.program (Scan.ofText source).tokens = .ok p) :
    (Scan.ofText (p.text .canonical)).errors = [] ∧
      ∃ q, Grammar.program (Scan.ofText (p.text .canonical)).tokens = .ok q ∧
        q.text .canonical = p.text .canonical ∧
        (p.Finite → q.unplaced = p.unplaced ∧
          (Scan.ofText (p.text .canonical)).tokens.map Token.kind =
            (Scan.ofText source).tokens.map Token.kind) := by
  have hspelt := Program.spelt h
  obtain ⟨hc, hn, hf⟩ := Grammar.program_eq_ok_iff.1 h
  obtain ⟨herrors, ts, hts, htokens⟩ := Program.scan_text hc hspelt
  have hrc : Program.Canonical (Stmt.recastAll Constant.respelled p) :=
    (Stmt.allCanonical_recast recasting_respelled false p).2 hc
  have hbefore := takeWhile_of_unplaced htokens (Grammar.kind_ne_endOfInput hrc hts)
  obtain ⟨q, hq, hqf⟩ := Stmt.placed_all _ _ (hbefore ▸ hts)
  have hqc : Program.Canonical q :=
    (Stmt.allCanonical_recast recasting_literal false q).1 (hq ▸ hrc)
  have hqn : Program.nesting q ≤ Grammar.nestingLimit := by
    rwa [Program.nesting, ← Stmt.nestingAll_recast recasting_literal, hq,
      Stmt.nestingAll_recast recasting_respelled]
  refine ⟨herrors, q, Grammar.program_eq_ok_iff.2 ⟨hqc, hqn, hqf⟩, ?_, fun hfinite => ?_⟩
  · rw [← Program.text_unplaced q, Program.unplaced, hq]
    exact Program.text_recast fun slot hs => (hspelt slot hs).sameText
  · have hsame : Program.unplaced q = p.unplaced :=
      hq.trans (Program.recast_respelled hc hfinite hts)
    refine ⟨hsame, ?_⟩
    have hkinds := congrArg (fun r => (Program.written r).map Slot.wants) hsame
    simp only [Program.wants_unplaced] at hkinds
    rw [Scan.map_kind, hqf.map_kind, Scan.map_kind, hf.map_kind]
    exact congrArg (· ++ [.endOfInput]) hkinds

/-- Comments, zeros at the end and missing blanks are gone in the text, but the tree is the same. -/
theorem Program.read_text_half :
    let source := "let a=0.50; // half"
    let p : Program := [.variableDecl ⟨.identifier, "a", none, ⟨1, 5⟩⟩
      (some (.literal (.number 0.5))) false]
    Grammar.program (Scan.ofText source).tokens = .ok p ∧ p.text .canonical = "let a = 0.5;\n" ∧
      ∃ q, Grammar.program (Scan.ofText "let a = 0.5;\n").tokens = .ok q ∧
        q.unplaced = p.unplaced := by
  intro source p
  have hcanonical : p.Canonical := by
    simp [p, Program.Canonical, Stmt.AllCanonical, Stmt.Canonical, Expr.CanonicalIfAny,
      Expr.Canonical]
  have h : Grammar.program (Scan.ofText source).tokens = .ok p :=
    Grammar.program_eq_ok_iff.2 ⟨hcanonical, by decide, by decide +kernel⟩
  have htext : p.text .canonical = "let a = 0.5;\n" := by decide +kernel
  have hfinite : p.Finite := by
    intro x hx
    have hx : x = 0.5 := by simpa [p, Program.written, Stmt.writtenAll, Stmt.written,
      Expr.writtenAfter, Expr.written] using hx
    rw [hx]
    decide +kernel
  obtain ⟨_, q, hq, _, hsame⟩ := Program.read_text h
  exact ⟨h, htext, q, htext ▸ hq, (hsame hfinite).1⟩

end Scriptlet
