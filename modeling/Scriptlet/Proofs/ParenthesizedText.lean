import Scriptlet.Proofs.Groupings
import Scriptlet.Proofs.RoundTrip

/-!
The parenthesized layout shows the tree. The parentheses that it adds are those of a tree with more
groupings, whose canonical text it is. In that tree every operand is a primary or a call, so it is
canonical whatever the levels of the operators are, and its text is read as that tree again if there
is room for the levels that the new groupings open. Without groupings and places it is the tree that
was laid out. So expressions with the same parenthesized text have the same shape.
-/

namespace Scriptlet

namespace Grammar

open Parse

theorem exact_wholeExpression : Exact Anywhere wholeExpression fun e read rest =>
    ReadsExpr 0 nestingLimit e read rest ∧ headKind rest = .endOfInput := by
  refine ((exact_expression nestingLimit).andThen (Q := fun value e read rest =>
    e = value ∧ read = [] ∧ headKind rest = .endOfInput) fun value => .look fun kind => ?_).congr ?_
  · dsimp only
    by_cases hend : kind = .endOfInput
    · rw [if_neg (not_not.2 hend)]
      refine (exact_pure value).congr fun e read rest hkind => ?_
      constructor
      · rintro ⟨rfl, rfl⟩
        exact ⟨rfl, rfl, hkind.2.trans hend⟩
      · rintro ⟨rfl, rfl, -⟩
        exact ⟨rfl, rfl⟩
    · rw [if_pos hend]
      refine ((exact_recordHere .endOfExpression).andThen fun _ => exact_pure value).congr ?_
      intro e read rest hkind
      constructor
      · rintro ⟨_, _, _, _, hnever, _⟩
        exact absurd hnever id
      · rintro ⟨rfl, rfl, hrest⟩
        exact absurd (hkind.2.symm.trans hrest) hend
  · intro e read rest _
    constructor
    · rintro ⟨value, first, second, rfl, hreads, rfl, rfl, hrest⟩
      exact ⟨by simpa using hreads, hrest⟩
    · rintro ⟨hreads, hrest⟩
      exact ⟨e, read, [], by simp, by simpa using hreads, rfl, rfl, hrest⟩

/-- A token list is read as an expression just if the expression is canonical, stays within the
limit of nesting and is written with the tokens before the first end of input. -/
theorem expression_eq_ok_iff {tokens : List Token} {e : Expr} :
    Grammar.expression tokens = .ok e ↔ e.Canonical ∧ e.nesting < nestingLimit ∧
      Fits e.written (tokens.takeWhile (·.kind ≠ .endOfInput)) := by
  have hinner : ∀ t ∈ (Cursor.ofTokens tokens).ahead, t.kind ≠ .endOfInput := by
    intro t ht
    simpa using List.mem_takeWhile_imp ht
  refine (settle_eq_ok exact_wholeExpression.forward rfl).trans ?_
  simp only [exact_wholeExpression.clean _ e _ trivial, readsExpr_iff]
  constructor
  · rintro ⟨rest, read, hsplit, ⟨⟨hc, -, hn⟩, hf, -⟩, hend⟩
    cases rest with
    | nil =>
      rw [List.append_nil] at hsplit
      subst hsplit
      exact ⟨hc, hn, hf⟩
    | cons t rest => exact absurd hend (hinner t (by simp [hsplit]))
  · rintro ⟨hc, hn, hf⟩
    exact ⟨[], _, (List.append_nil _).symm, ⟨⟨hc, Nat.zero_le _, hn⟩, hf, id⟩, rfl⟩

theorem written_expression_inj {d e : Expr} (hd : d.Canonical) (he : e.Canonical)
    {tokens : List Token} (hfd : Fits d.written tokens) (hfe : Fits e.written tokens) : d = e := by
  -- with a semicolon behind it an expression is a program
  let semicolon : Token := ⟨.semicolon, ";", none, .first⟩
  have hfits : ∀ {x : Expr}, Fits x.written tokens →
      Fits (Program.written [.expression x]) (tokens ++ [semicolon]) := by
    intro x hx
    simpa [Program.written, Stmt.writtenAll, Stmt.written] using
      hx.append (fits_singleton.2 ⟨semicolon, rfl, rfl⟩ : Fits [.kind .semicolon] [semicolon])
  have hsame := written_inj (p := [.expression d]) (q := [.expression e]) ⟨hd, trivial⟩
    ⟨he, trivial⟩ (hfits hfd) (hfits hfe)
  cases hsame
  rfl

end Grammar

mutual

/-- The expression with a grouping around every operator and every assignment. -/
def Expr.parenthesized : Expr → Expr
  | .literal value => .literal value
  | .identifier name => .identifier name
  | .grouping inner => .grouping inner.parenthesized
  | .unary operator operand => .grouping (.unary operator operand.parenthesized)
  | .binary left operator right =>
    .grouping (.binary left.parenthesized operator right.parenthesized)
  | .logical left operator right =>
    .grouping (.logical left.parenthesized operator right.parenthesized)
  | .assignment name value => .grouping (.assignment name value.parenthesized)
  | .call callee paren arguments =>
    .call callee.parenthesized paren (Expr.parenthesizedAll arguments)

def Expr.parenthesizedAll : List Expr → List Expr
  | [] => []
  | e :: es => e.parenthesized :: Expr.parenthesizedAll es

end

namespace Expr

mutual

theorem text_parenthesized : (e : Expr) → e.parenthesized.text .canonical = e.text .parenthesized
  | .literal _ => rfl
  | .identifier _ => rfl
  | .grouping inner => by simp [parenthesized, text, inner.text_parenthesized]
  | .unary _ operand => by simp [parenthesized, text, Layout.group, operand.text_parenthesized]
  | .binary left _ right => by
    simp [parenthesized, text, Layout.group, left.text_parenthesized, right.text_parenthesized]
  | .logical left _ right => by
    simp [parenthesized, text, Layout.group, left.text_parenthesized, right.text_parenthesized]
  | .assignment _ value => by simp [parenthesized, text, Layout.group, value.text_parenthesized]
  | .call callee _ arguments => by
    simp [parenthesized, text, callee.text_parenthesized, texts_parenthesized arguments]

theorem texts_parenthesized : (es : List Expr) →
    texts .canonical (parenthesizedAll es) = texts .parenthesized es
  | [] => rfl
  | e :: es => by
    simp [parenthesizedAll, texts, e.text_parenthesized, texts_parenthesized es]

end

/-- What is parenthesized may be an operand of every operator, and a callee. -/
theorem rank_parenthesized (e : Expr) : 8 ≤ e.parenthesized.rank := by
  cases e <;> simp [parenthesized, rank]

theorem length_parenthesizedAll (es : List Expr) : (parenthesizedAll es).length = es.length := by
  induction es with
  | nil => rfl
  | cons e es ih => simp [parenthesizedAll, ih]

theorem joins_parenthesized {level : Level} {operator : Token} {left right : Nat}
    (h : level.Joins operator left right) (d e : Expr) :
    level.Joins operator d.parenthesized.rank e.parenthesized.rank := by
  have hlevel : level.rank ≤ 6 := by cases level <;> simp [Level.rank]
  have hd := d.rank_parenthesized
  have he := e.rank_parenthesized
  exact ⟨h.1, by omega, by omega⟩

mutual

theorem canonical_parenthesized : (e : Expr) → e.Canonical → e.parenthesized.Canonical
  | .literal _, _ => trivial
  | .identifier _, h => h
  | .grouping inner, h => inner.canonical_parenthesized h
  | .unary _ operand, h =>
    ⟨h.1, le_trans (by decide) operand.rank_parenthesized, operand.canonical_parenthesized h.2.2⟩
  | .binary left _ right, ⟨⟨level, hlogical, hjoins⟩, hleft, hright⟩ =>
    ⟨⟨level, hlogical, joins_parenthesized hjoins left right⟩,
      left.canonical_parenthesized hleft, right.canonical_parenthesized hright⟩
  | .logical left _ right, ⟨⟨level, hlogical, hjoins⟩, hleft, hright⟩ =>
    ⟨⟨level, hlogical, joins_parenthesized hjoins left right⟩,
      left.canonical_parenthesized hleft, right.canonical_parenthesized hright⟩
  | .assignment _ value, h => ⟨h.1, value.canonical_parenthesized h.2⟩
  | .call callee _ arguments, ⟨_, hcallee, hparen, hlimit, harguments⟩ =>
    ⟨callee.rank_parenthesized, callee.canonical_parenthesized hcallee, hparen,
      (length_parenthesizedAll arguments).trans_le hlimit,
      allCanonical_parenthesized arguments harguments⟩

theorem allCanonical_parenthesized : (es : List Expr) → AllCanonical es →
    AllCanonical (parenthesizedAll es)
  | [], _ => trivial
  | e :: es, h => ⟨e.canonical_parenthesized h.1, allCanonical_parenthesized es h.2⟩

end

section Slots

variable {P : Slot → Prop}

mutual

theorem each_parenthesized (hP : ∀ kind, P (.kind kind)) : (e : Expr) →
    Each P e.written → Each P e.parenthesized.written
  | .literal _, h => h
  | .identifier _, h => h
  | .grouping inner, h => by
    simp only [written, List.cons_append, each_cons, each_append] at h
    simpa [parenthesized, written, hP] using inner.each_parenthesized hP h.2.1
  | .unary _ operand, h => by
    simp only [written, each_cons] at h
    simpa [parenthesized, written, hP, h.1] using operand.each_parenthesized hP h.2
  | .binary left _ right, h => by
    simp only [written, each_cons, each_append] at h
    simpa [parenthesized, written, hP, h.2.1] using
      ⟨left.each_parenthesized hP h.1, right.each_parenthesized hP h.2.2⟩
  | .logical left _ right, h => by
    simp only [written, each_cons, each_append] at h
    simpa [parenthesized, written, hP, h.2.1] using
      ⟨left.each_parenthesized hP h.1, right.each_parenthesized hP h.2.2⟩
  | .assignment _ value, h => by
    simp only [written, each_cons] at h
    simpa [parenthesized, written, hP, h.1] using value.each_parenthesized hP h.2.2
  | .call callee _ arguments, h => by
    simp only [written, List.append_assoc, List.cons_append, each_cons, each_append,
      each_separated (hP .comma)] at h
    simp only [parenthesized, written, List.append_assoc, List.cons_append, each_cons, each_append,
      each_separated (hP .comma)]
    exact ⟨callee.each_parenthesized hP h.1, hP _, each_parenthesizedAll hP arguments h.2.2.1,
      h.2.2.2⟩

theorem each_parenthesizedAll (hP : ∀ kind, P (.kind kind)) : (es : List Expr) →
    (∀ row ∈ writtenEach es, Each P row) → ∀ row ∈ writtenEach (parenthesizedAll es), Each P row
  | [], _ => nofun
  | e :: es, h => by
    simp only [writtenEach, List.forall_mem_cons] at h
    simpa [parenthesizedAll, writtenEach] using
      ⟨e.each_parenthesized hP h.1, each_parenthesizedAll hP es h.2⟩

end

end Slots

def bare (e : Expr) : Expr := e.rename .baring

mutual

theorem bare_parenthesized : (e : Expr) → e.parenthesized.bare = e.bare
  | .literal _ => rfl
  | .identifier _ => rfl
  | .grouping inner => inner.bare_parenthesized
  | .unary _ operand => congrArg (unary _) operand.bare_parenthesized
  | .binary left _ right =>
    congrArg₂ (binary · _) left.bare_parenthesized right.bare_parenthesized
  | .logical left _ right =>
    congrArg₂ (logical · _) left.bare_parenthesized right.bare_parenthesized
  | .assignment _ value => congrArg (assignment _) value.bare_parenthesized
  | .call callee _ arguments =>
    congrArg₂ (call · _) callee.bare_parenthesized (bare_parenthesizedAll arguments)

theorem bare_parenthesizedAll : (es : List Expr) →
    renameAll .baring (parenthesizedAll es) = renameAll .baring es
  | [] => rfl
  | e :: es => congrArg₂ List.cons e.bare_parenthesized (bare_parenthesizedAll es)

end

theorem bare_recast (e : Expr) : (e.recast .literal).bare = e.bare := by
  rw [bare, ← e.rename_erasing, rename_rename]
  rfl

/-- Whether every number in an expression is finite. -/
def Finite (e : Expr) : Prop :=
  ∀ x, Slot.constant (.number x) ∈ e.written → x.isFinite = true

theorem Finite.parenthesized {e : Expr} (h : e.Finite) : e.parenthesized.Finite := by
  have hslots : Each (fun slot => ∀ x, slot = .constant (.number x) → x.isFinite = true)
      e.written := fun slot hslot x hx => h x (hx ▸ hslot)
  exact fun x hx => e.each_parenthesized (by simp) hslots _ hx x rfl

theorem scan_text {e : Expr} (hc : e.Canonical) (hs : Each Slot.Spelt e.written)
    (finite : e.Finite) :
    (Scan.ofText (e.text .canonical)).errors = [] ∧
      Fits (e.recast .literal).written
        (((Scan.ofText (e.text .canonical)).tokens.takeWhile (·.kind ≠ .endOfInput)).map
          Token.unplaced) := by
  obtain ⟨ts, hts, hscan⟩ := e.spells hc hs [] (by simp [Delimited])
  rw [List.append_nil, Lexeme.scanned_nil, List.append_nil] at hscan
  obtain ⟨herrors, htokens⟩ := Scan.ofChars_scanned hscan
  have hwritten : (e.recast Constant.respelled).written = (e.recast .literal).written := by
    rw [written_recast, written_recast]
    exact List.flatMap_congr fun slot hslot => Slot.recast_respelled finite hslot
  rw [hwritten] at hts
  have hinner := (e.recast .literal).inner ((e.canonical_recast recasting_literal).2 hc)
  have hbefore := takeWhile_of_unplaced htokens (hts.kind_ne hinner)
  exact ⟨herrors, hbefore.symm ▸ hts⟩

theorem recast_inj {d e : Expr} (hd : d.Canonical) (he : e.Canonical) {tokens : List Token}
    (hfd : Fits (d.recast .literal).written tokens)
    (hfe : Fits (e.recast .literal).written tokens) : d.recast .literal = e.recast .literal :=
  Grammar.written_expression_inj ((d.canonical_recast recasting_literal).2 hd)
    ((e.canonical_recast recasting_literal).2 he) hfd hfe

theorem recast_eq_of_fits {d e : Expr} (hd : d.Canonical) (he : e.Canonical) {tokens : List Token}
    (hfd : Fits d.written tokens)
    (hfe : Fits (e.recast .literal).written (tokens.map Token.unplaced)) :
    d.recast .literal = e.recast .literal := by
  have hunplaced : Fits (d.recast .literal).written (tokens.map Token.unplaced) := by
    rw [← d.rename_erasing, written_rename rfl]
    exact hfd.rename
  exact recast_inj hd he hunplaced hfe

end Expr

theorem Grammar.scan_parenthesized {source : String} {e : Expr}
    (h : Grammar.expression (Scan.ofText source).tokens = .ok e) (finite : e.Finite) :
    e.parenthesized.Canonical ∧ (Scan.ofText (e.text .parenthesized)).errors = [] ∧
      Fits (e.parenthesized.recast .literal).written
        (((Scan.ofText (e.text .parenthesized)).tokens.takeWhile (·.kind ≠ .endOfInput)).map
          Token.unplaced) := by
  obtain ⟨hc, -, hf⟩ := Grammar.expression_eq_ok_iff.1 h
  have hcanonical := e.canonical_parenthesized hc
  have hspelt : Each Slot.Spelt e.parenthesized.written :=
    e.each_parenthesized (fun _ => trivial) hf.spelt
  rw [← e.text_parenthesized]
  exact ⟨hcanonical, Expr.scan_text hcanonical hspelt finite.parenthesized⟩

/-- The parenthesized text of an expression shows its tree. It has no lexical errors, and it is read
as an expression just if there is room for its parentheses. What it is read as is the expression
itself but for places and groupings, and no expression of another shape has the same text. -/
theorem parenthesized_text_shows_tree {source : String} {e : Expr}
    (read : Grammar.expression (Scan.ofText source).tokens = .ok e) (finite : e.Finite) :
    let text := e.text .parenthesized
    (Scan.ofText text).errors = [] ∧
    ((∃ e', Grammar.expression (Scan.ofText text).tokens = .ok e') ↔
      e.parenthesized.nesting < Grammar.nestingLimit) ∧
    (∀ e', Grammar.expression (Scan.ofText text).tokens = .ok e' → e'.bare = e.bare) ∧
    ∀ (source' : String) (e' : Expr), Grammar.expression (Scan.ofText source').tokens = .ok e' →
      e'.Finite → e'.text .parenthesized = text → e'.bare = e.bare := by
  intro text
  obtain ⟨hcanonical, herrors, hfits⟩ := Grammar.scan_parenthesized read finite
  -- whatever is read from the text is the tree with all parentheses, places apart
  have hsame : ∀ e', Grammar.expression (Scan.ofText text).tokens = .ok e' →
      e'.recast .literal = e.parenthesized.recast .literal := by
    intro e' h'
    obtain ⟨hc', -, hf'⟩ := Grammar.expression_eq_ok_iff.1 h'
    exact Expr.recast_eq_of_fits hc' hcanonical hf' hfits
  refine ⟨herrors, ⟨?_, ?_⟩, ?_, ?_⟩
  · rintro ⟨e', h'⟩
    have hnesting := congrArg Expr.nesting (hsame e' h')
    rw [Expr.nesting_recast recasting_literal, Expr.nesting_recast recasting_literal] at hnesting
    exact hnesting ▸ (Grammar.expression_eq_ok_iff.1 h').2.1
  · intro hroom
    obtain ⟨e', hrecast, hf'⟩ := Expr.placed _ _ hfits
    refine ⟨e', Grammar.expression_eq_ok_iff.2 ⟨?_, ?_, hf'⟩⟩
    · rwa [← Expr.canonical_recast recasting_literal, hrecast,
        Expr.canonical_recast recasting_literal]
    · rwa [← Expr.nesting_recast recasting_literal, hrecast,
        Expr.nesting_recast recasting_literal]
  · intro e' h'
    rw [← e'.bare_recast, hsame e' h', Expr.bare_recast, Expr.bare_parenthesized]
  · intro source' e' h' finite' htext
    obtain ⟨hcanonical', -, hfits'⟩ := Grammar.scan_parenthesized h' finite'
    rw [htext] at hfits'
    have hrecast := Expr.recast_inj hcanonical' hcanonical hfits' hfits
    rw [← e'.bare_parenthesized, ← Expr.bare_recast, hrecast, Expr.bare_recast,
      Expr.bare_parenthesized]

/-- The left operand of the last difference is a difference too. -/
theorem parenthesized_text_shows_tree_differences :
    let source := "x = a - f(1)(2.50) - -b"
    let e : Expr := .assignment ⟨.identifier, "x", none, ⟨1, 1⟩⟩
      (.binary
        (.binary (.identifier ⟨.identifier, "a", none, ⟨1, 5⟩⟩) ⟨.minus, "-", none, ⟨1, 7⟩⟩
          (.call
            (.call (.identifier ⟨.identifier, "f", none, ⟨1, 9⟩⟩)
              ⟨.rightParen, ")", none, ⟨1, 12⟩⟩ [.literal (.number 1)])
            ⟨.rightParen, ")", none, ⟨1, 18⟩⟩ [.literal (.number 2.5)]))
        ⟨.minus, "-", none, ⟨1, 20⟩⟩
        (.unary ⟨.minus, "-", none, ⟨1, 22⟩⟩ (.identifier ⟨.identifier, "b", none, ⟨1, 23⟩⟩)))
    Grammar.expression (Scan.ofText source).tokens = .ok e ∧
      e.text .parenthesized = "(x = ((a - f(1)(2.5)) - (-b)))" ∧
      ∃ e', Grammar.expression (Scan.ofText "(x = ((a - f(1)(2.5)) - (-b)))").tokens = .ok e' ∧
        e'.bare = e.bare := by
  intro source e
  have hcanonical : e.Canonical := by
    exact ⟨rfl, ⟨.term, rfl, rfl, by decide, by decide⟩,
      ⟨⟨.term, rfl, rfl, by decide, by decide⟩, rfl, by decide,
        ⟨by decide, rfl, rfl, by decide, trivial, trivial⟩, rfl, by decide, trivial, trivial⟩,
      .inr rfl, by decide, rfl⟩
  have read : Grammar.expression (Scan.ofText source).tokens = .ok e :=
    Grammar.expression_eq_ok_iff.2 ⟨hcanonical, by decide, by decide +kernel⟩
  have htext : e.text .parenthesized = "(x = ((a - f(1)(2.5)) - (-b)))" := by decide +kernel
  have finite : e.Finite := by
    intro x hx
    have hx : x = 1 ∨ x = 2.5 := by
      simpa [e, Expr.written, Expr.writtenEach, Slot.separated] using hx
    rcases hx with rfl | rfl <;> decide +kernel
  obtain ⟨-, hroom, hsame, -⟩ := parenthesized_text_shows_tree read finite
  obtain ⟨e', h'⟩ := hroom.2 (by decide)
  exact ⟨read, htext, e', htext ▸ h', hsame e' h'⟩

end Scriptlet
