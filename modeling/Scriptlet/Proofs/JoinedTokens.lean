import Scriptlet.Proofs.ProgramReading
import Scriptlet.Proofs.Progress

/-!
Reading goes on behind a whole program as if nothing had been read before. What is behind a program
decides nothing about it, an `else` apart, and the program leaves nothing behind but the tokens
ahead: no error, no open level, no function around. So whatever follows is read as it is read alone,
with the same tree or the same errors, also where it fails and skips tokens.
-/

namespace Scriptlet

namespace Parse

variable {α : Type} {stop : Kind → Bool} {item : Parse α} {skipping : List Token → List Token}

/-- Items until a kind that stops them, in as many rounds as it takes. -/
def items (stop : Kind → Bool) (item : Parse α) (skipping : List Token → List Token) :
    Parse (List α) :=
  upcoming >>= itemsUntil stop item skipping

theorem recovering_eq (item : Parse α) (skipping : List Token → List Token) (c : Cursor) :
    ∃ o, recovering item skipping c = .ok o ((recovering item skipping).left c) := by
  unfold left recovering
  cases item c with
  | ok x d => exact ⟨_, rfl⟩
  | error e d => exact ⟨_, rfl⟩

theorem bind_eq_of_eq {β : Type} {r r' : Parse α} {c d : Cursor} (h : r c = r' d)
    (f : α → Parse β) : (r >>= f) c = (r' >>= f) d := by
  simp only [bind, EStateM.bind, h]

theorem itemsUntil_stopped (rounds : List Token) {c : Cursor} (h : stop c.kind = true) :
    itemsUntil stop item skipping rounds c = .ok [] c := by
  cases rounds with
  | nil => rfl
  | cons t rounds =>
    rw [itemsUntil, bind_ok lookahead _ (d := c) (x := c.kind) rfl, if_pos h]
    rfl

theorem itemsUntil_round (t : Token) (rounds : List Token) {c : Cursor}
    (h : stop c.kind = false) : itemsUntil stop item skipping (t :: rounds) c = (do
      let x? ← recovering item skipping
      return x?.toList ++ (← itemsUntil stop item skipping rounds) : Parse (List α)) c := by
  rw [itemsUntil, bind_ok lookahead _ (d := c) (x := c.kind) rfl, if_neg (by simp [h])]

/-- Rounds that are left when all tokens are read change nothing. -/
theorem itemsUntil_enough (hrounds : RoundsAdvance stop item skipping)
    (hend : stop .endOfInput = true) {rounds more : List Token} {c : Cursor}
    (h : c.ahead.length ≤ rounds.length) (k : c.ahead.length ≤ more.length) :
    itemsUntil stop item skipping rounds c = itemsUntil stop item skipping more c := by
  induction rounds generalizing more c with
  | nil =>
    have hc : stop c.kind = true := by
      rw [Cursor.kind, List.length_eq_zero_iff.1 (Nat.le_zero.1 h)]
      exact hend
    rw [itemsUntil_stopped _ hc, itemsUntil_stopped _ hc]
  | cons t rounds ih =>
    cases hc : stop c.kind with
    | true => rw [itemsUntil_stopped _ hc, itemsUntil_stopped _ hc]
    | false =>
      have hless := hrounds c hc
      cases more with
      | nil => exact absurd hless (by simp [List.length_eq_zero_iff.1 (Nat.le_zero.1 k)])
      | cons u more =>
        obtain ⟨o, ho⟩ := recovering_eq item skipping c
        simp only [List.length_cons] at h k
        rw [itemsUntil_round t rounds hc, itemsUntil_round u more hc, bind_ok _ _ ho,
          bind_ok _ _ ho]
        exact bind_eq_of_eq (ih (by omega) (by omega)) _

theorem items_round (hrounds : RoundsAdvance stop item skipping) (hend : stop .endOfInput = true)
    {c : Cursor} (h : stop c.kind = false) : items stop item skipping c = (do
      let x? ← recovering item skipping
      return x?.toList ++ (← items stop item skipping) : Parse (List α)) c := by
  have hless := hrounds c h
  obtain ⟨o, ho⟩ := recovering_eq item skipping c
  cases hahead : c.ahead with
  | nil => exact absurd hless (by simp [hahead])
  | cons t rest =>
    have hupcoming : items stop item skipping c = itemsUntil stop item skipping (t :: rest) c := by
      rw [← hahead]
      rfl
    have hlength : ((recovering item skipping).left c).ahead.length ≤ rest.length := by
      rw [hahead, List.length_cons] at hless
      omega
    have hrest := itemsUntil_enough hrounds hend hlength (Nat.le_refl _)
    rw [hupcoming, itemsUntil_round t rest h, bind_ok _ _ ho, bind_ok _ _ ho]
    exact bind_eq_of_eq hrest _

theorem items_append (hrounds : RoundsAdvance stop item skipping) (hend : stop .endOfInput = true)
    {R : α → List Slot → Prop} {F : α → List Token → Prop}
    (hitem : Exact Anywhere item (Shaped R F)) (opens : Opens stop R F) {xs : List α}
    {rows : List (List Slot)} (hrows : List.Forall₂ R xs rows) {read rest : List Token}
    (hfits : Fits rows.flatten read) (hrest : ∀ x, F x rest) (c : Cursor) :
    items stop item skipping { c with ahead := read ++ rest } =
      ((xs ++ ·) <$> items stop item skipping) { c with ahead := rest } := by
  induction hrows generalizing read with
  | nil =>
    obtain rfl : read = [] := by simpa using hfits
    exact (congrFun (id_map (items stop item skipping)) _).symm
  | @cons x row xs rows hR hrows ih =>
    obtain ⟨first, second, rfl, hfirst, hsecond⟩ := fits_append.1 (by simpa using hfits)
    obtain ⟨t, more, rfl, hstop, _⟩ := opens x row hR first hfirst
    let start : Cursor := { c with ahead := t :: more ++ (second ++ rest) }
    have hread := (hitem.clean start x (second ++ rest) trivial).2
      ⟨t :: more, rfl, ⟨row, hR, hfirst⟩, follow_items opens hrows hsecond (hrest x)⟩
    have hrecovering : recovering item skipping start =
        .ok (some x) { c with ahead := second ++ rest } := by
      simp only [recovering, hread, start]
    have hround := items_round hrounds hend (c := start) hstop
    rw [bind_ok _ _ hrecovering, bind_eq_of_eq (ih hsecond)] at hround
    rw [List.append_assoc]
    refine hround.trans ?_
    simp only [map_eq_bind, bind_assoc, pure_bind]
    rfl

end Parse

namespace Grammar

open Parse

theorem opens_item (room : Nat) (inFunction : Bool) :
    Opens (· = .endOfInput) (Item room inFunction) Shut := by
  intro s slots hs tokens hf
  obtain ⟨t, more, rfl, helse, _, hend⟩ := item_opens hs hf
  exact ⟨t, more, rfl, by simp [hend], fun _ _ => shut_of_head helse⟩

/-- Behind a whole program the statements are read that are read there without it. -/
theorem statements_append {p : Program} (hcanonical : p.Canonical)
    (hnesting : p.nesting ≤ nestingLimit) {read rest : List Token} (hfits : Fits p.written read)
    (hrest : headKind rest ≠ .elseWord) (c : Cursor) :
    statements { c with ahead := read ++ rest } =
      ((p ++ ·) <$> statements) { c with ahead := rest } := by
  obtain ⟨rows, hrows, hwritten⟩ := rows_item_iff.2 ⟨⟨hcanonical, hnesting⟩, rfl⟩
  rw [Program.written, hwritten] at hfits
  exact items_append (rounds_advance_at_top nestingLimit false) rfl
    (exact_statement_declaration nestingLimit false).2 (opens_item nestingLimit false) hrows hfits
    (fun _ => shut_of_head hrest) c

theorem settle_map {α β : Type} (f : α → β) (r : Parse α) (c : Cursor) :
    settle ((f <$> r) c) = (settle (r c)).map f := by
  rw [map_eq_bind]
  cases h : r c with
  | error e d => rw [bind_error _ _ h]; rfl
  | ok x d =>
    rw [bind_ok _ _ h]
    change (if d.errors.isEmpty then _ else _) = Except.map f (if d.errors.isEmpty then _ else _)
    split <;> rfl

theorem ofTokens_append {first second : List Token} (hfirst : ∀ t ∈ first, t.kind ≠ .endOfInput)
    (hsecond : second ≠ []) : Cursor.ofTokens (first ++ second) =
      { Cursor.ofTokens second with ahead := first ++ (Cursor.ofTokens second).ahead } := by
  have hfind : first.find? (·.kind = .endOfInput) = none := by simpa using hfirst
  simp only [Cursor.ofTokens, List.find?_append, hfind, Option.none_or,
    List.getLast?_append_of_ne_nil first hsecond]
  rw [List.takeWhile_append_of_pos (by simpa using hfirst)]

theorem headKind_ofTokens_ne {tokens : List Token} {kind : Kind} (hkind : kind ≠ .endOfInput)
    (h : ∀ t ∈ tokens.head?, t.kind ≠ kind) : headKind (Cursor.ofTokens tokens).ahead ≠ kind := by
  cases tokens with
  | nil => exact hkind.symm
  | cons t rest =>
    by_cases ht : t.kind = .endOfInput
    · simpa [Cursor.ofTokens, List.takeWhile_cons, ht, headKind] using hkind.symm
    · simpa [Cursor.ofTokens, List.takeWhile_cons, ht, headKind] using h t rfl

theorem program_append_eq_map {first second : List Token} {finish : Token} {p : Program}
    (hfirst : ∀ t ∈ first, t.kind ≠ .endOfInput) (hfinish : finish.kind = .endOfInput)
    (hp : program (first ++ [finish]) = .ok p) (helse : ∀ t ∈ second.head?, t.kind ≠ .elseWord) :
    program (first ++ second) = (program second).map (p ++ ·) := by
  obtain ⟨hcanonical, hnesting, hfits⟩ := program_eq_ok_iff.1 hp
  have hwhole : (first ++ [finish]).takeWhile (·.kind ≠ .endOfInput) = first := by
    rw [List.takeWhile_append_of_pos (by simpa using hfirst)]
    simp [hfinish]
  rw [hwhole] at hfits
  by_cases hsecond : second = []
  · -- the end of input is another token here, but no token of a program
    subst hsecond
    have hread : program first = .ok p := by
      refine program_eq_ok_iff.2 ⟨hcanonical, hnesting, ?_⟩
      rwa [List.takeWhile_eq_self_iff.2 (by simpa using hfirst)]
    rw [List.append_nil, hread]
    exact congrArg Except.ok (List.append_nil p).symm
  · rw [program, programFrom, ofTokens_append hfirst hsecond, statements_append hcanonical hnesting
      hfits (headKind_ofTokens_ne (by decide) helse), settle_map]
    rfl

/-- A list of tokens that is read as a program, before any other tokens that do not begin with
`else`: the whole is read as the program and then what the others are read as alone, or else it has
just the errors that the others have alone, in the same order and at the same tokens. -/
theorem reading_goes_on_behind_program {first second : List Token} {finish : Token} {p : Program}
    (hfirst : ∀ t ∈ first, t.kind ≠ .endOfInput) (hfinish : finish.kind = .endOfInput)
    (hp : program (first ++ [finish]) = .ok p) (helse : ∀ t ∈ second.head?, t.kind ≠ .elseWord) :
    (∀ q, program (first ++ second) = .ok (p ++ q) ↔ program second = .ok q) ∧
    (∀ errors, program (first ++ second) = .error errors ↔ program second = .error errors) := by
  rw [program_append_eq_map hfirst hfinish hp helse]
  cases program second with
  | ok q => simp [Except.map]
  | error errors => simp [Except.map]

/-- Behind an `if` without an `else` there is an operator without operands; the error is found there
and the statement behind it is skipped to, with or without the `if`. -/
theorem reading_goes_on_behind_open_if :
    let t := fun kind lexeme => (⟨kind, lexeme, none, .first⟩ : Token)
    let a := Expr.identifier (t .identifier "a")
    let p := [Stmt.conditional a (.print (t .printWord "print") a) none]
    let first := [t .ifWord "if", t .leftParen "(", t .identifier "a", t .rightParen ")",
      t .printWord "print", t .identifier "a", t .semicolon ";"]
    let second := [t .plus "+", t .semicolon ";", t .printWord "print", t .identifier "a",
      t .endOfInput ""]
    let errors : List SyntaxError := [⟨.expression, t .plus "+"⟩, ⟨.printEnd, t .endOfInput ""⟩]
    (∀ t ∈ first, t.kind ≠ .endOfInput) ∧ program (first ++ [t .endOfInput ""]) = .ok p ∧
      (∀ t ∈ second.head?, t.kind ≠ .elseWord) ∧ program second = .error errors ∧
      program (first ++ second) = .error errors := by
  intro t a p first second errors
  have hfirst : ∀ t ∈ first, t.kind ≠ .endOfInput := by decide
  have hp : program (first ++ [t .endOfInput ""]) = .ok p := rfl
  have helse : ∀ t ∈ second.head?, t.kind ≠ .elseWord := by decide
  have herrors : program second = .error errors := rfl
  exact ⟨hfirst, hp, helse, herrors,
    ((reading_goes_on_behind_program hfirst rfl hp helse).2 errors).2 herrors⟩

end Grammar

end Scriptlet
