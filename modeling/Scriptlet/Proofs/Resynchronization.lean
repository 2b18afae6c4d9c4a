import Mathlib.Order.Bounds.Basic
import Scriptlet.Proofs.ParsingEnds

/-!
Where reading is taken up again after an error. At top level tokens are thrown away up to the first
place behind a `;` or before a word that opens a statement, and at least one is. Inside a block the
search also stops before a closing brace, and it throws nothing away if it starts at one. Neither
search passes the end of input, and neither changes anything but the index of the next token.
-/

namespace Scriptlet

namespace Parse

/-- Skips to just after a `;` or before a token of a kind that stops; `last` was read before. -/
def skipTo (stops : Kind → Bool) (last : Token) : List Token → List Token
  | [] => []
  | t :: rest =>
    if last.kind = .semicolon || stops t.kind then t :: rest else skipTo stops t rest

def stopsInBlock (kind : Kind) : Bool := kind.startsStatement || kind = .rightBrace

theorem skipFrom_eq_skipTo (last : Token) (ts : List Token) :
    skipFrom last ts = skipTo Kind.startsStatement last ts := by
  induction ts generalizing last with
  | nil => rfl
  | cons t rest ih => rw [skipFrom, skipTo, ih]

theorem skipInBlock_eq_skipTo {t : Token} (ht : t.kind ≠ .rightBrace) (rest : List Token) :
    skipInBlock (t :: rest) = skipTo stopsInBlock t rest := by
  induction rest generalizing t with
  | nil => simp [skipInBlock, skipTo, ht]
  | cons u rest ih =>
    by_cases hstop : t.kind = .semicolon ∨ u.kind.startsStatement = true
    · simp only [skipInBlock, skipTo, stopsInBlock, ht]
      rcases hstop with hstop | hstop <;> simp [hstop]
    · obtain ⟨hsemicolon, hstarts⟩ : t.kind ≠ .semicolon ∧ u.kind.startsStatement = false := by
        simpa using hstop
      rw [skipInBlock, if_neg ht, if_neg (by simpa using ⟨hsemicolon, hstarts⟩), skipTo]
      -- the brace that stops the search ahead is the one at which the next round stays
      by_cases hbrace : u.kind = .rightBrace
      · simp [skipInBlock, stopsInBlock, hbrace]
      · rw [if_neg (by simpa [stopsInBlock, hbrace] using ⟨hsemicolon, hstarts⟩), ih hbrace]

end Parse

namespace Descent

namespace State

/-- Whether reading may be taken up at an index: the token before it is a `;`, its own token is of a
kind that stops the search, or the input ends there. -/
def ResumesAt (s : State) (stops : Kind → Bool) (j : Nat) : Prop :=
  (∃ t, s.tokens[j - 1]? = some t ∧ t.kind = .semicolon) ∨
    (∃ t, s.tokens[j]? = some t ∧ stops t.kind = true) ∨ j = s.last

/-- The places behind the next token from which reading may go on. -/
def resumptions (s : State) (stops : Kind → Bool) : Set Nat :=
  { j | s.current < j ∧ j ≤ s.last ∧ s.ResumesAt stops j }

variable {s : State} {stops : Kind → Bool} {t : Token} {rest : List Token} {c : Cursor}

theorem Stands.isLeast_skipTo {read after : List Token}
    (h : s.Stands read { c with ahead := t :: rest } after) :
    IsLeast (s.resumptions stops) (s.last - (Parse.skipTo stops t rest).length) := by
  have hlast := h.last_eq
  rw [List.length_cons] at hlast
  -- The search goes on from one token to the next, so the induction moves tokens to those read.
  induction rest generalizing s read t with
  | nil =>
    have hnext : s.last = s.current + 1 := by rw [hlast, h.current]; rfl
    refine ⟨⟨?_, Nat.sub_le _ _, .inr (.inr rfl)⟩, fun j hj => ?_⟩
    · rw [hnext]
      exact Nat.lt_succ_self _
    · rw [hnext]
      exact hj.1
  | cons u rest ih =>
    have hcurrent : s.tokens[s.current]? = some t := by
      rw [h.tokens, h.current]
      simp
    have hnext : s.tokens[s.current + 1]? = some u := by
      rw [h.tokens, h.current, List.getElem?_append_right (Nat.le_succ _)]
      simp
    rw [List.length_cons] at hlast
    have hbefore : s.current + 1 < s.last := by rw [hlast, h.current]; omega
    rw [Parse.skipTo]
    split
    · next hstop =>
      have hindex : s.last - (u :: rest).length = s.current + 1 := by
        rw [hlast, h.current, List.length_cons]
        omega
      rw [hindex]
      refine ⟨⟨Nat.lt_succ_self _, hbefore.le, ?_⟩, fun j hj => hj.1⟩
      rcases Bool.or_eq_true_iff.1 hstop with hsemicolon | hstops
      · exact .inl ⟨t, hcurrent, by simpa using hsemicolon⟩
      · exact .inr (.inl ⟨u, hnext, hstops⟩)
    · next hgo =>
      obtain ⟨hsemicolon, hstops⟩ : t.kind ≠ .semicolon ∧ stops u.kind = false := by
        simpa using hgo
      have hmoved : ({ s with current := s.current + 1 } : State).Stands (read ++ [t])
          { c with ahead := u :: rest } after := by
        refine ⟨?_, ?_, h.errors, ?_, h.finish⟩
        · simpa using h.tokens
        · simp [h.current]
        · simpa using h.before
      have hleast := ih hmoved (by rw [hmoved.last_eq]; rfl)
      refine ⟨⟨(Nat.lt_succ_self _).trans hleast.1.1, hleast.1.2⟩, fun j hj => hleast.2 ?_⟩
      obtain ⟨hlt, hle, hresumes⟩ := hj
      refine ⟨lt_of_le_of_ne hlt ?_, hle, hresumes⟩
      -- the place that was passed over is none to go on from
      rintro rfl
      rcases hresumes with ⟨v, hv, hkind⟩ | ⟨v, hv, hkind⟩ | hend
      · obtain rfl := Option.some.inj (hcurrent.symm.trans hv)
        exact hsemicolon hkind
      · obtain rfl := Option.some.inj (hnext.symm.trans hv)
        exact Bool.false_ne_true (hstops.symm.trans hkind)
      · exact hbefore.ne hend

def AtBlockEnd (s : State) : Prop :=
  ∃ t, s.tokens[s.current]? = some t ∧ (t.kind = .rightBrace ∨ t.kind = .endOfInput)

end State

/-- Whether a routine that skips tokens, like the skipping along the tokens ahead, moves a state to
an index and changes nothing else. -/
structure SkipsTo (skipper : Routine Unit) (skipping : List Token → List Token) (s : State)
    (j : Nat) : Prop where
  ends : EndsWith skipper s (.ok () { s with current := j })
  ahead : ({ s with current := j } : State).cursor =
    { s.cursor with ahead := skipping s.cursor.ahead }

section Skipping

variable {s : State} {skipper : Routine Unit} {skipping : List Token → List Token}

theorem skipsTo_of_parse (h : s.Inside) (hsuffix : skipping s.cursor.ahead <:+ s.cursor.ahead)
    (hparse : ∀ room inFunction, parseOf room inFunction skipper = skipped skipping) :
    SkipsTo skipper skipping s (s.last - (skipping s.cursor.ahead).length) := by
  have hends := ends_with_parse skipper h
  rw [hparse] at hends
  exact ⟨hends, (h.move (.read hsuffix)).2⟩

theorem SkipsTo.unique {j k : Nat} (h : SkipsTo skipper skipping s j)
    (h' : SkipsTo skipper skipping s k) : j = k := by
  obtain ⟨events, hruns, -⟩ := h.ends.runs
  have hsame := h'.ends.unique events _ hruns
  injection hsame with _ hstates
  exact congrArg State.current hstates

theorem skip_lands (h : s.Inside) :
    ∃ j, SkipsTo .skip Parse.skip s j ∧ (s.current = s.last → j = s.last) ∧
      (s.current < s.last → IsLeast (s.resumptions Kind.startsStatement) j) := by
  refine ⟨_, skipsTo_of_parse h (Parse.skip_suffix _) fun _ _ => rfl, ?_⟩
  have hcurrent := h.current_eq
  obtain ⟨read, after, hstands⟩ := h.stands
  cases hahead : s.cursor.ahead with
  | nil =>
    rw [hahead] at hcurrent
    exact ⟨fun _ => rfl, fun hlt => absurd hcurrent hlt.ne⟩
  | cons t rest =>
    rw [hahead, List.length_cons] at hcurrent
    rw [Parse.skip, Parse.skipFrom_eq_skipTo]
    have hstands' : s.Stands read { s.cursor with ahead := t :: rest } after := by
      rwa [← hahead]
    exact ⟨fun heq => by omega, fun _ => hstands'.isLeast_skipTo⟩

theorem skipInBlock_lands (h : s.Inside) :
    ∃ j, SkipsTo .skipInBlock Parse.skipInBlock s j ∧ (s.AtBlockEnd → j = s.current) ∧
      (¬s.AtBlockEnd → IsLeast (s.resumptions Parse.stopsInBlock) j) := by
  refine ⟨_, skipsTo_of_parse h (Parse.skipInBlock_suffix _) fun _ _ => rfl, ?_⟩
  have hcurrent := h.current_eq
  have hpeek := h.getElem?_current
  obtain ⟨read, after, hstands⟩ := h.stands
  unfold Cursor.peek at hpeek
  cases hahead : s.cursor.ahead with
  | nil =>
    rw [hahead] at hcurrent hpeek
    exact ⟨fun _ => hcurrent.symm, fun hend => absurd ⟨_, hpeek, .inr h.kind_finish⟩ hend⟩
  | cons t rest =>
    rw [hahead] at hcurrent hpeek
    by_cases hbrace : t.kind = .rightBrace
    · rw [Parse.skipInBlock, if_pos hbrace]
      exact ⟨fun _ => Nat.sub_eq_of_eq_add hcurrent.symm,
        fun hend => absurd ⟨t, hpeek, .inl hbrace⟩ hend⟩
    · rw [Parse.skipInBlock_eq_skipTo hbrace]
      have hstands' : s.Stands read { s.cursor with ahead := t :: rest } after := by
        rwa [← hahead]
      refine ⟨?_, fun _ => hstands'.isLeast_skipTo⟩
      rintro ⟨u, hu, hkind⟩
      obtain rfl : t = u := Option.some.inj (hpeek.symm.trans hu)
      have hinside : t.kind ≠ .endOfInput := h.kind_ne (hahead ▸ List.mem_cons_self)
      exact absurd hkind (not_or.2 ⟨hbrace, hinside⟩)

end Skipping

/-- After an error reading goes on at the first likely boundary of a statement. From every state at
or before the end of input, the search at top level moves on to the first place behind the next
token that stands behind a `;`, before a word that opens a statement or at the end. The search
inside a block stays at a closing brace and at the end, and else moves on to the first such place or
to a closing brace before it. Nothing but the index of the next token changes. -/
theorem resynchronization_points (s : State) (h : s.Inside) :
    (∃ j, SkipsTo .skip Parse.skip s j ∧ (s.current = s.last → j = s.last) ∧
      (s.current < s.last → IsLeast (s.resumptions Kind.startsStatement) j)) ∧
    ∃ j, SkipsTo .skipInBlock Parse.skipInBlock s j ∧ (s.AtBlockEnd → j = s.current) ∧
      (¬s.AtBlockEnd → IsLeast (s.resumptions Parse.stopsInBlock) j) :=
  ⟨skip_lands h, skipInBlock_lands h⟩

/-- The middle of `{ 1 + ) } ; print`, before the parenthesis that does not belong there. -/
def strayParen : State where
  tokens := [⟨.leftBrace, "\x7b", none, ⟨1, 1⟩⟩, ⟨.number, "1", some (.number 1), ⟨1, 3⟩⟩,
    ⟨.plus, "+", none, ⟨1, 5⟩⟩, ⟨.rightParen, ")", none, ⟨1, 7⟩⟩,
    ⟨.rightBrace, "\x7d", none, ⟨1, 9⟩⟩, ⟨.semicolon, ";", none, ⟨1, 11⟩⟩,
    ⟨.printWord, "print", none, ⟨1, 13⟩⟩, .finish ⟨1, 18⟩]
  current := 3
  errors := []
  functions := 0
  nesting := 1

/-- The search at top level passes the brace, the one inside a block stops before it. -/
theorem resynchronization_points_stray_paren :
    strayParen.Inside ∧ strayParen.current < strayParen.last ∧ ¬strayParen.AtBlockEnd ∧
    (SkipsTo .skip Parse.skip strayParen 6 ∧
      IsLeast (strayParen.resumptions Kind.startsStatement) 6) ∧
    SkipsTo .skipInBlock Parse.skipInBlock strayParen 4 ∧
      IsLeast (strayParen.resumptions Parse.stopsInBlock) 4 := by
  have h : strayParen.Inside := ⟨by decide, by decide⟩
  have hbefore : strayParen.current < strayParen.last := by decide
  have hopen : ¬strayParen.AtBlockEnd := by
    rintro ⟨t, ht, hkind⟩
    obtain rfl : _ = t := Option.some.inj ht
    exact absurd hkind (by decide)
  obtain ⟨⟨j, hskips, -, hleast⟩, k, hskips', -, hleast'⟩ := resynchronization_points strayParen h
  obtain rfl : j = 6 := hskips.unique (skipsTo_of_parse h (Parse.skip_suffix _) fun _ _ => rfl)
  obtain rfl : k = 4 :=
    hskips'.unique (skipsTo_of_parse h (Parse.skipInBlock_suffix _) fun _ _ => rfl)
  exact ⟨h, hbefore, hopen, ⟨hskips, hleast hbefore⟩, hskips', hleast' hopen⟩

end Descent

end Scriptlet
