import Scriptlet.Grammar.Statement
import Scriptlet.Proofs.ExpressionReading

/-!
The routines for statements and declarations read exactly the canonical ones. What a statement
begins with decides which routine reads it. Only an `else` can carry on a finished statement, and
only one that ends in an `if` without an `else`.
-/

namespace Scriptlet

def Stmt.leads : Stmt → Kind → Bool
  | .expression _, kind => kind.startsExpression
  | .print _ _, kind => kind = .printWord
  | .block _, kind => kind = .leftBrace
  | .conditional _ _ _, kind => kind = .ifWord
  | .whileLoop _ _ _, kind => kind = .whileWord
  | .forLoop _ _ _ _ _, kind => kind = .forWord
  | .variableDecl _ _ constant, kind => kind = if constant then .constWord else .letWord
  | .functionDecl _ _ _, kind => kind = .functionWord
  | .returnStmt _ _, kind => kind = .returnWord

theorem Stmt.starts {inFunction : Bool} {s : Stmt} (hc : s.Canonical inFunction)
    {ts : List Token} (hf : Fits s.written ts) :
    ∃ t rest, ts = t :: rest ∧ s.leads t.kind = true := by
  have first : ∀ {slot : Slot} {slots : List Slot} {kind : Kind}, Fits (slot :: slots) ts →
      (∀ t, slot.Holds t → t.kind = kind) → s.leads kind = true →
      ∃ t rest, ts = t :: rest ∧ s.leads t.kind = true := by
    intro slot slots kind h hk hl
    obtain ⟨t, rest, rfl, ht, _⟩ := fits_cons.1 h
    exact ⟨t, rest, rfl, hk t ht ▸ hl⟩
  cases s with
  | expression value =>
    obtain ⟨head, tail, rfl, hv, _⟩ := fits_append.1 hf
    obtain ⟨t, rest, rfl, ht⟩ := Expr.starts hc hv
    exact ⟨t, rest ++ tail, rfl, ht⟩
  | print keyword value => exact first hf (fun t h => h ▸ hc.1) (by simp [leads])
  | block body => exact first hf (fun t h => h) (by simp [leads])
  | conditional condition thenBranch elseBranch =>
    rw [written] at hf
    exact first hf (fun t h => h) (by simp [leads])
  | whileLoop keyword condition body => exact first hf (fun t h => h ▸ hc.1) (by simp [leads])
  | forLoop keyword initializer condition increment body =>
    rw [written] at hf
    exact first hf (fun t h => h ▸ hc.1) (by simp [leads])
  | variableDecl name initializer constant => exact first hf (fun t h => h) (by simp [leads])
  | functionDecl name parameters body => exact first hf (fun t h => h) (by simp [leads])
  | returnStmt keyword value => exact first hf (fun t h => h ▸ hc.2.1) (by simp [leads])

theorem Stmt.EndsOpen.leads {s : Stmt} (h : s.EndsOpen) {kind : Kind} (hk : s.leads kind = true) :
    kind = .ifWord ∨ kind = .whileWord ∨ kind = .forWord := by
  cases s with
  | conditional => exact .inl (by simpa [Stmt.leads] using hk)
  | whileLoop => exact .inr (.inl (by simpa [Stmt.leads] using hk))
  | forLoop => exact .inr (.inr (by simpa [Stmt.leads] using hk))
  | _ => cases h

namespace Parse

/-- No `else` is left that would carry on a statement. -/
def Shut (s : Stmt) (rest : List Token) : Prop := s.EndsOpen → ¬ Next (· = .elseWord) rest

/-- A canonical statement or declaration that opens at most `room` levels. -/
def Item (room : Nat) (inFunction : Bool) (s : Stmt) (slots : List Slot) : Prop :=
  (s.Canonical inFunction ∧ s.nesting ≤ room) ∧ slots = s.written

/-- Such an item that is no declaration. -/
def Plain (room : Nat) (inFunction : Bool) (s : Stmt) (slots : List Slot) : Prop :=
  ¬ s.IsDeclaration ∧ Item room inFunction s slots

variable {α : Type} {p : List Token → Prop} {kind : Kind} {room : Nat} {inFunction : Bool}

theorem Exact.token {r : Parse Token} {q : Token → Parse α} {R : Token → α → List Slot → Prop}
    {T : α → List Token → Prop}
    (h : Exact p r (Shaped (fun t slots => t.kind = kind ∧ slots = [.token t]) Unlimited))
    (hq : ∀ t, Exact Anywhere (q t) (Shaped (R t) T)) :
    Exact p (r >>= q)
      (Shaped (fun y slots => ∃ t b, slots = .token t :: b ∧ t.kind = kind ∧ R t y b) T) := by
  refine (h.seq hq fun _ _ _ _ _ _ _ _ => trivial).reshape ?_
  intro y slots
  constructor
  · rintro ⟨t, _, b, rfl, ⟨hk, rfl⟩, hR⟩
    exact ⟨t, b, rfl, hk, hR⟩
  · rintro ⟨t, b, rfl, hk, hR⟩
    exact ⟨t, _, b, rfl, ⟨hk, rfl⟩, hR⟩

theorem Exact.kindOnly {r : Parse Token} {q : Token → Parse α} {R : Kind → α → List Slot → Prop}
    {T : α → List Token → Prop}
    (h : Exact p r (Shaped (fun t slots => t.kind = kind ∧ slots = [.token t]) Unlimited))
    (hq : ∀ t, Exact Anywhere (q t) (Shaped (R t.kind) T)) :
    Exact p (r >>= q)
      (Shaped (fun y slots => ∃ b, slots = .kind kind :: b ∧ R kind y b) T) := by
  refine (h.token hq).congr ?_
  intro y read rest _
  constructor
  · rintro ⟨⟨_, ⟨t, b, rfl, rfl, hR⟩, hf⟩, hT⟩
    obtain ⟨u, more, rfl, rfl, hb⟩ := fits_cons.1 hf
    exact ⟨⟨_, ⟨b, rfl, hR⟩, fits_cons.2 ⟨u, more, rfl, rfl, hb⟩⟩, hT⟩
  · rintro ⟨⟨_, ⟨b, rfl, hR⟩, hf⟩, hT⟩
    obtain ⟨u, more, rfl, rfl, hb⟩ := fits_cons.1 hf
    exact ⟨⟨_, ⟨u, b, rfl, rfl, hR⟩, fits_cons.2 ⟨u, more, rfl, rfl, hb⟩⟩, hT⟩

theorem Exact.symbol {r : Parse Token} {q : Parse α} {R : α → List Slot → Prop}
    {T : α → List Token → Prop}
    (h : Exact p r (Shaped (fun t slots => t.kind = kind ∧ slots = [.token t]) Unlimited))
    (hq : Exact Anywhere q (Shaped R T)) :
    Exact p (discard r >>= fun _ => q)
      (Shaped (fun y slots => ∃ b, slots = .kind kind :: b ∧ R y b) T) := by
  simp only [discard_eq_bind, bind_assoc, pure_bind]
  exact h.kindOnly (R := fun _ => R) fun _ => hq

theorem exact_closing (complaint : Complaint) (kind : Kind) (x : α) :
    Exact p (discard (expect kind complaint) >>= fun _ => pure x)
      (Shaped (fun y slots => y = x ∧ slots = [.kind kind]) Unlimited) := by
  refine ((exact_expect kind complaint).symbol (exact_pure_shaped x)).reshape ?_
  intro y slots
  constructor
  · rintro ⟨_, rfl, rfl, rfl⟩
    exact ⟨rfl, rfl⟩
  · rintro ⟨rfl, rfl⟩
    exact ⟨[], rfl, rfl, rfl⟩

theorem Exact.expr {whole : Parse Expr} {q : Expr → Parse α} {R : Expr → α → List Slot → Prop}
    {T : α → List Token → Prop} (h : Exact p whole (ReadsExpr 0 room))
    (hq : ∀ e, Exact Anywhere (q e) (Shaped (R e) T))
    (ends : ∀ e y slots, R e y slots → ∃ kind more, slots = .kind kind :: more ∧
      Kind.continues 0 kind = false) :
    Exact p (whole >>= q)
      (Shaped (fun y slots => ∃ e b, slots = e.written ++ b ∧
        (e.Canonical ∧ e.nesting < room) ∧ R e y b) T) := by
  refine (h.seq hq ?_).reshape ?_
  · rintro e y slots read rest hR hf _
    obtain ⟨kind, more, rfl, hk⟩ := ends e y slots hR
    exact ended_of_fits kind hk hf fun _ ht => ht
  · intro y slots
    constructor
    · rintro ⟨e, _, b, rfl, ⟨⟨hc, _, hn⟩, rfl⟩, hR⟩
      exact ⟨e, b, rfl, ⟨hc, hn⟩, hR⟩
    · rintro ⟨e, b, rfl, ⟨hc, hn⟩, hR⟩
      exact ⟨e, _, b, rfl, ⟨⟨hc, Nat.zero_le _, hn⟩, rfl⟩, hR⟩

theorem Exact.accepted {q : Option Token → Parse α} {R R' : α → List Slot → Prop}
    {T : α → List Token → Prop} (there : ∀ t, Exact Anywhere (q (some t)) (Shaped R T))
    (absent : Exact (fun ts => ¬ Next (· = kind) ts) (q none) (Shaped R' T))
    (follow : ∀ y slots read rest, R' y slots → Fits slots read → T y rest →
      ¬ Next (· = kind) (read ++ rest)) :
    Exact p (accept (· = kind) >>= q)
      (Shaped (fun y slots => (∃ b, slots = .kind kind :: b ∧ R y b) ∨ R' y slots) T) := by
  refine ((exact_accept (· = kind)).bind
    (m := fun o ts => o = none → ¬ Next (· = kind) ts)
    (Q := fun o => Shaped (o.elim R' fun _ => R) T) ?_ ?_).congr ?_
  · rintro (_ | t)
    · exact absent.weaken fun ts h => h rfl
    · exact (there t).weaken fun _ _ => trivial
  · rintro _ first rest _ ho rfl
    exact ho.2
  · intro y read rest _
    constructor
    · rintro ⟨_ | t, first, second, rfl, ⟨rfl, hk⟩, ⟨slots, hR, hf⟩, hT⟩
      · exact ⟨⟨slots, .inr hR, hf⟩, hT⟩
      · exact ⟨⟨_, .inl ⟨slots, rfl, hR⟩, fits_cons.2 ⟨t, second, rfl, by simpa using hk, hf⟩⟩, hT⟩
    · rintro ⟨⟨slots, ⟨b, rfl, hR⟩ | hR, hf⟩, hT⟩
      · obtain ⟨t, second, rfl, hk, hfb⟩ := fits_cons.1 hf
        exact ⟨some t, [t], second, rfl, ⟨rfl, by simpa using hk⟩, ⟨b, hR, hfb⟩, hT⟩
      · exact ⟨none, [], read, rfl, ⟨rfl, follow y slots read rest hR hf hT⟩, ⟨slots, hR, hf⟩, hT⟩

theorem exact_optional {whole : Parse Expr} {stop : Kind}
    (h : Exact Anywhere whole (ReadsExpr 0 room)) (hs : stop.startsExpression = false) :
    Exact Anywhere (Parse.optional stop whole)
      (Shaped (fun o slots => (Expr.CanonicalIfAny o ∧ Expr.nestingIfAny o ≤ room) ∧
          slots = Expr.writtenAfter [] o)
        (fun o rest => if o.isNone then headKind rest = stop else Ended 0 rest)) := by
  refine Exact.look fun kind => ?_
  by_cases hk : kind = stop
  · simp only [hk, if_true]
    refine (exact_pure none).congr ?_
    rintro o read rest ⟨_, hhead⟩
    constructor
    · rintro ⟨rfl, rfl⟩
      exact ⟨⟨[], ⟨⟨by simp [Expr.CanonicalIfAny], Nat.zero_le _⟩, rfl⟩, by simp⟩, hhead⟩
    · rintro ⟨⟨_, ⟨⟨hc, _⟩, rfl⟩, hf⟩, _⟩
      cases o with
      | none => exact ⟨rfl, by simpa [Expr.writtenAfter] using hf⟩
      | some e =>
        obtain ⟨t, more, rfl, ht⟩ := Expr.starts (hc e rfl) hf
        rw [show t.kind = stop from hhead, hs] at ht
        cases ht
  · simp only [hk, if_false, map_eq_bind]
    refine ((h.weaken fun _ _ => trivial).result some
      (T := fun o rest => if o.isNone then headKind rest = stop else Ended 0 rest)
      (by simp)).congr ?_
    rintro o read rest ⟨_, hhead⟩
    constructor
    · rintro ⟨⟨_, ⟨e, rfl, ⟨hc, _, hn⟩, rfl⟩, hf⟩, hT⟩
      exact ⟨⟨_, ⟨⟨by simpa [Expr.CanonicalIfAny] using hc, hn⟩, rfl⟩, hf⟩, hT⟩
    · rintro ⟨⟨_, ⟨⟨hc, hn⟩, rfl⟩, hf⟩, hT⟩
      cases o with
      | none =>
        obtain rfl : read = [] := by simpa [Expr.writtenAfter] using hf
        exact absurd (hhead.symm.trans hT) hk
      | some e => exact ⟨⟨_, ⟨e, rfl, ⟨hc e rfl, Nat.zero_le _, hn⟩, rfl⟩, hf⟩, hT⟩

theorem Exact.optional {whole : Parse Expr} {q : Option Expr → Parse α}
    {R : Option Expr → α → List Slot → Prop} {T : α → List Token → Prop}
    (h : Exact Anywhere whole (ReadsExpr 0 room)) (stop : Kind) (hs : stop.startsExpression = false)
    (hk : Kind.continues 0 stop = false) (hq : ∀ o, Exact Anywhere (q o) (Shaped (R o) T))
    (ends : ∀ o y slots, R o y slots → ∃ more, slots = .kind stop :: more) :
    Exact Anywhere (Parse.optional stop whole >>= q)
      (Shaped (fun y slots => ∃ o b, slots = Expr.writtenAfter [] o ++ b ∧
        (Expr.CanonicalIfAny o ∧ Expr.nestingIfAny o ≤ room) ∧ R o y b) T) := by
  refine ((exact_optional h hs).seq hq ?_).reshape ?_
  · rintro o y slots read rest hR hf _
    obtain ⟨more, rfl⟩ := ends o y slots hR
    cases o with
    | none =>
      obtain ⟨t, _, rfl, ht, _⟩ := fits_cons.1 hf
      exact ht
    | some e => exact ended_of_fits stop hk hf fun _ ht => ht
  · intro y slots
    constructor
    · rintro ⟨o, _, b, rfl, ⟨ho, rfl⟩, hR⟩
      exact ⟨o, b, rfl, ho, hR⟩
    · rintro ⟨o, b, rfl, ho, hR⟩
      exact ⟨o, _, b, rfl, ⟨ho, rfl⟩, hR⟩

section Routines

variable {whole : Parse Expr}

theorem exact_declarationEnd (name : Token) (initializer : Option Expr) (constant : Bool) :
    Exact Anywhere
      (if (constant && initializer.isNone) = true then
        recordHere .constantValue >>= fun _ => discard (expect .semicolon .declarationEnd) >>=
          fun _ => pure (Stmt.variableDecl name initializer constant)
      else discard (expect .semicolon .declarationEnd) >>=
          fun _ => pure (Stmt.variableDecl name initializer constant))
      (Shaped (fun s slots => s = .variableDecl name initializer constant ∧
        (constant = true → initializer.isSome = true) ∧ slots = [.kind .semicolon]) Unlimited) := by
  by_cases hc : (constant && initializer.isNone) = true
  · rw [if_pos hc]
    refine exact_never (((exact_recordHere _).andThen fun _ => exact_closing _ _ _).congr ?_) ?_
    · simp [Then]
    · rintro s slots ⟨_, hi, _⟩
      cases initializer <;> simp_all
  · rw [if_neg hc]
    refine (exact_closing _ _ _).reshape ?_
    intro s slots
    cases initializer <;> simp_all

theorem exact_initialized (h : Exact Anywhere whole (ReadsExpr 0 room)) (name : Token)
    (constant : Bool) (ending : Option Expr → Parse Stmt)
    (he : ∀ o, Exact Anywhere (ending o)
      (Shaped (fun s slots => s = .variableDecl name o constant ∧
        (constant = true → o.isSome = true) ∧ slots = [.kind .semicolon]) Unlimited)) :
    Exact Anywhere
      (accept (· = .equal) >>= fun o => match o with
        | some _ => some <$> whole >>= ending
        | none => pure none >>= ending)
      (Shaped (fun s slots => ∃ o, s = .variableDecl name o constant ∧
        (constant = true → o.isSome = true) ∧ (Expr.CanonicalIfAny o ∧ Expr.nestingIfAny o ≤ room) ∧
        slots = Expr.writtenAfter [.kind .equal] o ++ [.kind .semicolon]) Unlimited) := by
  have there : Exact Anywhere (some <$> whole >>= ending)
      (Shaped (fun s slots => ∃ e b, slots = e.written ++ b ∧ (e.Canonical ∧ e.nesting < room) ∧
        s = .variableDecl name (some e) constant ∧ (constant = true → (some e).isSome = true) ∧
        b = [.kind .semicolon]) Unlimited) := by
    simp only [map_eq_bind, bind_assoc, pure_bind]
    exact h.expr (fun e => he (some e)) fun e s slots hs => ⟨_, [], hs.2.2, by decide⟩
  refine (Exact.accepted (fun _ => there)
    (by simpa using (he none).weaken fun _ _ => trivial) ?_).reshape ?_
  · rintro s slots read rest ⟨_, _, rfl⟩ hf _
    obtain ⟨t, rfl, ht⟩ := fits_singleton.1 hf
    simp [Next, show t.kind = .semicolon from ht]
  · intro s slots
    constructor
    · rintro (⟨_, rfl, e, _, rfl, ⟨hc, hn⟩, rfl, hi, rfl⟩ | ⟨rfl, hi, rfl⟩)
      · exact ⟨some e, rfl, hi, ⟨by simpa [Expr.CanonicalIfAny] using hc, hn⟩, rfl⟩
      · exact ⟨none, rfl, by simpa using hi, ⟨by simp [Expr.CanonicalIfAny], Nat.zero_le _⟩, rfl⟩
    · rintro ⟨_ | e, rfl, hi, ⟨hc, hn⟩, rfl⟩
      · exact .inr ⟨rfl, by simpa using hi, rfl⟩
      · exact .inl ⟨_, rfl, e, _, rfl, ⟨hc e rfl, hn⟩, rfl, hi, rfl⟩

theorem exact_variableDecl (h : Exact Anywhere whole (ReadsExpr 0 room))
    (hk : kind = .letWord ∨ kind = .constWord) :
    Exact (headKind · = kind) (variableDecl whole)
      (Shaped (fun s slots => s.leads kind = true ∧ Item room inFunction s slots) Unlimited) := by
  have hend : kind ≠ .endOfInput := by
    rintro rfl
    simp at hk
  refine ((exact_take_kind kind hend).kindOnly
    (R := fun kind s slots => ∃ name b, slots = .token name :: b ∧ name.kind = .identifier ∧
      ∃ o, s = .variableDecl name o (decide (kind = .constWord)) ∧
        (decide (kind = .constWord) = true → o.isSome = true) ∧
        (Expr.CanonicalIfAny o ∧ Expr.nestingIfAny o ≤ room) ∧
        b = Expr.writtenAfter [.kind .equal] o ++ [.kind .semicolon])
    fun keyword => (exact_expect .identifier _).token fun name =>
      exact_initialized h name (decide (keyword.kind = .constWord)) _
        fun o => exact_declarationEnd name o _).reshape ?_
  intro s slots
  constructor
  · rintro ⟨_, rfl, name, _, rfl, hn, o, rfl, hi, ⟨hc, ho⟩, rfl⟩
    rcases hk with rfl | rfl
    · exact ⟨rfl, ⟨⟨hn, hi, hc⟩, ho⟩, rfl⟩
    · exact ⟨rfl, ⟨⟨hn, hi, hc⟩, ho⟩, rfl⟩
  · rintro ⟨hl, ⟨hc, ho⟩, rfl⟩
    cases s with
    | variableDecl name o constant =>
      obtain ⟨hn, hi, hc⟩ := hc
      obtain rfl : constant = decide (kind = .constWord) := by
        cases constant <;> simp_all [Stmt.leads]
      refine ⟨_, ?_, name, _, rfl, hn, o, rfl, hi, ⟨hc, ho⟩, rfl⟩
      rcases hk with rfl | rfl <;> rfl
    | expression value => rcases hk with rfl | rfl <;> cases hl
    | _ => rcases hk with rfl | rfl <;> simp [Stmt.leads] at hl

/-- What stands behind the opening brace of a block or of a function body. -/
def Body (room : Nat) (inFunction : Bool) (ss : List Stmt) (slots : List Slot) : Prop :=
  (Stmt.AllCanonical inFunction ss ∧ Stmt.nestingAll ss < room) ∧
    slots = Stmt.writtenAll ss ++ [.kind .rightBrace]

theorem rows_item_iff {ss : List Stmt} {slots : List Slot} :
    (∃ rows, List.Forall₂ (Item room inFunction) ss rows ∧ slots = rows.flatten) ↔
      (Stmt.AllCanonical inFunction ss ∧ Stmt.nestingAll ss ≤ room) ∧
        slots = Stmt.writtenAll ss := by
  induction ss generalizing slots with
  | nil => simp [Stmt.AllCanonical, Stmt.nestingAll, Stmt.writtenAll]
  | cons s ss ih =>
    constructor
    · rintro ⟨_, h, rfl⟩
      obtain ⟨_, rows, ⟨⟨hc, hn⟩, rfl⟩, hrows, rfl⟩ := List.forall₂_cons_left_iff.1 h
      obtain ⟨⟨hcs, hns⟩, hw⟩ := ih.1 ⟨rows, hrows, rfl⟩
      exact ⟨⟨⟨hc, hcs⟩, Nat.max_le.2 ⟨hn, hns⟩⟩, by simp [hw, Stmt.writtenAll]⟩
    · rintro ⟨⟨⟨hc, hcs⟩, hn⟩, rfl⟩
      obtain ⟨hn, hns⟩ := Nat.max_le.1 hn
      obtain ⟨rows, hrows, hw⟩ := ih.2 ⟨⟨hcs, hns⟩, rfl⟩
      exact ⟨s.written :: rows, .cons ⟨⟨hc, hn⟩, rfl⟩ hrows, by simp [hw, Stmt.writtenAll]⟩

theorem item_opens {s : Stmt} {slots : List Slot} (h : Item room inFunction s slots)
    {ts : List Token} (hf : Fits slots ts) : ∃ t more, ts = t :: more ∧ t.kind ≠ .elseWord ∧
      t.kind ≠ .rightBrace ∧ t.kind ≠ .endOfInput := by
  obtain ⟨⟨hc, _⟩, rfl⟩ := h
  obtain ⟨t, more, rfl, ht⟩ := Stmt.starts hc hf
  have key : ∀ kind, s.leads kind = true →
      kind ≠ .elseWord ∧ kind ≠ .rightBrace ∧ kind ≠ .endOfInput := by
    rintro kind hk
    refine ⟨?_, ?_, ?_⟩ <;> rintro rfl <;> cases s with
    | variableDecl name initializer constant => cases constant <;> cases hk
    | _ => cases hk
  exact ⟨t, more, rfl, key _ ht⟩

theorem shut_of_head {s : Stmt} {rest : List Token} (h : headKind rest ≠ .elseWord) :
    Shut s rest := by
  intro _
  cases rest with
  | nil => simp [Next]
  | cons t rest => simpa [Next, headKind] using h

theorem exact_block {item : Parse Stmt}
    (hitem : Exact Anywhere item (Shaped (Item room inFunction) Shut)) :
    Exact Anywhere (block item) (Shaped (Body (room + 1) inFunction) Unlimited) := by
  refine Exact.ahead fun ts => ?_
  have hitems := (exact_itemsUntil (fun kind => kind = .rightBrace || kind = .endOfInput) hitem
    skipInBlock_suffix (by decide) ?_ ?_ ts).weaken
      (p := fun us => Anywhere us ∧ us = ts) (by rintro us ⟨_, rfl⟩; exact Nat.le_refl _)
  · refine (hitems.seq (fun body => exact_closing .blockEnd .rightBrace body) ?_).reshape ?_
    · rintro body _ slots read rest ⟨_, rfl⟩ hf _
      obtain ⟨t, rfl, ht⟩ := fits_singleton.1 hf
      simp [headKind, show t.kind = .rightBrace from ht]
    · intro ss slots
      constructor
      · rintro ⟨_, _, _, rfl, hrows, rfl, rfl⟩
        obtain ⟨⟨hc, hn⟩, rfl⟩ := rows_item_iff.1 hrows
        exact ⟨⟨hc, Nat.lt_succ_of_le hn⟩, rfl⟩
      · rintro ⟨⟨hc, hn⟩, rfl⟩
        exact ⟨ss, _, _, rfl, rows_item_iff.2 ⟨⟨hc, Nat.le_of_lt_succ hn⟩, rfl⟩, rfl, rfl⟩
  · intro s slots hs us hf
    obtain ⟨t, more, rfl, helse, hbrace, hend⟩ := item_opens hs hf
    exact ⟨t, more, rfl, by simp [hbrace, hend], fun y rest => shut_of_head helse⟩
  · intro s rest hstop
    refine shut_of_head ?_
    intro hk
    rw [hk] at hstop
    cases hstop

theorem rows_parameter_iff {ts : List Token} {slots : List Slot} :
    (∃ rows, List.Forall₂ (fun t slots => t.kind = .identifier ∧ slots = [.token t]) ts rows ∧
      slots = Slot.separated rows) ↔
      (∀ t ∈ ts, t.kind = .identifier) ∧ slots = Slot.separated (ts.map fun t => [.token t]) := by
  have key : ∀ rows, List.Forall₂ (fun (t : Token) slots => t.kind = .identifier ∧
      slots = [Slot.token t]) ts rows ↔
      (∀ t ∈ ts, t.kind = .identifier) ∧ rows = ts.map fun t => [.token t] := by
    induction ts with
    | nil => simp
    | cons t ts ih =>
      intro rows
      rw [List.forall₂_cons_left_iff]
      simp only [ih]
      constructor
      · rintro ⟨_, _, ⟨hk, rfl⟩, ⟨hks, rfl⟩, rfl⟩
        exact ⟨by simpa using ⟨hk, hks⟩, rfl⟩
      · rintro ⟨hks, rfl⟩
        exact ⟨_, _, ⟨hks t (by simp), rfl⟩, ⟨fun u hu => hks u (by simp [hu]), rfl⟩, rfl⟩
  simp [key, and_assoc]

theorem exact_parameters (tooMany missing : Complaint) :
    Exact Anywhere (listed tooMany (expect .identifier missing))
      (Shaped (fun ts slots => ts.length ≤ listLimit ∧ (∀ t ∈ ts, t.kind = .identifier) ∧
          slots = Slot.separated (ts.map fun t => [.token t]))
        (fun ts rest => if ts = [] then headKind rest = .rightParen
          else True ∧ ¬ Next (· = .comma) rest)) := by
  refine (exact_listed tooMany (S := fun _ => True) (exact_expect .identifier missing) ?_
    (by simp)).reshape ?_
  · rintro t _ ⟨hk, rfl⟩ ts hf
    obtain ⟨u, rfl, rfl⟩ := fits_singleton.1 hf
    simp [headKind, hk]
  · intro ts slots
    rw [rows_parameter_iff]

theorem exact_functionDecl {body : Parse (List Stmt)}
    (hbody : Exact Anywhere body (Shaped (Body room true) Unlimited)) :
    Exact (headKind · = .functionWord) (functionDecl body)
      (Shaped (fun s slots => s.leads .functionWord = true ∧ Item room inFunction s slots)
        Unlimited) := by
  have rest : ∀ name parameters, Exact Anywhere
      (discard (expect .rightParen .parametersEnd) >>= fun _ =>
        discard (expect .leftBrace .bodyStart) >>= fun _ =>
          body >>= fun ss => pure (Stmt.functionDecl name parameters ss)) _ :=
    fun name parameters => (exact_expect .rightParen _).symbol ((exact_expect .leftBrace _).symbol
      (hbody.result (Stmt.functionDecl name parameters) (T := Unlimited) (by simp)))
  refine ((exact_take_kind _ (by decide)).symbol ((exact_expect .identifier _).token fun name =>
    (exact_expect .leftParen _).symbol ((exact_parameters _ _).seq (rest name) ?_))).reshape ?_
  · rintro parameters s _ read rest ⟨_, rfl, _⟩ hf _
    obtain ⟨t, _, rfl, ht, _⟩ := fits_cons.1 hf
    rw [Slot.holds_kind] at ht
    split <;> simp [headKind, Next, ht]
  · intro s slots
    constructor
    · rintro ⟨_, rfl, name, _, rfl, hk, _, rfl, parameters, _, _, rfl, ⟨hlen, hks, rfl⟩, _, rfl, _,
        rfl, ss, rfl, ⟨hc, hn⟩, rfl⟩
      refine ⟨rfl, ⟨⟨hk, hks, hlen, hc⟩, hn⟩, ?_⟩
      simp [Stmt.written]
    · rintro ⟨hl, ⟨hc, hn⟩, rfl⟩
      cases s with
      | functionDecl name parameters ss =>
        obtain ⟨hk, hks, hlen, hc⟩ := hc
        exact ⟨_, rfl, name, _, rfl, hk, _, rfl, parameters, _, _, by simp, ⟨hlen, hks, rfl⟩,
          _, rfl, _, rfl, ss, rfl, ⟨hc, hn⟩, rfl⟩
      | variableDecl name initializer constant => cases constant <;> cases hl
      | _ => cases hl

theorem Exact.shut {r : Parse Stmt} {R : Stmt → List Slot → Prop}
    (h : Exact p r (Shaped R Unlimited)) (hR : ∀ s slots, R s slots → ¬ s.EndsOpen) :
    Exact p r (Shaped R Shut) := by
  refine h.congr ?_
  intro s read rest _
  constructor
  · rintro ⟨⟨slots, hs, hf⟩, _⟩
    exact ⟨⟨slots, hs, hf⟩, fun ho => absurd ho (hR s slots hs)⟩
  · rintro ⟨hs, _⟩
    exact ⟨hs, trivial⟩

theorem exact_expressionStmt (h : Exact Anywhere whole (ReadsExpr 0 room)) :
    Exact Anywhere (expressionStmt whole)
      (Shaped (fun s slots => ∃ value, s = .expression value ∧
        (value.Canonical ∧ value.nesting < room) ∧ slots = s.written) Unlimited) := by
  refine (h.expr (fun value => exact_closing _ _ (Stmt.expression value)) ?_).reshape ?_
  · rintro value s _ ⟨_, rfl⟩
    exact ⟨_, [], rfl, by decide⟩
  · intro s slots
    constructor
    · rintro ⟨value, _, rfl, hv, rfl, rfl⟩
      exact ⟨value, rfl, hv, rfl⟩
    · rintro ⟨value, rfl, hv, rfl⟩
      exact ⟨value, _, rfl, hv, rfl, rfl⟩

theorem exact_printStmt (h : Exact Anywhere whole (ReadsExpr 0 room)) :
    Exact (headKind · = .printWord) (printStmt whole)
      (Shaped (fun s slots => s.leads .printWord = true ∧ Plain (room + 1) inFunction s slots)
        Shut) := by
  refine (((exact_take_kind _ (by decide)).token fun keyword => h.expr
    (fun value => exact_closing _ _ (Stmt.print keyword value)) ?_).reshape ?_).shut ?_
  · rintro value s _ ⟨_, rfl⟩
    exact ⟨_, [], rfl, by decide⟩
  · intro s slots
    constructor
    · rintro ⟨keyword, _, rfl, hk, value, _, rfl, ⟨hc, hn⟩, rfl, rfl⟩
      exact ⟨rfl, id, ⟨⟨hk, hc⟩, Nat.succ_le_succ hn⟩, rfl⟩
    · rintro ⟨hl, hd, ⟨hc, hn⟩, rfl⟩
      cases s with
      | print keyword value =>
        exact ⟨keyword, _, rfl, hc.1, value, _, rfl, ⟨hc.2, Nat.le_of_succ_le_succ hn⟩, rfl, rfl⟩
      | variableDecl => exact absurd trivial hd
      | _ => cases hl
  · rintro s slots ⟨hl, -⟩ ho
    simpa using ho.leads hl

theorem exact_returnStmt (h : Exact Anywhere whole (ReadsExpr 0 room)) :
    Exact (headKind · = .returnWord) (returnStmt inFunction whole)
      (Shaped (fun s slots => s.leads .returnWord = true ∧ Plain (room + 1) inFunction s slots)
        Shut) := by
  have ending := fun keyword => h.optional .semicolon rfl (by decide)
    (fun value => exact_closing .returnEnd .semicolon (Stmt.returnStmt keyword value))
    fun value s slots hs => ⟨[], hs.2⟩
  refine Exact.shut ?_ fun s slots hs ho => by simpa using ho.leads hs.1
  unfold returnStmt
  cases inFunction with
  | true =>
    refine ((exact_take_kind _ (by decide)).token ending).reshape ?_
    intro s slots
    constructor
    · rintro ⟨keyword, _, rfl, hk, value, _, rfl, ⟨hc, hn⟩, rfl, rfl⟩
      exact ⟨rfl, id, ⟨⟨rfl, hk, hc⟩, Nat.succ_le_succ hn⟩, rfl⟩
    · rintro ⟨hl, hd, ⟨hc, hn⟩, rfl⟩
      cases s with
      | returnStmt keyword value =>
        exact ⟨keyword, _, rfl, hc.2.1, value, _, rfl, ⟨hc.2.2, Nat.le_of_succ_le_succ hn⟩, rfl,
          rfl⟩
      | variableDecl => exact absurd trivial hd
      | _ => cases hl
  | false =>
    refine exact_never (((exact_take_kind .returnWord (by decide)).andThen
      (Q := fun _ _ _ _ => False) ?_).congr (by simp [Then])) ?_
    · intro keyword
      exact ((exact_record _).andThen fun _ => ending keyword).congr (by simp [Then])
    · rintro s slots ⟨hl, hd, ⟨hc, _⟩, _⟩
      cases s with
      | returnStmt keyword value => cases hc.1
      | variableDecl => exact absurd trivial hd
      | _ => cases hl

theorem exact_alternative {branch : Parse Stmt}
    (h : Exact Anywhere branch (Shaped (Plain room inFunction) Shut)) (condition : Expr)
    (thenBranch : Stmt) :
    Exact Anywhere
      (accept (· = .elseWord) >>= fun o => match o with
        | some _ => branch >>= fun s => pure (Stmt.conditional condition thenBranch (some s))
        | none => pure (Stmt.conditional condition thenBranch none))
      (Shaped (fun s slots =>
        (∃ b, slots = .kind .elseWord :: b ∧ ∃ other,
          s = .conditional condition thenBranch (some other) ∧ Plain room inFunction other b) ∨
        (s = .conditional condition thenBranch none ∧ slots = [])) Shut) := by
  refine Exact.accepted (fun _ => h.result (fun s => Stmt.conditional condition thenBranch (some s))
    (T := Shut) (by simp [Shut, Stmt.EndsOpen])) ?_ ?_
  · refine (exact_pure _).congr ?_
    rintro s read rest hn
    constructor
    · rintro ⟨rfl, rfl⟩
      exact ⟨⟨[], ⟨rfl, rfl⟩, by simp⟩, fun _ => hn⟩
    · rintro ⟨⟨_, ⟨rfl, rfl⟩, hf⟩, _⟩
      exact ⟨rfl, fits_nil.1 hf⟩
  · rintro s _ read rest ⟨rfl, rfl⟩ hf hS
    rw [fits_nil.1 hf]
    exact hS (by simp [Stmt.EndsOpen])

theorem exact_conditional {branch : Parse Stmt} (h : Exact Anywhere whole (ReadsExpr 0 room))
    (hb : Exact Anywhere branch (Shaped (Plain room inFunction) Shut)) :
    Exact (headKind · = .ifWord) (conditional whole branch)
      (Shaped (fun s slots => s.leads .ifWord = true ∧ Plain (room + 1) inFunction s slots)
        Shut) := by
  -- a then-branch that ends open keeps an `else` for itself
  have branches := fun condition => hb.seqIf
    (G := fun thenBranch s => ∀ c t other, s = .conditional c t (some other) →
      ¬ thenBranch.EndsOpen)
    (exact_alternative hb condition) (by
      rintro thenBranch s slots read rest hs hf hS
      rcases hs with ⟨b, rfl, other, rfl, _⟩ | ⟨rfl, rfl⟩
      · obtain ⟨t, _, rfl, ht, _⟩ := fits_cons.1 hf
        simp [Shut, Next, show t.kind = .elseWord from ht]
      · rw [fits_nil.1 hf]
        simpa [Shut, Stmt.EndsOpen] using fun _ => hS (by simp [Stmt.EndsOpen]))
  refine ((exact_take_kind _ (by decide)).symbol ((exact_expect .leftParen _).symbol (h.expr
    (fun condition => (exact_expect .rightParen _).symbol (branches condition)) ?_))).reshape ?_
  · rintro condition s _ ⟨b, rfl, _⟩
    exact ⟨_, b, rfl, by decide⟩
  · intro s slots
    constructor
    · rintro ⟨_, rfl, _, rfl, condition, _, rfl, ⟨hc, hn⟩, _, rfl, thenBranch, _, _, rfl,
        ⟨hd, ⟨ht, hnt⟩, rfl⟩, ⟨_, rfl, other, rfl, hdo, ⟨ho, hno⟩, rfl⟩ | ⟨rfl, rfl⟩, hG⟩
      · refine ⟨rfl, id, ⟨⟨hc, hd, ht, fun _ => hG _ _ _ rfl, hdo, ho⟩, ?_⟩, ?_⟩
        · simp only [Stmt.nesting, Stmt.nestingIfAny]
          omega
        · simp [Stmt.written, Stmt.writtenElse]
      · refine ⟨rfl, id, ⟨⟨hc, hd, ht, fun h => (by cases h), trivial⟩, ?_⟩, ?_⟩
        · simp only [Stmt.nesting, Stmt.nestingIfAny]
          omega
        · simp [Stmt.written, Stmt.writtenElse]
    · rintro ⟨hl, hd, ⟨hc, hn⟩, rfl⟩
      cases s with
      | conditional condition thenBranch elseBranch =>
        obtain ⟨hc, hdt, ht, hopen, he⟩ := hc
        simp only [Stmt.nesting, Nat.add_le_add_iff_right, Nat.max_le] at hn
        obtain ⟨hn, hnt, hne⟩ := hn
        cases elseBranch with
        | some other =>
          exact ⟨_, rfl, _, rfl, condition, _, by simp [Stmt.writtenElse], ⟨hc, hn⟩, _, rfl,
            thenBranch, _, _, rfl, ⟨hdt, ⟨ht, hnt⟩, rfl⟩,
            .inl ⟨_, rfl, other, rfl, he.1, ⟨he.2, hne⟩, rfl⟩, fun _ _ _ _ => hopen rfl⟩
        | none =>
          exact ⟨_, rfl, _, rfl, condition, _, by simp [Stmt.writtenElse], ⟨hc, hn⟩, _, rfl,
            thenBranch, _, _, rfl, ⟨hdt, ⟨ht, hnt⟩, rfl⟩, .inr ⟨rfl, rfl⟩,
            fun _ _ _ h => by cases h⟩
      | variableDecl => exact absurd trivial hd
      | _ => cases hl

theorem exact_whileLoop {body : Parse Stmt} (h : Exact Anywhere whole (ReadsExpr 0 room))
    (hb : Exact Anywhere body (Shaped (Plain room inFunction) Shut)) :
    Exact (headKind · = .whileWord) (whileLoop whole body)
      (Shaped (fun s slots => s.leads .whileWord = true ∧ Plain (room + 1) inFunction s slots)
        Shut) := by
  refine ((exact_take_kind _ (by decide)).token fun keyword => (exact_expect .leftParen _).symbol
    (h.expr (fun condition => (exact_expect .rightParen _).symbol
      (hb.result (Stmt.whileLoop keyword condition) (T := Shut) (by simp [Shut, Stmt.EndsOpen])))
      ?_)).reshape ?_
  · rintro condition s _ ⟨b, rfl, _⟩
    exact ⟨_, b, rfl, by decide⟩
  · intro s slots
    constructor
    · rintro ⟨keyword, _, rfl, hk, _, rfl, condition, _, rfl, ⟨hc, hn⟩, _, rfl, body, rfl,
        hd, ⟨hb, hnb⟩, rfl⟩
      refine ⟨rfl, id, ⟨⟨hk, hc, hd, hb⟩, ?_⟩, by simp [Stmt.written]⟩
      exact Nat.succ_le_succ (Nat.max_le.2 ⟨hn, hnb⟩)
    · rintro ⟨hl, hd, ⟨hc, hn⟩, rfl⟩
      cases s with
      | whileLoop keyword condition body =>
        obtain ⟨hk, hc, hdb, hb⟩ := hc
        obtain ⟨hn, hnb⟩ := Nat.max_le.1 (Nat.le_of_succ_le_succ hn)
        exact ⟨keyword, _, rfl, hk, _, rfl, condition, _, rfl, ⟨hc, hn⟩, _, rfl, body, rfl,
          hdb, ⟨hb, hnb⟩, rfl⟩
      | variableDecl => exact absurd trivial hd
      | _ => cases hl

/-- The first clause of a `for`. -/
def First (room : Nat) (inFunction : Bool) (o : Option Stmt) (slots : List Slot) : Prop :=
  (Stmt.FirstCanonical inFunction o ∧ Stmt.nestingFirst o ≤ room) ∧ slots = Stmt.writtenFirst o

theorem first_starts {o : Option Stmt} {slots : List Slot} (h : First room inFunction o slots)
    {ts : List Token} (hf : Fits slots ts) :
    ∃ t rest, ts = t :: rest ∧ (o = none ∧ t.kind = .semicolon ∨
      ∃ s, o = some s ∧ s.IsInitializer ∧ s.leads t.kind = true) := by
  obtain ⟨⟨hc, _⟩, rfl⟩ := h
  cases o with
  | none =>
    obtain ⟨t, rfl, ht⟩ := fits_singleton.1 hf
    exact ⟨t, [], rfl, .inl ⟨rfl, ht⟩⟩
  | some s =>
    obtain ⟨t, rest, rfl, ht⟩ := Stmt.starts hc.2 hf
    exact ⟨t, rest, rfl, .inr ⟨s, rfl, hc.1, ht⟩⟩

theorem Exact.firstLed {r : Parse (Option Stmt)} {R : Option Stmt → List Slot → Prop}
    (h : Exact (headKind · = kind) r (Shaped R Unlimited))
    (hto : ∀ o slots, R o slots → First room inFunction o slots)
    (hfrom : ∀ o slots, First room inFunction o slots → (o = none ∧ kind = .semicolon ∨
      ∃ s, o = some s ∧ s.IsInitializer ∧ s.leads kind = true) → R o slots) :
    Exact (headKind · = kind) r (Shaped (First room inFunction) Unlimited) := by
  refine h.congr ?_
  intro o read rest hk
  constructor
  · rintro ⟨⟨slots, hR, hf⟩, _⟩
    exact ⟨⟨slots, hto o slots hR, hf⟩, trivial⟩
  · rintro ⟨⟨slots, hF, hf⟩, _⟩
    obtain ⟨t, more, rfl, ht⟩ := first_starts hF hf
    rw [show t.kind = kind from hk] at ht
    exact ⟨⟨slots, hfrom o slots hF ht, hf⟩, trivial⟩

theorem exact_declared (h : Exact Anywhere whole (ReadsExpr 0 room))
    (hk : kind = .letWord ∨ kind = .constWord) :
    Exact (headKind · = kind) (some <$> variableDecl whole)
      (Shaped (First room inFunction) Unlimited) := by
  have hdecl : Exact (headKind · = kind) (variableDecl whole)
      (Shaped (fun s slots => s.leads kind = true ∧ Item room inFunction s slots) Unlimited) :=
    exact_variableDecl h hk
  have variable_of_leads : ∀ s : Stmt, s.leads kind = true →
      ∃ name initializer constant, s = .variableDecl name initializer constant := by
    rintro s hl
    cases s with
    | variableDecl name initializer constant => exact ⟨name, initializer, constant, rfl⟩
    | _ => rcases hk with rfl | rfl <;> cases hl
  rw [map_eq_bind]
  refine (hdecl.result some (T := Unlimited) (by simp)).firstLed ?_ ?_
  · rintro _ slots ⟨s, rfl, hl, ⟨hc, hn⟩, rfl⟩
    obtain ⟨name, initializer, constant, rfl⟩ := variable_of_leads s hl
    exact ⟨⟨⟨trivial, hc⟩, hn⟩, rfl⟩
  · rintro o slots ⟨⟨hc, hn⟩, rfl⟩ (⟨_, rfl⟩ | ⟨s, rfl, _, hl⟩)
    · simp at hk
    · obtain ⟨name, initializer, constant, rfl⟩ := variable_of_leads s hl
      exact ⟨_, rfl, hl, ⟨hc.2, hn⟩, rfl⟩

theorem exact_forInitializer (h : Exact Anywhere whole (ReadsExpr 0 room)) :
    Exact Anywhere (forInitializer whole) (Shaped (First room inFunction) Unlimited) := by
  refine Exact.look fun kind => Exact.weaken (m := (headKind · = kind)) ?_ fun _ h => h.2
  split
  · refine ((exact_take_kind .semicolon (by decide)).symbol (exact_pure_shaped none)).firstLed ?_ ?_
    · rintro _ _ ⟨_, rfl, rfl, rfl⟩
      exact ⟨⟨trivial, Nat.zero_le _⟩, rfl⟩
    · rintro o slots ⟨_, rfl⟩ (⟨rfl, _⟩ | ⟨s, rfl, hi, hl⟩)
      · exact ⟨[], rfl, rfl, rfl⟩
      · cases s with
        | variableDecl name initializer constant => cases constant <;> cases hl
        | expression value => cases hl
        | _ => cases hi
  · exact exact_declared h (.inl rfl)
  · exact exact_declared h (.inr rfl)
  · rename_i hsemicolon hlet hconst
    rw [map_eq_bind]
    refine (((exact_expressionStmt h).weaken fun _ _ => trivial).result some
      (T := Unlimited) (by simp)).firstLed ?_ ?_
    · rintro _ _ ⟨_, rfl, value, rfl, ⟨hc, hn⟩, rfl⟩
      exact ⟨⟨⟨trivial, hc⟩, hn⟩, rfl⟩
    · rintro o slots ⟨⟨hc, hn⟩, rfl⟩ (⟨_, hk⟩ | ⟨s, rfl, hi, hl⟩)
      · exact absurd hk hsemicolon
      · cases s with
        | expression value => exact ⟨_, rfl, value, rfl, ⟨hc.2, hn⟩, rfl⟩
        | variableDecl name initializer constant =>
          cases constant <;> simp_all [Stmt.leads]
        | _ => cases hi

theorem exact_forLoop {body : Parse Stmt} (h : Exact Anywhere whole (ReadsExpr 0 room))
    (hb : Exact Anywhere body (Shaped (Plain room inFunction) Shut)) :
    Exact (headKind · = .forWord) (forLoop whole body)
      (Shaped (fun s slots => s.leads .forWord = true ∧ Plain (room + 1) inFunction s slots)
        Shut) := by
  have clauses := fun keyword initializer => h.optional .semicolon rfl (by decide)
    (fun condition => (exact_expect .semicolon .forCondition).symbol
      (h.optional .rightParen rfl (by decide)
        (fun increment => (exact_expect .rightParen .forEnd).symbol
          (hb.result (Stmt.forLoop keyword initializer condition increment) (T := Shut)
            (by simp [Shut, Stmt.EndsOpen])))
        fun increment s slots hs => hs.imp fun _ h => h.1))
    fun condition s slots hs => hs.imp fun _ h => h.1
  have hfirst : Exact Anywhere (forInitializer whole) (Shaped (First room inFunction) Unlimited) :=
    exact_forInitializer h
  refine ((exact_take_kind _ (by decide)).token fun keyword => (exact_expect .leftParen _).symbol
    (hfirst.seq (clauses keyword) fun _ _ _ _ _ _ _ _ => trivial)).reshape ?_
  intro s slots
  constructor
  · rintro ⟨keyword, _, rfl, hk, _, rfl, initializer, _, _, rfl, ⟨⟨hi, hni⟩, rfl⟩, condition, _,
      rfl, ⟨hc, hnc⟩, _, rfl, increment, _, rfl, ⟨hp, hnp⟩, _, rfl, body, rfl, hd, ⟨hb, hnb⟩, rfl⟩
    refine ⟨rfl, id, ⟨⟨hk, hi, hc, hp, hd, hb⟩, ?_⟩, by simp [Stmt.written]⟩
    simp only [Stmt.nesting]
    omega
  · rintro ⟨hl, hd, ⟨hc, hn⟩, rfl⟩
    cases s with
    | forLoop keyword initializer condition increment body =>
      obtain ⟨hk, hi, hc, hp, hdb, hb⟩ := hc
      simp only [Stmt.nesting, Nat.add_le_add_iff_right, Nat.max_le] at hn
      obtain ⟨hni, hnc, hnp, hnb⟩ := hn
      exact ⟨keyword, _, by simp [Stmt.written], hk, _, rfl, initializer, _, _, rfl,
        ⟨⟨hi, hni⟩, rfl⟩, condition, _, rfl, ⟨hc, hnc⟩, _, rfl, increment, _, rfl, ⟨hp, hnp⟩, _,
        rfl, body, rfl, hdb, ⟨hb, hnb⟩, rfl⟩
    | variableDecl => exact absurd trivial hd
    | _ => cases hl

theorem exact_blockStmt {item : Parse Stmt}
    (h : Exact Anywhere item (Shaped (Item room inFunction) Shut)) :
    Exact (headKind · = .leftBrace) (discard take >>= fun _ => Stmt.block <$> block item)
      (Shaped (fun s slots => s.leads .leftBrace = true ∧ Plain (room + 1) inFunction s slots)
        Shut) := by
  rw [map_eq_bind]
  refine (((exact_take_kind _ (by decide)).symbol ((exact_block h).result Stmt.block
    (T := Unlimited) (by simp))).reshape ?_).shut fun s slots hs ho => by simpa using ho.leads hs.1
  intro s slots
  constructor
  · rintro ⟨_, rfl, body, rfl, ⟨hc, hn⟩, rfl⟩
    exact ⟨rfl, id, ⟨hc, hn⟩, rfl⟩
  · rintro ⟨hl, hd, ⟨hc, hn⟩, rfl⟩
    cases s with
    | block body => exact ⟨_, rfl, body, rfl, ⟨hc, hn⟩, rfl⟩
    | variableDecl => exact absurd trivial hd
    | _ => cases hl

theorem Exact.led {r : Parse Stmt} {R : Stmt → List Slot → Prop} {T : Stmt → List Token → Prop}
    (h : Exact (headKind · = kind) r (Shaped (fun s slots => s.leads kind = true ∧ R s slots) T))
    (hR : ∀ s slots, R s slots → s.Canonical inFunction ∧ slots = s.written) :
    Exact (headKind · = kind) r (Shaped R T) := by
  refine h.congr ?_
  intro s read rest hk
  constructor
  · rintro ⟨⟨slots, ⟨_, hs⟩, hf⟩, hT⟩
    exact ⟨⟨slots, hs, hf⟩, hT⟩
  · rintro ⟨⟨slots, hs, hf⟩, hT⟩
    obtain ⟨hc, rfl⟩ := hR s slots hs
    obtain ⟨t, more, rfl, ht⟩ := Stmt.starts hc hf
    rw [show t.kind = kind from hk] at ht
    exact ⟨⟨_, ⟨ht, hs⟩, hf⟩, hT⟩

theorem exact_plainExpression (h : Exact Anywhere whole (ReadsExpr 0 room))
    (hk : ∀ s : Stmt, ¬ s.IsDeclaration → s.leads kind = true → ∃ value, s = .expression value) :
    Exact (headKind · = kind) (expressionStmt whole)
      (Shaped (Plain (room + 1) inFunction) Shut) := by
  refine ((exact_expressionStmt h).weaken fun _ _ => trivial).congr ?_
  intro s read rest hhead
  constructor
  · rintro ⟨⟨_, ⟨value, rfl, ⟨hc, hn⟩, rfl⟩, hf⟩, _⟩
    exact ⟨⟨_, ⟨id, ⟨hc, Nat.succ_le_succ hn⟩, rfl⟩, hf⟩, nofun⟩
  · rintro ⟨⟨_, ⟨hd, ⟨hc, hn⟩, rfl⟩, hf⟩, _⟩
    obtain ⟨t, more, rfl, ht⟩ := Stmt.starts hc hf
    rw [show t.kind = kind from hhead] at ht
    obtain ⟨value, rfl⟩ := hk s hd ht
    exact ⟨⟨_, ⟨value, rfl, ⟨hc, Nat.le_of_succ_le_succ hn⟩, rfl⟩, hf⟩, trivial⟩

theorem exact_statementOver {branch item : Parse Stmt}
    (h : Exact Anywhere whole (ReadsExpr 0 room))
    (hbranch : Exact Anywhere branch (Shaped (Plain room inFunction) Shut))
    (hitem : Exact Anywhere item (Shaped (Item room inFunction) Shut)) :
    Exact Anywhere (statementOver inFunction whole branch item)
      (Shaped (Plain (room + 1) inFunction) Shut) := by
  have plain : ∀ s slots, Plain (room + 1) inFunction s slots →
      s.Canonical inFunction ∧ slots = s.written := fun s slots hs => ⟨hs.2.1.1, hs.2.2⟩
  refine Exact.look fun kind => Exact.weaken (m := (headKind · = kind)) ?_ fun _ h => h.2
  split
  · exact (exact_conditional h hbranch).led plain
  · exact (exact_whileLoop h hbranch).led plain
  · exact (exact_forLoop h hbranch).led plain
  · exact (exact_returnStmt h).led plain
  · exact (exact_printStmt h).led plain
  · exact (exact_blockStmt hitem).led plain
  · refine exact_plainExpression h ?_
    intro s hd hl
    cases s with
    | expression value => exact ⟨value, rfl⟩
    | variableDecl => exact absurd trivial hd
    | functionDecl => exact absurd trivial hd
    | _ => simp_all [Stmt.leads]

theorem exact_declarationOver {body : Parse (List Stmt)} {stmt : Parse Stmt}
    (h : Exact Anywhere whole (ReadsExpr 0 room))
    (hbody : Exact Anywhere body (Shaped (Body room true) Unlimited))
    (hstmt : Exact Anywhere stmt (Shaped (Plain room inFunction) Shut)) :
    Exact Anywhere (declarationOver whole body stmt) (Shaped (Item room inFunction) Shut) := by
  have item : ∀ s slots, Item room inFunction s slots →
      s.Canonical inFunction ∧ slots = s.written := fun s slots hs => ⟨hs.1.1, hs.2⟩
  refine Exact.look fun kind => Exact.weaken (m := (headKind · = kind)) ?_ fun _ h => h.2
  split
  · refine ((exact_variableDecl h (.inl rfl)).shut ?_).led item
    exact fun s slots hs ho => by simpa using ho.leads hs.1
  · refine ((exact_variableDecl h (.inr rfl)).shut ?_).led item
    exact fun s slots hs ho => by simpa using ho.leads hs.1
  · refine ((exact_functionDecl hbody).shut ?_).led item
    exact fun s slots hs ho => by simpa using ho.leads hs.1
  · refine (hstmt.weaken fun _ _ => trivial).congr ?_
    intro s read rest hk
    constructor
    · rintro ⟨⟨slots, ⟨_, hs⟩, hf⟩, hT⟩
      exact ⟨⟨slots, hs, hf⟩, hT⟩
    · rintro ⟨⟨_, ⟨⟨hc, hn⟩, rfl⟩, hf⟩, hT⟩
      obtain ⟨t, more, rfl, ht⟩ := Stmt.starts hc hf
      rw [show t.kind = _ from hk] at ht
      refine ⟨⟨_, ⟨?_, ⟨hc, hn⟩, rfl⟩, hf⟩, hT⟩
      cases s with
      | variableDecl name initializer constant => cases constant <;> simp_all [Stmt.leads]
      | functionDecl name parameters body => simp_all [Stmt.leads]
      | _ => exact id

theorem not_plain_zero (s : Stmt) (slots : List Slot) : ¬ Plain 0 inFunction s slots := by
  rintro ⟨hd, ⟨_, hn⟩, _⟩
  cases s with
  | variableDecl => exact hd trivial
  | functionDecl => exact hd trivial
  | _ => simp [Stmt.nesting] at hn

/-- Statements and declarations: each cycle of the grammar opens a level. -/
theorem exact_statement_declaration (room : Nat) (inFunction : Bool) :
    Exact Anywhere (statement room inFunction) (Shaped (Plain room inFunction) Shut) ∧
      Exact Anywhere (declaration room inFunction) (Shaped (Item room inFunction) Shut) := by
  induction room generalizing inFunction with
  | zero =>
    have stmt : Exact Anywhere (statement 0 inFunction) (Shaped (Plain 0 inFunction) Shut) :=
      exact_never (exact_fail .tooMuchNesting) not_plain_zero
    have body : Exact Anywhere (fail .tooMuchNesting) (Shaped (Body 0 true) Unlimited) :=
      exact_never (exact_fail .tooMuchNesting) fun ss slots h => Nat.not_lt_zero _ h.1.2
    refine ⟨stmt, ?_⟩
    rw [declaration_zero]
    exact exact_declarationOver (exact_expression 0) body stmt
  | succ room ih =>
    have stmt : Exact Anywhere (statement (room + 1) inFunction)
        (Shaped (Plain (room + 1) inFunction) Shut) := by
      rw [statement_succ]
      exact exact_statementOver (exact_expression room) (ih inFunction).1 (ih inFunction).2
    refine ⟨stmt, ?_⟩
    rw [declaration_succ]
    exact exact_declarationOver (exact_expression _) (exact_block (ih true).2) stmt

end Routines

end Parse

end Scriptlet
