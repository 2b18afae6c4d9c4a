import Scriptlet.Grammar.Program
import Scriptlet.Proofs.StatementReading

/-!
A token list is read as a program just if the program is canonical, stays within the limit of
nesting and is written with the tokens before the first end of input. So the routines accept exactly
the grammar, and every accepted list has one tree.
-/

namespace Scriptlet

def Constant.kind : Constant → Kind
  | .nil => .nilWord
  | .boolean true => .trueWord
  | .boolean false => .falseWord
  | .number _ => .number
  | .string _ => .string

def Slot.wants : Slot → Kind
  | .kind wanted => wanted
  | .token kept => kept.kind
  | .constant value => value.kind

theorem Constant.kind_of_ofToken? {t : Token} {value : Constant}
    (h : Constant.ofToken? t = some value) : t.kind = value.kind := by
  unfold Constant.ofToken? at h
  split at h <;> simp_all [Constant.kind, Eq.comm]

theorem Slot.Holds.kind_eq {slot : Slot} {t : Token} (h : slot.Holds t) : t.kind = slot.wants := by
  cases slot with
  | kind wanted => exact h
  | token kept => exact congrArg Token.kind h
  | constant value => exact Constant.kind_of_ofToken? h

theorem Fits.map_kind {slots : List Slot} {tokens : List Token} (h : Fits slots tokens) :
    tokens.map Token.kind = slots.map Slot.wants := by
  induction h with
  | nil => rfl
  | cons hs _ ih => simp [hs.kind_eq, ih]

theorem Fits.kind_ne {slots : List Slot} {tokens : List Token} (h : Fits slots tokens) {kind : Kind}
    (hne : Each (·.wants ≠ kind) slots) : ∀ t ∈ tokens, t.kind ≠ kind := by
  intro t ht
  have hk : t.kind ∈ tokens.map Token.kind := List.mem_map_of_mem ht
  rw [h.map_kind] at hk
  obtain ⟨slot, hs, he⟩ := List.mem_map.1 hk
  exact he ▸ hne slot hs

def Slot.Inner (slot : Slot) : Prop := slot.wants ≠ .endOfInput

/-- Whether a slot can be part of an expression: no brace and no end of input. -/
def Slot.Plain (slot : Slot) : Prop :=
  slot.wants ≠ .endOfInput ∧ slot.wants ≠ .leftBrace ∧ slot.wants ≠ .rightBrace

theorem Level.hasOperator_plain {level : Level} {kind : Kind}
    (h : level.hasOperator kind = true) :
    kind ≠ .endOfInput ∧ kind ≠ .leftBrace ∧ kind ≠ .rightBrace := by
  refine ⟨?_, ?_, ?_⟩ <;> rintro rfl <;> cases level <;> cases h

theorem comma_inner : (Slot.kind .comma).Inner := by simp [Slot.Inner, Slot.wants]

theorem comma_plain : (Slot.kind .comma).Plain := by simp [Slot.Plain, Slot.wants]

mutual

theorem Expr.plain : (e : Expr) → e.Canonical → Each Slot.Plain e.written
  | .literal value, _ => by cases value with
    | boolean value => cases value <;> simp [Expr.written, Slot.Plain, Slot.wants, Constant.kind]
    | _ => simp [Expr.written, Slot.Plain, Slot.wants, Constant.kind]
  | .identifier name, hc => by
    simp [Expr.written, Slot.Plain, Slot.wants, show name.kind = _ from hc]
  | .grouping inner, hc => by simpa [Expr.written, Slot.Plain, Slot.wants] using inner.plain hc
  | .unary operator operand, hc => by
    have hk : Slot.Plain (.token operator) := by
      rcases hc.1 with h | h <;> simp [Slot.Plain, Slot.wants, h]
    simpa [Expr.written, hk] using operand.plain hc.2.2
  | .binary left operator right, hc => by
    obtain ⟨⟨level, _, hj⟩, hl, hr⟩ := hc
    simp [Expr.written, Slot.Plain, Slot.wants, Level.hasOperator_plain hj.1, left.plain hl,
      right.plain hr]
  | .logical left operator right, hc => by
    obtain ⟨⟨level, _, hj⟩, hl, hr⟩ := hc
    simp [Expr.written, Slot.Plain, Slot.wants, Level.hasOperator_plain hj.1, left.plain hl,
      right.plain hr]
  | .assignment name value, hc => by
    simp [Expr.written, Slot.Plain, Slot.wants, hc.1, value.plain hc.2]
  | .call callee paren arguments, hc => by
    obtain ⟨_, hcallee, hp, _, hes⟩ := hc
    simp [Expr.written, Slot.Plain, Slot.wants, hp, callee.plain hcallee,
      (each_separated comma_plain).2 (Expr.plain_each arguments hes)]

theorem Expr.plain_each : (es : List Expr) → Expr.AllCanonical es →
    ∀ row ∈ Expr.writtenEach es, Each Slot.Plain row
  | [], _ => nofun
  | e :: es, hc => by
    simpa [Expr.writtenEach] using ⟨e.plain hc.1, Expr.plain_each es hc.2⟩

end

theorem Expr.inner (e : Expr) (hc : e.Canonical) : Each Slot.Inner e.written :=
  fun slot hslot => (e.plain hc slot hslot).1

theorem Expr.inner_after {before : List Slot} (hb : Each Slot.Inner before) {o : Option Expr}
    (hc : Expr.CanonicalIfAny o) : Each Slot.Inner (Expr.writtenAfter before o) := by
  cases o with
  | none => exact each_nil
  | some e => exact each_append.2 ⟨hb, e.inner (hc e rfl)⟩

mutual

theorem Stmt.inner (inFunction : Bool) : (s : Stmt) → s.Canonical inFunction →
    Each Slot.Inner s.written
  | .expression value, hc => by simpa [Stmt.written, Slot.Inner, Slot.wants] using value.inner hc
  | .print keyword value, hc => by
    simpa [Stmt.written, Slot.Inner, Slot.wants, hc.1] using value.inner hc.2
  | .block body, hc => by
    simpa [Stmt.written, Slot.Inner, Slot.wants] using Stmt.inner_all inFunction body hc
  | .conditional condition thenBranch elseBranch, hc => by
    obtain ⟨hc, _, ht, _, he⟩ := hc
    simp [Stmt.written, Slot.Inner, Slot.wants, condition.inner hc, thenBranch.inner inFunction ht,
      Stmt.inner_else inFunction elseBranch he]
  | .whileLoop keyword condition body, hc => by
    obtain ⟨hk, hc, _, hb⟩ := hc
    simp [Stmt.written, Slot.Inner, Slot.wants, hk, condition.inner hc, body.inner inFunction hb]
  | .forLoop keyword initializer condition increment body, hc => by
    obtain ⟨hk, hi, hc, hp, _, hb⟩ := hc
    simp [Stmt.written, Slot.Inner, Slot.wants, hk, Stmt.inner_first inFunction initializer hi,
      Expr.inner_after each_nil hc, Expr.inner_after each_nil hp, body.inner inFunction hb]
  | .variableDecl name initializer constant, hc => by
    have he : Each Slot.Inner [.kind .equal] := by simp [Slot.Inner, Slot.wants]
    cases constant <;> simp [Stmt.written, Slot.Inner, Slot.wants, hc.1, Expr.inner_after he hc.2.2]
  | .functionDecl name parameters body, hc => by
    obtain ⟨hk, hks, _, hb⟩ := hc
    have hp : Each Slot.Inner (Slot.separated (parameters.map fun t => [.token t])) :=
      (each_separated comma_inner).2 (by simp +contextual [Slot.Inner, Slot.wants, hks])
    simp [Stmt.written, Slot.Inner, Slot.wants, hk, hp, Stmt.inner_all true body hb]
  | .returnStmt keyword value, hc => by
    simp [Stmt.written, Slot.Inner, Slot.wants, hc.2.1, Expr.inner_after each_nil hc.2.2]

theorem Stmt.inner_else (inFunction : Bool) : (o : Option Stmt) →
    Stmt.BranchCanonical inFunction o → Each Slot.Inner (Stmt.writtenElse o)
  | none, _ => each_nil
  | some branch, hc => by
    simpa [Stmt.writtenElse, Slot.Inner, Slot.wants] using branch.inner inFunction hc.2

theorem Stmt.inner_first (inFunction : Bool) : (o : Option Stmt) →
    Stmt.FirstCanonical inFunction o → Each Slot.Inner (Stmt.writtenFirst o)
  | none, _ => by simp [Stmt.writtenFirst, Slot.Inner, Slot.wants]
  | some first, hc => first.inner inFunction hc.2

theorem Stmt.inner_all (inFunction : Bool) : (ss : List Stmt) →
    Stmt.AllCanonical inFunction ss → Each Slot.Inner (Stmt.writtenAll ss)
  | [], _ => each_nil
  | s :: ss, hc => by
    simpa [Stmt.writtenAll] using ⟨s.inner inFunction hc.1, Stmt.inner_all inFunction ss hc.2⟩

end

namespace Grammar

open Parse

theorem settle_eq_ok {α : Type} {r : Parse α} (hr : Forward r) {c : Cursor} (hc : c.errors = [])
    {x : α} : settle (r c) = .ok x ↔ ∃ rest, r c = .ok x { c with ahead := rest } := by
  cases h : r c with
  | error e d => simp [settle]
  | ok y d =>
    have hd := hr.ok h
    constructor
    · intro hs
      simp only [settle] at hs
      split at hs
      · rename_i he
        cases hs
        refine ⟨d.ahead, ?_⟩
        cases d
        cases hd.finish
        simp_all
      · cases hs
    · rintro ⟨rest, hok⟩
      cases hok
      simp [settle, hc]

def statementsWithin (room : Nat) : Parse Program :=
  upcoming >>= itemsUntil (· = .endOfInput) (Parse.declaration room false) skip

theorem exact_statementsWithin (room : Nat) :
    Exact Anywhere (statementsWithin room)
      (Shaped (fun p slots => (p.Canonical ∧ p.nesting ≤ room) ∧ slots = p.written)
        (fun _ rest => headKind rest = .endOfInput)) := by
  refine Exact.ahead fun ts => ?_
  have hitem := (exact_statement_declaration room false).2
  refine (((exact_itemsUntil (· = .endOfInput) hitem skip_suffix (by decide) ?_ ?_ ts).weaken
    (by rintro us ⟨_, rfl⟩; exact Nat.le_refl _)).congr ?_)
  · intro s slots hs us hf
    obtain ⟨t, more, rfl, helse, _, hend⟩ := item_opens hs hf
    exact ⟨t, more, rfl, by simp [hend], fun y rest => shut_of_head helse⟩
  · intro s rest hstop
    refine shut_of_head ?_
    simp only [decide_eq_true_eq] at hstop
    simp [hstop]
  · intro p read rest _
    simp only [Items, Shaped, rows_item_iff, decide_eq_true_eq]
    rfl

theorem statementsWithin_ok_iff (room : Nat) {c : Cursor} {p : Program}
    (hc : ∀ t ∈ c.ahead, t.kind ≠ .endOfInput) :
    (∃ rest, statementsWithin room c = .ok p { c with ahead := rest }) ↔
      p.Canonical ∧ p.nesting ≤ room ∧ Fits p.written c.ahead := by
  simp only [(exact_statementsWithin room).clean c p _ trivial]
  constructor
  · rintro ⟨rest, read, he, ⟨_, ⟨⟨hp, hn⟩, rfl⟩, hf⟩, hend⟩
    cases rest with
    | nil => exact ⟨hp, hn, by simpa [he] using hf⟩
    | cons t rest => exact absurd hend (hc t (by simp [he]))
  · rintro ⟨hp, hn, hf⟩
    exact ⟨[], c.ahead, by simp, ⟨_, ⟨⟨hp, hn⟩, rfl⟩, hf⟩, rfl⟩

theorem program_eq_ok_iff {tokens : List Token} {p : Program} :
    program tokens = .ok p ↔ p.Canonical ∧ p.nesting ≤ nestingLimit ∧
      Fits p.written (tokens.takeWhile (·.kind ≠ .endOfInput)) := by
  have hr := (exact_statementsWithin nestingLimit).forward
  have hc : ∀ t ∈ (Cursor.ofTokens tokens).ahead, t.kind ≠ .endOfInput := by
    intro t ht
    simpa using List.mem_takeWhile_imp ht
  exact (settle_eq_ok hr rfl).trans (statementsWithin_ok_iff _ hc)

theorem kind_ne_endOfInput {p : Program} (hp : p.Canonical) {tokens : List Token}
    (hf : Fits p.written tokens) : ∀ t ∈ tokens, t.kind ≠ .endOfInput :=
  hf.kind_ne (Stmt.inner_all false p hp)

theorem takeWhile_written {p : Program} (hp : p.Canonical) {tokens : List Token}
    (hf : Fits p.written tokens) {finish : Token} (hend : finish.kind = .endOfInput)
    (more : List Token) :
    (tokens ++ finish :: more).takeWhile (·.kind ≠ .endOfInput) = tokens := by
  rw [List.takeWhile_append_of_pos (by simpa using kind_ne_endOfInput hp hf)]
  simp [hend]

/-- The grammar is unambiguous, whatever the nesting. -/
theorem written_inj {p q : Program} (hp : p.Canonical) (hq : q.Canonical) {tokens : List Token}
    (hfp : Fits p.written tokens) (hfq : Fits q.written tokens) : p = q := by
  -- with room for both, one run gives both
  have reads := fun r => statementsWithin_ok_iff (max p.nesting q.nesting)
    (c := ⟨tokens, .finish .first, []⟩) (p := r) (kind_ne_endOfInput hp hfp)
  obtain ⟨_, h⟩ := (reads p).2 ⟨hp, Nat.le_max_left _ _, hfp⟩
  obtain ⟨_, k⟩ := (reads q).2 ⟨hq, Nat.le_max_right _ _, hfq⟩
  rw [h] at k
  cases k
  rfl

/-- What is read as a program is written back with the tokens before the first end of input, and is
canonical. -/
theorem written_of_program {tokens : List Token} {p : Program} (h : program tokens = .ok p) :
    Fits p.written (tokens.takeWhile (·.kind ≠ .endOfInput)) ∧ p.Canonical := by
  obtain ⟨hp, _, hf⟩ := program_eq_ok_iff.1 h
  exact ⟨hf, hp⟩

/-- Subtraction associates to the left, and the tokens behind an end of input do not count. -/
theorem written_of_subtraction :
    let t := fun kind lexeme => (⟨kind, lexeme, none, .first⟩ : Token)
    let tokens := [t .printWord "print", t .identifier "a", t .minus "-", t .identifier "b",
      t .minus "-", t .identifier "c", t .semicolon ";", t .endOfInput "", t .minus "-"]
    let p := [Stmt.print (t .printWord "print") (.binary (.binary (.identifier (t .identifier "a"))
      (t .minus "-") (.identifier (t .identifier "b"))) (t .minus "-")
      (.identifier (t .identifier "c")))]
    program tokens = .ok p ∧ Fits (Program.written p) (tokens.take 7) ∧ Program.Canonical p := by
  intro t tokens p
  have h : program tokens = .ok p := rfl
  exact ⟨h, written_of_program h⟩

/-- Every canonical program within the limit is read from its tokens, nothing else is, and no token
list has two canonical trees. -/
theorem program_accepts_grammar :
    (∀ (p : Program) (tokens : List Token) (finish : Token) (more : List Token),
      p.Canonical → p.nesting ≤ nestingLimit → Fits p.written tokens →
        finish.kind = .endOfInput → program (tokens ++ finish :: more) = .ok p) ∧
    (∀ (tokens : List Token) (p : Program), program tokens = .ok p ↔
      p.Canonical ∧ p.nesting ≤ nestingLimit ∧
        Fits p.written (tokens.takeWhile (·.kind ≠ .endOfInput))) ∧
    (∀ (p q : Program) (tokens : List Token), p.Canonical → q.Canonical →
      Fits p.written tokens → Fits q.written tokens → p = q) := by
  refine ⟨?_, fun _ _ => program_eq_ok_iff, fun _ _ _ hp hq hfp hfq => written_inj hp hq hfp hfq⟩
  intro p tokens finish more hp hn hf hend
  refine program_eq_ok_iff.2 ⟨hp, hn, ?_⟩
  rwa [takeWhile_written hp hf hend more]

/-- An `else` behind two conditionals is read as part of the inner one. -/
theorem program_accepts_nearest_else :
    let t := fun kind lexeme => (⟨kind, lexeme, none, .first⟩ : Token)
    let a := Expr.identifier (t .identifier "a")
    let print := Stmt.print (t .printWord "print") a
    let p := [Stmt.conditional a (.conditional a print (some print)) none]
    let tokens := [t .ifWord "if", t .leftParen "(", t .identifier "a", t .rightParen ")",
      t .ifWord "if", t .leftParen "(", t .identifier "a", t .rightParen ")",
      t .printWord "print", t .identifier "a", t .semicolon ";", t .elseWord "else",
      t .printWord "print", t .identifier "a", t .semicolon ";"]
    Program.Canonical p ∧ Program.nesting p ≤ nestingLimit ∧ Fits (Program.written p) tokens ∧
      program (tokens ++ [t .endOfInput ""]) = .ok p := by
  intro t a print p tokens
  have hp : Program.Canonical p := by
    simp [p, a, print, t, Program.Canonical, Stmt.AllCanonical, Stmt.Canonical, Expr.Canonical,
      Stmt.BranchCanonical, Stmt.IsDeclaration, Stmt.EndsOpen]
  have hn : Program.nesting p ≤ nestingLimit := by decide
  have hf : Fits (Program.written p) tokens := by decide
  exact ⟨hp, hn, hf, program_accepts_grammar.1 p tokens _ [] hp hn hf rfl⟩

end Grammar

end Scriptlet
