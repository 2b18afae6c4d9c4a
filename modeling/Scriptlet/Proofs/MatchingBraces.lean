import Scriptlet.Proofs.Contracts
import Scriptlet.Proofs.ProgramReading

/-!
Matching braces. `behindBraces` finds the brace that closes the last open level by counting. Every
statement of the grammar is written with each of its braces closed, so a block that is read without
an error ends behind its own closing brace.
-/

namespace Scriptlet

namespace Descent

/-- The tokens behind the brace that closes the last open level. -/
def behindBraces : Nat → List Token → Option (List Token)
  | 0, ts => some ts
  | _ + 1, [] => none
  | levels + 1, t :: ts => behindBraces (levelsBehind t.kind (levels + 1)) ts

theorem levelsBehind_add {kind : Kind} {levels : Nat} (h : 0 < levels) (extra : Nat) :
    levelsBehind kind (levels + extra) = levelsBehind kind levels + extra := by
  unfold levelsBehind
  split <;> omega

theorem behindBraces_cons {levels : Nat} (h : 0 < levels) (t : Token) (ts : List Token) :
    behindBraces levels (t :: ts) = behindBraces (levelsBehind t.kind levels) ts := by
  cases levels with
  | zero => omega
  | succ levels => rfl

theorem length_of_behindBraces {levels : Nat} {ts rest : List Token}
    (h : behindBraces levels ts = some rest) (hlevels : 0 < levels) : rest.length < ts.length := by
  induction ts generalizing levels with
  | nil =>
    cases levels with
    | zero => omega
    | succ levels => cases h
  | cons t ts ih =>
    cases levels with
    | zero => omega
    | succ levels =>
      rw [behindBraces] at h
      by_cases hleft : 0 < levelsBehind t.kind (levels + 1)
      · have hshorter := ih h hleft
        rw [List.length_cons]
        omega
      · rw [Nat.eq_zero_of_not_pos hleft, behindBraces] at h
        cases h
        exact Nat.lt_succ_self _

theorem eq_iff_of_behindBraces {levels : Nat} {ts rest : List Token}
    (h : behindBraces levels ts = some rest) : ts = rest ↔ levels = 0 := by
  constructor
  · intro heq
    by_contra hlevels
    have hshorter := length_of_behindBraces h (Nat.pos_of_ne_zero hlevels)
    rw [heq] at hshorter
    exact absurd hshorter (lt_irrefl _)
  · intro hlevels
    rw [hlevels, behindBraces] at h
    exact Option.some.inj h

theorem exists_cons_of_behindBraces {levels : Nat} {ts rest : List Token}
    (h : behindBraces levels ts = some rest) (hlevels : 0 < levels) : ∃ t ts', ts = t :: ts' := by
  have hlength := length_of_behindBraces h hlevels
  cases ts with
  | nil => cases hlength
  | cons t ts' => exact ⟨t, ts', rfl⟩

end Descent

open Descent

/-- Whether tokens that fit the slots close every level that they open, and no other. -/
def Balanced (slots : List Slot) : Prop :=
  ∀ tokens rest levels, Fits slots tokens → 0 < levels →
    behindBraces levels (tokens ++ rest) = behindBraces levels rest

section Balanced

variable {slot : Slot} {slots more : List Slot}

theorem balanced_nil : Balanced [] := by
  intro tokens rest levels hfits _
  rw [fits_nil.1 hfits, List.nil_append]

theorem Balanced.append (h : Balanced slots) (k : Balanced more) : Balanced (slots ++ more) := by
  intro tokens rest levels hfits hlevels
  obtain ⟨first, second, rfl, hfirst, hsecond⟩ := fits_append.1 hfits
  rw [List.append_assoc, h first _ levels hfirst hlevels, k second _ levels hsecond hlevels]

theorem Balanced.cons (h : Balanced slots) (hslot : slot.Plain) : Balanced (slot :: slots) := by
  intro tokens rest levels hfits hlevels
  have hkind : noBrace slot.wants = true := by simp [noBrace, hslot.2]
  obtain ⟨t, tokens, rfl, ht, hfits⟩ := fits_cons.1 hfits
  rw [List.cons_append, behindBraces_cons hlevels, ht.kind_eq, levelsBehind_of_noBrace hkind,
    h tokens _ levels hfits hlevels]

theorem balanced_of_each (h : Each Slot.Plain slots) : Balanced slots := by
  induction slots with
  | nil => exact balanced_nil
  | cons slot slots ih =>
    rw [each_cons] at h
    exact (ih h.2).cons h.1

theorem Balanced.braced (h : Balanced slots) :
    Balanced (.kind .leftBrace :: slots ++ [.kind .rightBrace]) := by
  intro tokens rest levels hfits hlevels
  obtain ⟨t, tokens, rfl, ht, hfits⟩ := fits_cons.1 hfits
  obtain ⟨inner, last, rfl, hinner, hlast⟩ := fits_append.1 hfits
  obtain ⟨u, rfl, hu⟩ := fits_singleton.1 hlast
  have hopened : levelsBehind t.kind levels = levels + 1 := by rw [ht.kind_eq]; rfl
  have hclosed : levelsBehind u.kind (levels + 1) = levels := by rw [hu.kind_eq]; rfl
  rw [List.cons_append, behindBraces_cons hlevels, hopened, List.append_assoc,
    h inner _ _ hinner (Nat.succ_pos levels), List.singleton_append,
    behindBraces_cons (Nat.succ_pos levels), hclosed]

end Balanced

instance (slot : Slot) : Decidable slot.Plain := inferInstanceAs (Decidable (_ ∧ _ ∧ _))

theorem plain_token {t : Token} {kind : Kind} (ht : t.kind = kind) (h : Slot.Plain (.kind kind)) :
    Slot.Plain (.token t) := by
  subst ht
  exact h

theorem Expr.balanced {e : Expr} (hc : e.Canonical) : Balanced e.written :=
  balanced_of_each (e.plain hc)

theorem Expr.balanced_after {before : List Slot} (hb : Balanced before) {o : Option Expr}
    (hc : Expr.CanonicalIfAny o) : Balanced (Expr.writtenAfter before o) := by
  cases o with
  | none => exact balanced_nil
  | some e => exact hb.append (Expr.balanced (hc e rfl))

theorem balanced_parameters {parameters : List Token}
    (h : ∀ t ∈ parameters, t.kind = .identifier) :
    Balanced (Slot.separated (parameters.map fun t => [.token t])) := by
  refine balanced_of_each ((each_separated comma_plain).2 ?_)
  simp +contextual [Slot.Plain, Slot.wants, h]

theorem balanced_semicolon : Balanced [.kind .semicolon] :=
  balanced_nil.cons (by decide)

mutual

theorem Stmt.balanced (inFunction : Bool) : (s : Stmt) → s.Canonical inFunction →
    Balanced s.written
  | .expression value, hc => (Expr.balanced hc).append balanced_semicolon
  | .print keyword value, hc =>
    ((Expr.balanced hc.2).cons (plain_token hc.1 (by decide))).append balanced_semicolon
  | .block body, hc => (Stmt.balanced_all inFunction body hc).braced
  | .conditional condition thenBranch elseBranch, hc => by
    obtain ⟨hc, _, ht, _, he⟩ := hc
    exact ((((Expr.balanced hc).cons (by decide)).cons (by decide)).append
      ((thenBranch.balanced inFunction ht).cons (by decide))).append
        (Stmt.balanced_else inFunction elseBranch he)
  | .whileLoop keyword condition body, hc => by
    obtain ⟨hk, hc, _, hb⟩ := hc
    exact (((Expr.balanced hc).cons (by decide)).cons (plain_token hk (by decide))).append
      ((body.balanced inFunction hb).cons (by decide))
  | .forLoop keyword initializer condition increment body, hc => by
    obtain ⟨hk, hi, hc, hp, _, hb⟩ := hc
    exact (((((Stmt.balanced_first inFunction initializer hi).cons (by decide)).cons
      (plain_token hk (by decide))).append (Expr.balanced_after balanced_nil hc)).append
        ((Expr.balanced_after balanced_nil hp).cons (by decide))).append
          ((body.balanced inFunction hb).cons (by decide))
  | .variableDecl name initializer constant, hc => by
    have hinitializer : Balanced (Expr.writtenAfter [.kind .equal] initializer) :=
      Expr.balanced_after (balanced_nil.cons (by decide)) hc.2.2
    exact ((hinitializer.cons (plain_token hc.1 (by decide))).cons
      (by cases constant <;> decide)).append balanced_semicolon
  | .functionDecl name parameters body, hc => by
    obtain ⟨hk, hks, _, hb⟩ := hc
    rw [Stmt.written, List.append_assoc]
    exact ((((balanced_parameters hks).cons (by decide)).cons (plain_token hk (by decide))).cons
      (by decide)).append ((Stmt.balanced_all true body hb).braced.cons (by decide))
  | .returnStmt keyword value, hc =>
    ((Expr.balanced_after balanced_nil hc.2.2).cons (plain_token hc.2.1 (by decide))).append
      balanced_semicolon

theorem Stmt.balanced_else (inFunction : Bool) : (o : Option Stmt) →
    Stmt.BranchCanonical inFunction o → Balanced (Stmt.writtenElse o)
  | none, _ => balanced_nil
  | some branch, hc => (branch.balanced inFunction hc.2).cons (by decide)

theorem Stmt.balanced_first (inFunction : Bool) : (o : Option Stmt) →
    Stmt.FirstCanonical inFunction o → Balanced (Stmt.writtenFirst o)
  | none, _ => balanced_semicolon
  | some first, hc => first.balanced inFunction hc.2

theorem Stmt.balanced_all (inFunction : Bool) : (ss : List Stmt) →
    Stmt.AllCanonical inFunction ss → Balanced (Stmt.writtenAll ss)
  | [], _ => balanced_nil
  | s :: ss, hc => (s.balanced inFunction hc.1).append (Stmt.balanced_all inFunction ss hc.2)

end

/-- A block that is read without an error ends behind its own brace. -/
theorem Parse.behindBraces_of_block {room : Nat} {inFunction : Bool} {c d : Cursor}
    {body : List Stmt} (h : Parse.block (Parse.declaration room inFunction) c = .ok body d)
    (herrors : d.errors = c.errors) : behindBraces 1 c.ahead = some d.ahead := by
  have hexact := Parse.exact_block (Parse.exact_statement_declaration room inFunction).2
  obtain ⟨ahead, finish, errors⟩ := d
  obtain rfl : finish = c.finish := (hexact.forward.ok h).finish
  obtain rfl : errors = c.errors := herrors
  obtain ⟨read, hread, ⟨slots, ⟨⟨hbody, -⟩, rfl⟩, hfits⟩, -⟩ := (hexact.clean c body _ trivial).1 h
  obtain ⟨first, last, rfl, hfirst, hlast⟩ := fits_append.1 hfits
  obtain ⟨t, rfl, ht⟩ := fits_singleton.1 hlast
  have hclosed : levelsBehind t.kind 1 = 0 := by rw [ht.kind_eq]; rfl
  have hbalanced :=
    Stmt.balanced_all inFunction body hbody first ([t] ++ ahead) 1 hfirst Nat.one_pos
  rw [hread, List.append_assoc, hbalanced, List.singleton_append, behindBraces_cons Nat.one_pos,
    hclosed, behindBraces]

end Scriptlet
