import Scriptlet.Proofs.ParseSteps

/-!
Reading makes progress. Every routine only goes forward, and a declaration that is read takes at
least one token. A declaration that fails may have taken none, but then skipping drops one. So each
round of a loop over declarations brings the end of the input nearer.
-/

namespace Scriptlet

namespace Parse

variable {α β : Type}

theorem accept_cases (wanted : Kind → Bool) (c : Cursor) :
    ((∀ t ∈ c.ahead.head?, wanted t.kind = false) ∧ accept wanted c = .ok none c) ∨
      ∃ t rest, c.ahead = t :: rest ∧ wanted t.kind = true ∧
        accept wanted c = .ok (some t) { c with ahead := rest } := by
  cases hc : c.ahead with
  | nil => exact .inl ⟨by simp, by simp [accept, hc]⟩
  | cons t rest =>
    by_cases hw : wanted t.kind = true
    · exact .inr ⟨t, rest, rfl, hw, by simp [accept, hc, hw]⟩
    · exact .inl ⟨by simpa using hw, by simp [accept, hc, hw]⟩

theorem forward_recovering {item : Parse α} (h : Forward item)
    {skipping : List Token → List Token} (suffix : ∀ ts, skipping ts <:+ ts) :
    Forward (recovering item skipping) := by
  intro c
  unfold left recovering
  cases hr : item c with
  | ok x d => exact h.ok hr
  | error e d => exact ((h.error hr).trans (.record d e)).trans (.read (suffix d.ahead))

theorem Built.forward {held : List Token} {ready : Bool} {r : Parse α} (h : Built held r ready) :
    Forward r := by
  induction h with
  | pure x => exact forward_pure x
  | fail complaint => exact forward_fail complaint
  | lookahead _ ih => exact forward_lookahead.bind ih
  | upcoming _ ih => exact forward_upcoming.bind ih
  | take _ ih => exact forward_take.bind ih
  | takeRecorded complaint _ ih =>
    exact forward_take.bind fun t => (forward_record _).bind fun _ => ih t
  | accept wanted _ _ ih ih' =>
    intro c
    rcases accept_cases wanted c with ⟨-, hnone⟩ | ⟨t, rest, hc, hwanted, hsome⟩
    · rw [left, bind_ok _ _ hnone]
      exact ih' c
    · rw [left, bind_ok _ _ hsome]
      exact (Cursor.Reaches.read (hc ▸ List.suffix_cons t rest)).trans (ih t hwanted _)
  | recordHere complaint _ ih => exact (forward_recordHere complaint).bind fun _ => ih
  | recordHeld _ _ _ ih => exact (forward_record _).bind fun _ => ih
  | recovering suffix _ _ ih ih' => exact (forward_recovering ih suffix).bind ih'

/-- Whether a routine takes at least one token where it succeeds. -/
def Advances (r : Parse α) : Prop :=
  ∀ (c : Cursor) (x : α) (d : Cursor), r c = .ok x d → d.ahead.length < c.ahead.length

theorem advances_fail (complaint : Complaint) : Advances (fail complaint : Parse α) := by
  intro c x d h
  cases h

theorem advances_expect (kind : Kind) (complaint : Complaint) :
    Advances (expect kind complaint) := by
  intro c t d h
  rcases accept_cases (· = kind) c with ⟨-, hnone⟩ | ⟨u, rest, hc, -, hsome⟩
  · rw [expect, bind_ok _ _ hnone] at h
    cases h
  · rw [expect, bind_ok _ _ hsome] at h
    cases h
    simp [hc]

theorem Advances.bind {r : Parse α} {f : α → Parse β} (hr : Advances r)
    (hf : ∀ x, Forward (f x)) : Advances (r >>= f) := by
  intro c y d h
  cases hc : r c with
  | error e c' =>
    rw [bind_error r f hc] at h
    cases h
  | ok x c' =>
    rw [bind_ok r f hc] at h
    have hfirst := hr c x c' hc
    have hrest := ((hf x).ok h).ahead.length_le
    omega

theorem Forward.advances {r : Parse α} {f : α → Parse β} (hr : Forward r)
    (hf : ∀ x, Advances (f x)) : Advances (r >>= f) := by
  intro c y d h
  cases hc : r c with
  | error e c' =>
    rw [bind_error r f hc] at h
    cases h
  | ok x c' =>
    rw [bind_ok r f hc] at h
    have hfirst := (hr.ok hc).ahead.length_le
    have hrest := hf x c' y d h
    omega

theorem Advances.map {r : Parse α} (hr : Advances r) (f : α → β) : Advances (f <$> r) := by
  rw [map_eq_bind]
  exact hr.bind fun x => forward_pure (f x)

theorem Forward.discard {r : Parse α} (hr : Forward r) : Forward (discard r) := by
  rw [discard_eq_bind]
  exact hr.bind fun _ => forward_pure ()

theorem advances_closing (kind : Kind) (complaint : Complaint) (x : α) :
    Advances (do discard (expect kind complaint); pure x) := by
  rw [discard_eq_bind, bind_assoc]
  exact (advances_expect kind complaint).bind fun _ => forward_pure x

theorem forward_expect (kind : Kind) (complaint : Complaint) : Forward (expect kind complaint) :=
  (built_expect kind complaint).forward

section Routines

variable {whole : Parse Expr} {body : Parse (List Stmt)} {branch item : Parse Stmt}

theorem advances_variableDecl (hw : Built [] whole) : Advances (variableDecl whole) := by
  unfold variableDecl
  refine forward_take.advances fun keyword => ?_
  refine (forward_expect _ _).advances fun name => ?_
  refine (forward_accept _).advances fun equals => ?_
  have hrest : ∀ initializer : Option Expr, Advances (do
      if decide (keyword.kind = .constWord) && initializer.isNone then recordHere .constantValue
      discard (expect .semicolon .declarationEnd)
      pure (Stmt.variableDecl name initializer (keyword.kind = .constWord))) := by
    intro initializer
    split
    · exact (forward_recordHere _).advances fun _ => advances_closing _ _ _
    · exact advances_closing _ _ _
  cases equals with
  | some _ => exact (hw.map some).forward.advances hrest
  | none => exact hrest none

theorem advances_functionDecl (hb : Advances body) : Advances (functionDecl body) := by
  unfold functionDecl
  refine forward_take.discard.advances fun _ => ?_
  refine (forward_expect _ _).advances fun name => ?_
  refine (forward_expect _ _).discard.advances fun _ => ?_
  refine (built_listed _ (built_expect _ _)).forward.advances fun parameters => ?_
  refine (forward_expect _ _).discard.advances fun _ => ?_
  refine (forward_expect _ _).discard.advances fun _ => ?_
  exact hb.bind fun _ => forward_pure _

theorem advances_block (hi : Built [] item) : Advances (block item) := by
  refine forward_upcoming.advances fun ts => ?_
  refine (built_itemsUntil _ hi skipInBlock_suffix ts).forward.advances fun items => ?_
  exact advances_closing _ _ _

theorem advances_expressionStmt (hw : Built [] whole) : Advances (expressionStmt whole) :=
  hw.forward.advances fun _ => advances_closing _ _ _

theorem advances_printStmt (hw : Built [] whole) : Advances (printStmt whole) :=
  forward_take.advances fun _ => hw.forward.advances fun _ => advances_closing _ _ _

theorem advances_returnStmt (inFunction : Bool) (hw : Built [] whole) :
    Advances (returnStmt inFunction whole) := by
  have hrest : ∀ keyword : Token, Advances (do
      let value ← optional .semicolon whole
      discard (expect .semicolon .returnEnd)
      pure (Stmt.returnStmt keyword value)) := fun keyword =>
    (built_optional _ hw).forward.advances fun _ => advances_closing _ _ _
  refine forward_take.advances fun keyword => ?_
  cases inFunction with
  | true => exact hrest keyword
  | false => exact (forward_record _).advances fun _ => hrest keyword

theorem advances_conditional (hw : Built [] whole) (hb : Built [] branch) (ha : Advances branch) :
    Advances (conditional whole branch) := by
  unfold conditional
  refine forward_take.discard.advances fun _ => ?_
  refine (forward_expect _ _).discard.advances fun _ => ?_
  refine hw.forward.advances fun condition => ?_
  refine (forward_expect _ _).discard.advances fun _ => ?_
  refine ha.bind fun thenBranch => (forward_accept _).bind fun o => ?_
  cases o with
  | some _ => exact hb.forward.bind fun _ => forward_pure _
  | none => exact forward_pure _

theorem advances_whileLoop (hw : Built [] whole) (hb : Advances branch) :
    Advances (whileLoop whole branch) := by
  unfold whileLoop
  refine forward_take.advances fun keyword => ?_
  refine (forward_expect _ _).discard.advances fun _ => ?_
  refine hw.forward.advances fun condition => ?_
  refine (forward_expect _ _).discard.advances fun _ => ?_
  exact hb.bind fun _ => forward_pure _

theorem advances_forLoop (hw : Built [] whole) (hb : Advances branch) :
    Advances (forLoop whole branch) := by
  unfold forLoop
  refine forward_take.advances fun keyword => ?_
  refine (forward_expect _ _).discard.advances fun _ => ?_
  refine (built_forInitializer hw).forward.advances fun initializer => ?_
  refine (built_optional _ hw).forward.advances fun condition => ?_
  refine (forward_expect _ _).discard.advances fun _ => ?_
  refine (built_optional _ hw).forward.advances fun increment => ?_
  refine (forward_expect _ _).discard.advances fun _ => ?_
  exact hb.bind fun _ => forward_pure _

theorem advances_statementOver (inFunction : Bool) (hw : Built [] whole) (hb : Built [] branch)
    (hi : Built [] item) (ha : Advances branch) :
    Advances (statementOver inFunction whole branch item) := by
  refine forward_lookahead.advances fun kind => ?_
  split
  · exact advances_conditional hw hb ha
  · exact advances_whileLoop hw ha
  · exact advances_forLoop hw ha
  · exact advances_returnStmt inFunction hw
  · exact advances_printStmt hw
  · exact forward_take.discard.advances fun _ => (advances_block hi).map Stmt.block
  · exact advances_expressionStmt hw

theorem advances_declarationOver (hw : Built [] whole) (hb : Advances body)
    (hs : Advances branch) : Advances (declarationOver whole body branch) := by
  refine forward_lookahead.advances fun kind => ?_
  split
  · exact advances_variableDecl hw
  · exact advances_variableDecl hw
  · exact advances_functionDecl hb
  · exact hs

end Routines

theorem advances_statement (room : Nat) (inFunction : Bool) :
    Advances (statement room inFunction) := by
  induction room with
  | zero => exact advances_fail _
  | succ room ih =>
    have hparts := built_statement_declaration room inFunction
    rw [statement_succ]
    exact advances_statementOver inFunction (built_expression room) hparts.1 hparts.2 ih

theorem advances_declaration (room : Nat) (inFunction : Bool) :
    Advances (declaration room inFunction) := by
  cases room with
  | zero =>
    exact advances_declarationOver (built_expression 0) (advances_fail _)
      (advances_statement 0 inFunction)
  | succ room =>
    have hitem := (built_statement_declaration room true).2
    rw [declaration_succ]
    exact advances_declarationOver (built_expression (room + 1)) (advances_block hitem)
      (advances_statement (room + 1) inFunction)

def RoundsAdvance (stop : Kind → Bool) (item : Parse α) (skipping : List Token → List Token) :
    Prop :=
  ∀ c : Cursor, stop c.kind = false →
    ((recovering item skipping).left c).ahead.length < c.ahead.length

/-- A failed item that took no token leaves the skipping to take one. -/
theorem roundsAdvance {stop : Kind → Bool} {item : Parse α} {skipping : List Token → List Token}
    (hitem : Advances item) (hforward : Forward item) (suffix : ∀ ts, skipping ts <:+ ts)
    (drops : ∀ c : Cursor, stop c.kind = false →
      (skipping c.ahead).length < c.ahead.length) : RoundsAdvance stop item skipping := by
  intro c hstop
  cases hr : item c with
  | ok x d =>
    have hleft : (recovering item skipping).left c = d := by simp [left, recovering, hr]
    rw [hleft]
    exact hitem c x d hr
  | error e d =>
    have hleft : ((recovering item skipping).left c).ahead = skipping d.ahead := by
      simp [left, recovering, hr]
    rw [hleft]
    have hd := (hforward.error hr).ahead
    -- Either the skipping starts where the item did, or the item took a token before it failed.
    by_cases heq : d.ahead = c.ahead
    · rw [heq]
      exact drops c hstop
    · have hle := (suffix d.ahead).length_le
      have hlt : d.ahead.length < c.ahead.length :=
        Nat.lt_of_le_of_ne hd.length_le fun h => heq (hd.eq_of_length h)
      omega

theorem length_skip {t : Token} {rest : List Token} :
    (skip (t :: rest)).length < (t :: rest).length :=
  Nat.lt_succ_of_le (skipFrom_suffix t rest).length_le

theorem length_skipInBlock {t : Token} {rest : List Token} (h : t.kind ≠ .rightBrace) :
    (skipInBlock (t :: rest)).length < (t :: rest).length := by
  have hle := (skipInBlock_suffix rest).length_le
  rw [skipInBlock, if_neg h, List.length_cons]
  split <;> omega

theorem rounds_advance_at_top (room : Nat) (inFunction : Bool) :
    RoundsAdvance (· = .endOfInput) (declaration room inFunction) skip := by
  have hbuilt := (built_statement_declaration room inFunction).2
  refine roundsAdvance (advances_declaration room inFunction) hbuilt.forward skip_suffix ?_
  intro c hstop
  cases hc : c.ahead with
  | nil => simp [Cursor.kind, hc] at hstop
  | cons t rest => exact length_skip

theorem rounds_advance_in_block (room : Nat) (inFunction : Bool) :
    RoundsAdvance (fun kind => kind = .rightBrace || kind = .endOfInput)
      (declaration room inFunction) skipInBlock := by
  have hbuilt := (built_statement_declaration room inFunction).2
  refine roundsAdvance (advances_declaration room inFunction) hbuilt.forward skipInBlock_suffix ?_
  intro c hstop
  cases hc : c.ahead with
  | nil => simp [Cursor.kind, hc] at hstop
  | cons t rest =>
    have hkind : t.kind ≠ .rightBrace := by
      intro h
      simp [Cursor.kind, hc, h] at hstop
    exact length_skipInBlock hkind

end Parse

end Scriptlet
