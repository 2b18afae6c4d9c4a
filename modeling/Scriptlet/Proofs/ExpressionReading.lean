import Scriptlet.Proofs.ExactReading

/-!
The routines for expressions read exactly the canonical expressions. An operator or a call is read
by a loop that extends what stands to its left, so a tree of one level is taken apart into the chain
of its extensions. What may follow depends only on how tightly the expression binds.
-/

namespace Scriptlet

namespace Kind

def startsPrimary : Kind → Bool
  | .leftParen | .identifier | .string | .number | .falseWord | .nilWord | .trueWord => true
  | _ => false

def isUnary (kind : Kind) : Bool := kind = .bang || kind = .minus

def startsExpression (kind : Kind) : Bool := kind.startsPrimary || kind.isUnary

/-- Whether a token of this kind carries on an expression that binds at least as `low` says. -/
def continues (low : Nat) (kind : Kind) : Bool :=
  (decide (low ≤ 8) && decide (kind = .leftParen)) ||
    (Level.ofKind? kind).any (fun level => decide (low ≤ level.rank)) ||
    (decide (low = 0) && decide (kind = .equal))

theorem continues_level (level : Level) (kind : Kind) :
    continues level.rank kind = (continues (level.rank + 1) kind || level.hasOperator kind) := by
  cases level <;> cases kind <;> decide

theorem continues_call (kind : Kind) :
    continues 8 kind = (continues 9 kind || decide (kind = .leftParen)) := by
  cases kind <;> decide

theorem continues_whole (kind : Kind) :
    continues 0 kind = (continues 1 kind || decide (kind = .equal)) := by
  cases kind <;> decide

theorem continues_unary (kind : Kind) : continues 7 kind = continues 8 kind := by
  cases kind <;> decide

theorem not_continues_operator {level : Level} {kind : Kind} (h : level.hasOperator kind = true) :
    continues (level.rank + 1) kind = false := by
  revert h
  cases level <;> cases kind <;> decide

end Kind

open Parse

theorem not_next_or {a b c : Kind → Bool} (h : ∀ kind, a kind = (b kind || c kind))
    {rest : List Token} : ¬ Next a rest ↔ ¬ Next b rest ∧ ¬ Next c rest := by
  cases rest with
  | nil => simp [Next]
  | cons t rest => simp [Next, h]

namespace Constant

theorem ofToken?_starts {t : Token} {value : Constant} (h : ofToken? t = some value) :
    t.kind.startsPrimary = true := by
  unfold ofToken? at h
  split at h <;> simp_all [Kind.startsPrimary]

end Constant

namespace Expr

theorem rank_node {level : Level} {operator : Token} (h : level.hasOperator operator.kind = true)
    (left right : Expr) : (level.node left operator right).rank = level.rank := by
  cases level <;> simp [Level.node, rank, Level.rankOf_eq h]

theorem written_node (level : Level) (left : Expr) (operator : Token) (right : Expr) :
    (level.node left operator right).written =
      left.written ++ .token operator :: right.written := by
  cases level <;> simp [Level.node, written]

theorem nesting_node (level : Level) (left : Expr) (operator : Token) (right : Expr) :
    (level.node left operator right).nesting = max left.nesting right.nesting := by
  cases level <;> simp [Level.node, nesting]

theorem canonical_node {level : Level} {operator : Token}
    (h : level.hasOperator operator.kind = true) (left right : Expr) :
    (level.node left operator right).Canonical ↔
      level.rank ≤ left.rank ∧ level.rank < right.rank ∧ left.Canonical ∧ right.Canonical := by
  have key : ∀ logical : Bool, (∃ other : Level, other.isLogical = logical ∧
      other.Joins operator left.rank right.rank) ↔
      level.isLogical = logical ∧ level.rank ≤ left.rank ∧ level.rank < right.rank := by
    intro logical
    constructor
    · rintro ⟨other, hl, ho, hr⟩
      obtain rfl : other = level :=
        Option.some.inj ((Level.ofKind?_eq_some.2 ho).symm.trans (Level.ofKind?_eq_some.2 h))
      exact ⟨hl, hr⟩
    · rintro ⟨hl, hr⟩
      exact ⟨level, hl, h, hr⟩
  cases level <;> simp only [Level.node, Canonical, key] <;> simp [Level.isLogical, and_assoc]

theorem eq_node_of_rank {level : Level} {e : Expr} (hc : e.Canonical) (hr : e.rank = level.rank) :
    ∃ left operator right, e = level.node left operator right ∧
      level.hasOperator operator.kind = true := by
  have rank_inj : ∀ a b : Level, a.rank = b.rank → a = b := by
    intro a b
    cases a <;> cases b <;> decide
  cases e with
  | binary left operator right =>
    obtain ⟨⟨other, hl, hj⟩, -, -⟩ := hc
    obtain rfl := rank_inj _ _ ((Level.rankOf_eq hj.1).symm.trans hr)
    refine ⟨left, operator, right, ?_, hj.1⟩
    cases other <;> simp_all [Level.node, Level.isLogical]
  | logical left operator right =>
    obtain ⟨⟨other, hl, hj⟩, -, -⟩ := hc
    obtain rfl := rank_inj _ _ ((Level.rankOf_eq hj.1).symm.trans hr)
    refine ⟨left, operator, right, ?_, hj.1⟩
    cases other <;> simp_all [Level.node, Level.isLogical]
  | _ => cases level <;> simp [rank, Level.rank] at hr

theorem one_le_rank {e : Expr} (hc : e.Canonical) (ha : ∀ name value, e ≠ .assignment name value) :
    1 ≤ e.rank := by
  cases e with
  | binary left operator right =>
    obtain ⟨⟨level, -, hj⟩, -, -⟩ := hc
    rw [rank, Level.rankOf_eq hj.1]
    cases level <;> decide
  | logical left operator right =>
    obtain ⟨⟨level, -, hj⟩, -, -⟩ := hc
    rw [rank, Level.rankOf_eq hj.1]
    cases level <;> decide
  | assignment name value => exact absurd rfl (ha name value)
  | _ => simp [rank]

theorem starts_rank (e : Expr) (hc : e.Canonical) (ts : List Token) (hf : Fits e.written ts) :
    ∃ t rest, ts = t :: rest ∧
      (t.kind.startsPrimary = true ∨ e.rank ≤ 7 ∧ t.kind.isUnary = true) := by
  match e, hc with
  | .literal value, _ =>
    obtain ⟨t, rfl, ht⟩ := fits_singleton.1 hf
    exact ⟨t, [], rfl, .inl (Constant.ofToken?_starts ht)⟩
  | .identifier name, hc =>
    obtain ⟨t, rfl, rfl⟩ := fits_singleton.1 hf
    exact ⟨t, [], rfl, .inl (by rw [show t.kind = _ from hc]; rfl)⟩
  | .grouping inner, _ =>
    obtain ⟨t, rest, rfl, ht, _⟩ := fits_cons.1 hf
    exact ⟨t, rest, rfl, .inl (by rw [show t.kind = _ from ht]; rfl)⟩
  | .unary operator operand, hc =>
    obtain ⟨t, rest, rfl, rfl, _⟩ := fits_cons.1 hf
    exact ⟨t, rest, rfl, .inr ⟨by simp [rank], by simpa [Kind.isUnary] using hc.1⟩⟩
  | .binary left operator right, hc =>
    obtain ⟨first, second, rfl, hl, _⟩ := fits_append.1 hf
    obtain ⟨t, rest, rfl, ht⟩ := starts_rank left hc.2.1 first hl
    exact ⟨t, rest ++ second, rfl,
      ht.imp_right fun h => ⟨Nat.le_succ_of_le (Level.rankOf_le operator), h.2⟩⟩
  | .logical left operator right, hc =>
    obtain ⟨first, second, rfl, hl, _⟩ := fits_append.1 hf
    obtain ⟨t, rest, rfl, ht⟩ := starts_rank left hc.2.1 first hl
    exact ⟨t, rest ++ second, rfl,
      ht.imp_right fun h => ⟨Nat.le_succ_of_le (Level.rankOf_le operator), h.2⟩⟩
  | .assignment name value, hc =>
    obtain ⟨t, rest, rfl, rfl, _⟩ := fits_cons.1 hf
    exact ⟨t, rest, rfl, .inl (by rw [show t.kind = _ from hc.1]; rfl)⟩
  | .call callee paren arguments, hc =>
    simp only [written, List.append_assoc] at hf
    obtain ⟨first, second, rfl, hl, _⟩ := fits_append.1 hf
    obtain ⟨t, rest, rfl, ht⟩ := starts_rank callee hc.2.1 first hl
    have hr := hc.1
    exact ⟨t, rest ++ second, rfl, ht.imp_right fun h => by omega⟩

theorem starts {e : Expr} (hc : e.Canonical) {ts : List Token} (hf : Fits e.written ts) :
    ∃ t rest, ts = t :: rest ∧ t.kind.startsExpression = true := by
  obtain ⟨t, rest, rfl, ht⟩ := starts_rank e hc ts hf
  refine ⟨t, rest, rfl, ?_⟩
  rcases ht with ht | ⟨_, ht⟩ <;> simp [Kind.startsExpression, ht]

end Expr

namespace Parse

/-- A canonical expression that binds at least as `low` says and opens fewer than `room` levels. -/
def Operand (low room : Nat) (e : Expr) (slots : List Slot) : Prop :=
  (e.Canonical ∧ low ≤ e.rank ∧ e.nesting < room) ∧ slots = e.written

/-- No token is left that would carry on an expression. -/
def Ended (low : Nat) (rest : List Token) : Prop := ¬ Next (Kind.continues low) rest

def ReadsExpr (low room : Nat) : Reading Expr := Shaped (Operand low room) fun _ => Ended low

theorem readsExpr_iff {low room : Nat} {e : Expr} {read rest : List Token} :
    ReadsExpr low room e read rest ↔
      (e.Canonical ∧ low ≤ e.rank ∧ e.nesting < room) ∧ Fits e.written read ∧ Ended low rest := by
  constructor
  · rintro ⟨⟨_, ⟨he, rfl⟩, hf⟩, hS⟩
    exact ⟨he, hf, hS⟩
  · rintro ⟨he, hf, hS⟩
    exact ⟨⟨_, ⟨he, rfl⟩, hf⟩, hS⟩

/-- How one expression is extended to another by the tokens read in between. -/
abbrev Extension := Expr → Expr → List Token → List Token → Prop

/-- Extensions in a row. -/
inductive Links (step : Extension) : Extension where
  | refl (e : Expr) (rest : List Token) : Links step e e [] rest
  | cons {a b c : Expr} {first second rest : List Token} :
      step a b first (second ++ rest) → Links step b c second rest →
      Links step a c (first ++ second) rest

theorem Links.snoc {step : Extension} {a b c : Expr} {first second rest : List Token}
    (h : Links step a b first (second ++ rest)) (k : step b c second rest) :
    Links step a c (first ++ second) rest := by
  generalize he : second ++ rest = follow at h
  induction h with
  | refl e _ =>
    have hstep : step e c second ([] ++ rest) := k
    simpa using Links.cons hstep (.refl c rest)
  | cons hstep _ ih =>
    subst he
    rw [List.append_assoc]
    exact .cons (by simpa using hstep) (ih k rfl)

/-- Expressions of rank `low` are those that `step` makes of expressions of that rank or a higher
one, and `kinds` are the kinds of token with which a step begins. -/
structure LeftRecursive (low room : Nat) (kinds : Kind → Bool) (step : Extension) : Prop where
  continues : ∀ kind, Kind.continues low kind = (Kind.continues (low + 1) kind || kinds kind)
  grow : ∀ {a b : Expr} {first second rest : List Token}, step a b second rest →
    (a.Canonical ∧ low ≤ a.rank ∧ a.nesting < room) → Fits a.written first →
    (b.Canonical ∧ low ≤ b.rank ∧ b.nesting < room) ∧ Fits b.written (first ++ second) ∧
      Ended (low + 1) rest
  peel : ∀ {b : Expr} {read : List Token}, (b.Canonical ∧ b.rank = low ∧ b.nesting < room) →
    Fits b.written read → ∃ a first second, read = first ++ second ∧ sizeOf a < sizeOf b ∧
      (a.Canonical ∧ low ≤ a.rank ∧ a.nesting < room) ∧ Fits a.written first ∧
      ∀ rest, Ended (low + 1) rest → step a b second rest ∧ Ended (low + 1) (second ++ rest)

namespace LeftRecursive

variable {low room : Nat} {kinds : Kind → Bool} {step : Extension}

theorem ended_iff (h : LeftRecursive low room kinds step) {rest : List Token} :
    Ended low rest ↔ Ended (low + 1) rest ∧ ¬ Next kinds rest := not_next_or h.continues

theorem reads_of_links (h : LeftRecursive low room kinds step) {a e : Expr}
    {first second rest : List Token} (hl : Links step a e second rest)
    (ha : a.Canonical ∧ low ≤ a.rank ∧ a.nesting < room) (hf : Fits a.written first)
    (hn : Ended (low + 1) (second ++ rest)) (hk : ¬ Next kinds rest) :
    ReadsExpr low room e (first ++ second) rest := by
  induction hl generalizing first with
  | refl e rest =>
    rw [List.append_nil]
    exact readsExpr_iff.2 ⟨ha, hf, h.ended_iff.2 ⟨hn, hk⟩⟩
  | @cons a b c second third rest hstep _ ih =>
    obtain ⟨hb, hfb, hnb⟩ := h.grow hstep ha hf
    rw [← List.append_assoc]
    exact ih hb hfb hnb hk

theorem links_of_fits (h : LeftRecursive low room kinds step) (e : Expr)
    {read rest : List Token} (he : e.Canonical ∧ low ≤ e.rank ∧ e.nesting < room)
    (hf : Fits e.written read) (hn : Ended (low + 1) rest) :
    ∃ a first second, read = first ++ second ∧ ReadsExpr (low + 1) room a first (second ++ rest) ∧
      Links step a e second rest := by
  -- the leftmost operand is reached by peeling off one extension after the other
  induction hs : sizeOf e using Nat.strongRecOn generalizing e read rest with
  | ind n ih =>
    by_cases hr : e.rank = low
    · obtain ⟨b, first, last, rfl, hlt, hb, hfb, hstep⟩ := h.peel ⟨he.1, hr, he.2.2⟩ hf
      obtain ⟨hstep, hn'⟩ := hstep rest hn
      obtain ⟨a, first, second, rfl, ha, hl⟩ := ih _ (hs ▸ hlt) b hb hfb hn' rfl
      refine ⟨a, first, second ++ last, by simp, by simpa using ha, hl.snoc hstep⟩
    · refine ⟨e, read, [], by simp, ?_, .refl e rest⟩
      exact readsExpr_iff.2 ⟨⟨he.1, by omega, he.2.2⟩, hf, hn⟩

/-- A loop that reads extensions reads exactly the expressions of its rank or a higher one. -/
theorem reads_iff (h : LeftRecursive low room kinds step) {e : Expr} {read rest : List Token} :
    (∃ a first second, read = first ++ second ∧ ReadsExpr (low + 1) room a first (second ++ rest) ∧
      Links step a e second rest ∧ ¬ Next kinds rest) ↔ ReadsExpr low room e read rest := by
  constructor
  · rintro ⟨a, first, second, rfl, ha, hl, hk⟩
    obtain ⟨⟨hc, hr, hd⟩, hf, hn⟩ := readsExpr_iff.1 ha
    exact h.reads_of_links hl ⟨hc, by omega, hd⟩ hf hn hk
  · intro he
    obtain ⟨he, hf, hn⟩ := readsExpr_iff.1 he
    obtain ⟨hn, hk⟩ := h.ended_iff.1 hn
    obtain ⟨a, first, second, rfl, ha, hl⟩ := h.links_of_fits e he hf hn
    exact ⟨a, first, second, rfl, ha, hl, hk⟩

end LeftRecursive

def Begun (kinds : Kind → Bool) (part : Token → Extension) : Extension := fun a b read rest =>
  ∃ t more, read = t :: more ∧ kinds t.kind = true ∧ part t a b more rest

/-- The extensions that a loop makes of `left` before it ends. -/
def Chain (kinds : Kind → Bool) (part : Token → Extension) (left : Expr) : Reading Expr :=
  fun e read rest => Links (Begun kinds part) left e read rest ∧ ¬ Next kinds rest

theorem exact_round {limit : Nat} {kinds : Kind → Bool} {part : Token → Extension} {left : Expr}
    {more : Token → Parse Expr}
    (h : ∀ t, Exact (·.length ≤ limit) (more t)
      (Then (fun b read rest => part t left b read rest) (Chain kinds part))) :
    Exact (·.length ≤ limit + 1)
      (accept kinds >>= fun o => match o with
        | some t => more t
        | none => pure left)
      (Chain kinds part left) := by
  refine ((exact_accept (p := (·.length ≤ limit + 1)) kinds).bind
    (m := fun o ts => o.isSome = true → ts.length ≤ limit)
    (Q := fun o e read rest => match o with
      | some t => Then (fun b read rest => part t left b read rest) (Chain kinds part) e read rest
      | none => e = left ∧ read = []) ?_ ?_).congr ?_
  · rintro (_ | t)
    · exact exact_pure left
    · exact (h t).weaken (by simp)
  · rintro (_ | t) first rest hlen ho
    · simp
    · obtain ⟨rfl, -⟩ := ho
      simpa using hlen
  · intro e read rest _
    constructor
    · rintro ⟨_ | t, first, second, rfl, ho, hQ⟩
      · obtain ⟨rfl, hn⟩ := ho
        obtain ⟨rfl, rfl⟩ := hQ
        exact ⟨.refl e rest, hn⟩
      · obtain ⟨rfl, hk⟩ := ho
        obtain ⟨b, second, third, rfl, hp, hl, hn⟩ := hQ
        refine ⟨?_, hn⟩
        have hb : Begun kinds part left b (t :: second) (third ++ rest) := ⟨t, second, rfl, hk, hp⟩
        simpa using Links.cons hb hl
    · rintro ⟨hl, hn⟩
      cases hl with
      | refl => exact ⟨none, [], [], rfl, ⟨rfl, hn⟩, rfl, rfl⟩
      | cons hstep hl =>
        obtain ⟨t, second, rfl, hk, hp⟩ := hstep
        exact ⟨some t, [t], _, by simp, ⟨rfl, hk⟩, _, second, _, rfl, hp, hl, hn⟩

theorem exact_loop_end {kinds : Kind → Bool} {part : Token → Extension} (left : Expr) :
    Exact (·.length ≤ 0) (pure left) (Chain kinds part left) := by
  refine (exact_pure left).congr ?_
  intro e read rest hlen
  obtain ⟨rfl, rfl⟩ : read = [] ∧ rest = [] := by simpa using hlen
  constructor
  · rintro ⟨rfl, _⟩
    exact ⟨.refl e [], by simp [Next]⟩
  · rintro ⟨hl, _⟩
    generalize hr : ([] : List Token) = read at hl
    cases hl with
    | refl => exact ⟨rfl, rfl⟩
    | cons hstep _ =>
      obtain ⟨t, more, rfl, _⟩ := hstep
      cases hr

section Operators

variable {room : Nat} {operand : Parse Expr}

def OperatorPart (level : Level) (room : Nat) (operator : Token) : Extension :=
  fun a b read rest => ∃ right, b = level.node a operator right ∧
    ReadsExpr (level.rank + 1) room right read rest

theorem exact_operatorChain (level : Level)
    (h : Exact Anywhere operand (ReadsExpr (level.rank + 1) room)) (rounds : List Token)
    (left : Expr) :
    Exact (·.length ≤ rounds.length) (operatorChain level operand rounds left)
      (Chain level.hasOperator (OperatorPart level room) left) := by
  induction rounds generalizing left with
  | nil => exact exact_loop_end left
  | cons t rounds ih =>
    unfold operatorChain
    refine exact_round fun operator => ?_
    refine ((h.weaken (p := (·.length ≤ rounds.length)) fun _ _ => trivial).bind
      (m := fun _ => (·.length ≤ rounds.length))
      (fun right => ih (level.node left operator right)) ?_).congr ?_
    · intro right first rest hlen _
      simp only [List.length_append] at hlen
      omega
    · intro e read rest _
      constructor
      · rintro ⟨right, first, second, rfl, hr, hc⟩
        exact ⟨_, first, second, rfl, ⟨right, rfl, hr⟩, hc⟩
      · rintro ⟨_, first, second, rfl, ⟨right, rfl, hr⟩, hc⟩
        exact ⟨right, first, second, rfl, hr, hc⟩

theorem leftRecursive_operator (level : Level) (room : Nat) :
    LeftRecursive level.rank room level.hasOperator
      (Begun level.hasOperator (OperatorPart level room)) where
  continues := Kind.continues_level level
  grow := by
    rintro a b first second rest ⟨operator, more, rfl, hk, right, rfl, hr⟩ ⟨hc, hrank, hn⟩ hf
    obtain ⟨⟨hc', hrank', hn'⟩, hf', hend⟩ := readsExpr_iff.1 hr
    refine ⟨⟨(Expr.canonical_node hk a right).2 ⟨hrank, hrank', hc, hc'⟩, ?_, ?_⟩, ?_, hend⟩
    · exact Nat.le_of_eq (Expr.rank_node hk a right).symm
    · rw [Expr.nesting_node]
      omega
    · rw [Expr.written_node]
      exact fits_append.2 ⟨first, operator :: more, rfl, hf,
        fits_cons.2 ⟨operator, more, rfl, rfl, hf'⟩⟩
  peel := by
    rintro b read ⟨hc, hrank, hn⟩ hf
    obtain ⟨left, operator, right, rfl, hk⟩ := Expr.eq_node_of_rank hc hrank
    obtain ⟨hl, hr, hcl, hcr⟩ := (Expr.canonical_node hk left right).1 hc
    rw [Expr.nesting_node] at hn
    rw [Expr.written_node] at hf
    obtain ⟨first, _, rfl, hfl, hf⟩ := fits_append.1 hf
    obtain ⟨t, second, rfl, rfl, hfr⟩ := fits_cons.1 hf
    refine ⟨left, first, t :: second, rfl, ?_, ⟨hcl, hl, by omega⟩, hfl, ?_⟩
    · cases level <;> simp [Level.node] <;> omega
    · intro rest hend
      refine ⟨⟨t, second, rfl, hk, right, rfl, ?_⟩, ?_⟩
      · exact readsExpr_iff.2 ⟨⟨hcr, hr, by omega⟩, hfr, hend⟩
      · simp [Ended, Next, Kind.not_continues_operator hk]

theorem exact_operators_cons (level : Level) {tighter : List Level}
    (h : Exact Anywhere (operators operand tighter) (ReadsExpr (level.rank + 1) room)) :
    Exact Anywhere (operators operand (level :: tighter)) (ReadsExpr level.rank room) := by
  have hloop : Exact Anywhere
      (operators operand tighter >>= fun left =>
        upcoming >>= fun ts => operatorChain level (operators operand tighter) ts left)
      (Then (ReadsExpr (level.rank + 1) room)
        (Chain level.hasOperator (OperatorPart level room))) := by
    refine h.andThen fun left => Exact.ahead fun ts => ?_
    exact (exact_operatorChain level h ts left).weaken (by rintro us ⟨_, rfl⟩; exact Nat.le_refl _)
  exact hloop.congr fun e read rest _ => (leftRecursive_operator level room).reads_iff

theorem exact_operators (h : Exact Anywhere operand (ReadsExpr 7 room)) :
    Exact Anywhere (operators operand Level.all) (ReadsExpr 1 room) := by
  have base : Exact Anywhere (operators operand []) (ReadsExpr (Level.rank .factor + 1) room) := h
  have factor := exact_operators_cons .factor base
  have term := exact_operators_cons .term factor
  have comparison := exact_operators_cons .comparison term
  have equality := exact_operators_cons .equality comparison
  have conjunction := exact_operators_cons .conjunction equality
  exact exact_operators_cons .disjunction conjunction

end Operators

theorem ended_of_fits {low : Nat} (kind : Kind) {slot : Slot} {slots : List Slot}
    {read rest : List Token} (h : Kind.continues low kind = false)
    (hf : Fits (slot :: slots) read) (hs : ∀ t, slot.Holds t → t.kind = kind) :
    Ended low (read ++ rest) := by
  obtain ⟨t, more, rfl, ht, _⟩ := fits_cons.1 hf
  simp [Ended, Next, hs t ht, h]

section Calls

variable {room : Nat} {whole : Parse Expr}

theorem exact_grouping (h : Exact Anywhere whole (ReadsExpr 0 room)) :
    Exact Anywhere
      (whole >>= fun inner =>
        discard (expect .rightParen .groupEnd) >>= fun _ => pure (Expr.grouping inner))
      (Shaped (fun e slots => ∃ inner, e = .grouping inner ∧
        (inner.Canonical ∧ inner.nesting < room) ∧ slots = inner.written ++ [.kind .rightParen])
        Unlimited) := by
  refine (h.seq (T := Unlimited)
    (fun inner => (exact_expect _ _).forget.result (fun _ => Expr.grouping inner) (by simp))
    ?_).reshape ?_
  · rintro inner e slots read rest ⟨_, _, rfl⟩ hf _
    exact ended_of_fits .rightParen (by decide) hf fun _ h => h
  · intro e slots
    constructor
    · rintro ⟨inner, _, _, rfl, ⟨⟨hc, _, hn⟩, rfl⟩, _, rfl, rfl⟩
      exact ⟨inner, rfl, ⟨hc, hn⟩, rfl⟩
    · rintro ⟨inner, rfl, ⟨hc, hn⟩, rfl⟩
      exact ⟨inner, _, _, rfl, ⟨⟨hc, Nat.zero_le _, hn⟩, rfl⟩, (), rfl, rfl⟩

theorem operand_primary_iff {e : Expr} {slots : List Slot} :
    Operand 9 (room + 1) e slots ↔
      (∃ value, e = .literal value ∧ slots = [.constant value]) ∨
      (∃ name, e = .identifier name ∧ name.kind = .identifier ∧ slots = [.token name]) ∨
      ∃ inner, e = .grouping inner ∧ (inner.Canonical ∧ inner.nesting < room) ∧
        slots = .kind .leftParen :: (inner.written ++ [.kind .rightParen]) := by
  constructor
  · rintro ⟨⟨hc, hr, hn⟩, rfl⟩
    cases e with
    | literal value => exact .inl ⟨value, rfl, rfl⟩
    | identifier name => exact .inr (.inl ⟨name, rfl, hc, rfl⟩)
    | grouping inner =>
      exact .inr (.inr ⟨inner, rfl, ⟨hc, by simpa [Expr.nesting] using hn⟩, rfl⟩)
    | binary left operator right => exact absurd (Nat.le_trans hr (Level.rankOf_le _)) (by decide)
    | logical left operator right => exact absurd (Nat.le_trans hr (Level.rankOf_le _)) (by decide)
    | _ => simp [Expr.rank] at hr
  · rintro (⟨value, rfl, rfl⟩ | ⟨name, rfl, hk, rfl⟩ | ⟨inner, rfl, ⟨hc, hn⟩, rfl⟩)
    · exact ⟨⟨trivial, by simp [Expr.rank], by simp [Expr.nesting]⟩, rfl⟩
    · exact ⟨⟨hk, by simp [Expr.rank], by simp [Expr.nesting]⟩, rfl⟩
    · exact ⟨⟨hc, by simp [Expr.rank], by simpa [Expr.nesting] using hn⟩, rfl⟩

theorem ended_primary (rest : List Token) : Ended 9 rest := by
  cases rest with
  | nil => simp [Ended, Next]
  | cons t rest =>
    have h : ∀ kind, Kind.continues 9 kind = false := by
      intro kind
      cases kind <;> decide
    simp [Ended, Next, h]

theorem readsExpr_primary_iff {e : Expr} {t : Token} {tail rest : List Token} :
    (∃ read, t :: tail = read ++ rest ∧ ReadsExpr 9 (room + 1) e read rest) ↔
      (∃ value, Constant.ofToken? t = some value ∧ e = .literal value ∧ tail = rest) ∨
      (t.kind = .identifier ∧ e = .identifier t ∧ tail = rest) ∨
      (t.kind = .leftParen ∧ ∃ read, tail = read ++ rest ∧
        Shaped (fun e slots => ∃ inner, e = .grouping inner ∧
          (inner.Canonical ∧ inner.nesting < room) ∧ slots = inner.written ++ [.kind .rightParen])
          Unlimited e read rest) := by
  constructor
  · rintro ⟨read, he, ⟨slots, ho, hf⟩, _⟩
    rcases operand_primary_iff.1 ho with
      ⟨value, rfl, rfl⟩ | ⟨name, rfl, hk, rfl⟩ | ⟨inner, rfl, hi, rfl⟩
    · obtain ⟨u, rfl, hu⟩ := fits_singleton.1 hf
      cases he
      exact .inl ⟨value, hu, rfl, rfl⟩
    · obtain ⟨u, rfl, rfl⟩ := fits_singleton.1 hf
      cases he
      exact .inr (.inl ⟨hk, rfl, rfl⟩)
    · obtain ⟨u, more, rfl, hu, hmore⟩ := fits_cons.1 hf
      cases he
      exact .inr (.inr ⟨hu, more, rfl, ⟨_, ⟨inner, rfl, hi, rfl⟩, hmore⟩, trivial⟩)
  · rintro (⟨value, hv, rfl, rfl⟩ | ⟨hk, rfl, rfl⟩ |
      ⟨hk, read, rfl, ⟨_, ⟨inner, rfl, hi, rfl⟩, hf⟩, _⟩)
    · exact ⟨[t], rfl, ⟨_, operand_primary_iff.2 (.inl ⟨value, rfl, rfl⟩),
        fits_singleton.2 ⟨t, rfl, hv⟩⟩, ended_primary _⟩
    · exact ⟨[t], rfl, ⟨_, operand_primary_iff.2 (.inr (.inl ⟨t, rfl, hk, rfl⟩)),
        fits_singleton.2 ⟨t, rfl, rfl⟩⟩, ended_primary _⟩
    · exact ⟨t :: read, rfl, ⟨_, operand_primary_iff.2 (.inr (.inr ⟨inner, rfl, hi, rfl⟩)),
        fits_cons.2 ⟨t, read, rfl, hk, hf⟩⟩, ended_primary _⟩

theorem ofToken?_eq_none {t : Token} (h : t.kind = .identifier ∨ t.kind = .leftParen) :
    Constant.ofToken? t = none := by
  rcases h with h | h <;> simp [Constant.ofToken?, h]

theorem exact_primary (h : Exact Anywhere whole (ReadsExpr 0 room)) :
    Exact Anywhere (primary whole) (ReadsExpr 9 (room + 1)) where
  forward := by
    rintro ⟨ahead, finish, errors⟩
    cases ahead with
    | nil => exact .refl _
    | cons t tail =>
      have read : Cursor.Reaches ⟨t :: tail, finish, errors⟩ ⟨tail, finish, errors⟩ :=
        .read (List.suffix_cons _ _)
      have deeper := read.trans ((exact_grouping h).forward ⟨tail, finish, errors⟩)
      unfold left at deeper ⊢
      unfold primary
      simp only
      cases Constant.ofToken? t with
      | some value => exact read
      | none =>
        cases t.kind with
        | identifier => exact read
        | leftParen => exact deeper
        | _ => exact .refl _
  clean := by
    rintro ⟨ahead, finish, errors⟩ e rest -
    cases ahead with
    | nil =>
      constructor
      · intro he
        cases he
      · rintro ⟨read, he, hr⟩
        obtain ⟨⟨hc, _⟩, hf, _⟩ := readsExpr_iff.1 hr
        obtain ⟨t, more, rfl, _⟩ := Expr.starts hc hf
        cases he
    | cons t tail =>
      have inner := (exact_grouping h).clean ⟨tail, finish, errors⟩ e rest trivial
      refine Iff.trans ?_ readsExpr_primary_iff.symm
      unfold primary
      simp only
      cases hv : Constant.ofToken? t with
      | some value =>
        have hk : t.kind ≠ .identifier ∧ t.kind ≠ .leftParen := by
          constructor <;> intro hk <;> simp [ofToken?_eq_none, hk] at hv
        simp [hk, eq_comm]
      | none =>
        cases hk : t.kind with
        | identifier => simp [eq_comm]
        | leftParen => simpa using inner
        | _ => simp [fail]

theorem forall₂_operand_iff {low : Nat} {es : List Expr} {rows : List (List Slot)} :
    List.Forall₂ (Operand low room) es rows ↔
      (∀ e ∈ es, e.Canonical ∧ low ≤ e.rank ∧ e.nesting < room) ∧ rows = es.map Expr.written := by
  induction es generalizing rows with
  | nil => simp
  | cons e es ih =>
    rw [List.forall₂_cons_left_iff]
    constructor
    · rintro ⟨_, rows, ⟨he, rfl⟩, hes, rfl⟩
      obtain ⟨hall, rfl⟩ := ih.1 hes
      exact ⟨by simpa using ⟨he, hall⟩, rfl⟩
    · rintro ⟨h, rfl⟩
      exact ⟨_, _, ⟨h e (by simp), rfl⟩, ih.2 ⟨fun x hx => h x (by simp [hx]), rfl⟩, rfl⟩

def Arguments (room : Nat) (x : List Expr × Token) (slots : List Slot) : Prop :=
  (x.1.length ≤ listLimit ∧ (∀ e ∈ x.1, e.Canonical ∧ e.nesting < room)) ∧
    x.2.kind = .rightParen ∧ slots = Slot.separated (x.1.map Expr.written) ++ [.token x.2]

theorem exact_arguments (h : Exact Anywhere whole (ReadsExpr 0 room)) :
    Exact Anywhere
      (listed .tooManyArguments whole >>= fun arguments =>
        expect .rightParen .argumentsEnd >>= fun paren => pure (arguments, paren))
      (Shaped (Arguments room) Unlimited) := by
  have hlist := exact_listed .tooManyArguments h
    (by
      rintro e _ ⟨⟨hc, _⟩, rfl⟩ ts hf
      obtain ⟨t, rest, rfl, ht⟩ := Expr.starts hc hf
      refine ⟨?_, by simp⟩
      intro hk
      rw [show t.kind = .rightParen from hk] at ht
      cases ht)
    (by
      intro t rest hk
      simp [Ended, Next, hk, show Kind.continues 0 .comma = false by decide])
  refine (hlist.seq (T := Unlimited)
    (fun arguments => (exact_expect _ _).result (fun paren => (arguments, paren)) (by simp))
    ?_).reshape ?_
  · rintro arguments _ _ read rest ⟨paren, rfl, hk, rfl⟩ hf _
    obtain ⟨u, rfl, rfl⟩ := fits_singleton.1 hf
    by_cases he : arguments = []
    · simpa [he, headKind] using hk
    · simp [he, Ended, Next, hk, show Kind.continues 0 .rightParen = false by decide]
  · rintro ⟨arguments, paren⟩ slots
    constructor
    · rintro ⟨_, _, _, rfl, ⟨hlen, rows, hrows, rfl⟩, _, he, hk, rfl⟩
      cases he
      obtain ⟨hes, rfl⟩ := forall₂_operand_iff.1 hrows
      exact ⟨⟨hlen, fun e hm => ⟨(hes e hm).1, (hes e hm).2.2⟩⟩, hk, rfl⟩
    · rintro ⟨⟨hlen, hes⟩, hk, rfl⟩
      refine ⟨arguments, _, _, rfl, ⟨hlen, _, ?_, rfl⟩, paren, rfl, hk, rfl⟩
      exact forall₂_operand_iff.2 ⟨fun e hm => ⟨(hes e hm).1, Nat.zero_le _, (hes e hm).2⟩, rfl⟩

/-- The rest of an extension by a call: its arguments and the closing parenthesis. -/
def CallPart (room : Nat) (_ : Token) : Extension := fun a b read rest =>
  ∃ x : List Expr × Token, b = .call a x.2 x.1 ∧ Shaped (Arguments room) Unlimited x read rest

theorem exact_callChain (h : Exact Anywhere whole (ReadsExpr 0 room)) (rounds : List Token)
    (callee : Expr) :
    Exact (·.length ≤ rounds.length) (callChain whole rounds callee)
      (Chain (· = .leftParen) (CallPart room) callee) := by
  induction rounds generalizing callee with
  | nil => exact exact_loop_end callee
  | cons t rounds ih =>
    unfold callChain
    refine exact_round fun operator => ?_
    have hpair : (do
        let arguments ← listed .tooManyArguments whole
        let paren ← expect .rightParen .argumentsEnd
        callChain whole rounds (.call callee paren arguments)) =
        (listed .tooManyArguments whole >>= fun arguments =>
          expect .rightParen .argumentsEnd >>= fun paren => pure (arguments, paren)) >>= fun x =>
          callChain whole rounds (.call callee x.2 x.1) := by
      simp
    rw [hpair]
    refine (((exact_arguments h).weaken (p := (·.length ≤ rounds.length)) fun _ _ => trivial).bind
      (m := fun _ => (·.length ≤ rounds.length))
      (fun x => ih (.call callee x.2 x.1)) ?_).congr ?_
    · intro right first rest hlen _
      simp only [List.length_append] at hlen
      omega
    · intro e read rest _
      constructor
      · rintro ⟨x, first, second, rfl, hr, hc⟩
        exact ⟨_, first, second, rfl, ⟨x, rfl, hr⟩, hc⟩
      · rintro ⟨_, first, second, rfl, ⟨x, rfl, hr⟩, hc⟩
        exact ⟨x, first, second, rfl, hr, hc⟩

theorem nestingAll_lt {es : List Expr} :
    Expr.nestingAll es < room + 1 ↔ ∀ e ∈ es, e.nesting < room := by
  induction es with
  | nil => simp [Expr.nestingAll]
  | cons e es ih =>
    rw [Expr.nestingAll, Nat.max_lt, ih]
    simp

theorem eq_call_of_rank {e : Expr} (hr : e.rank = 8) :
    ∃ callee paren arguments, e = .call callee paren arguments := by
  cases e with
  | call callee paren arguments => exact ⟨callee, paren, arguments, rfl⟩
  | binary left operator right => exact absurd (hr ▸ Level.rankOf_le operator : 8 ≤ 6) (by decide)
  | logical left operator right => exact absurd (hr ▸ Level.rankOf_le operator : 8 ≤ 6) (by decide)
  | _ => simp [Expr.rank] at hr

theorem leftRecursive_call (room : Nat) :
    LeftRecursive 8 (room + 1) (· = .leftParen) (Begun (· = .leftParen) (CallPart room)) where
  continues := Kind.continues_call
  grow := by
    rintro a b first _ rest
      ⟨t, more, rfl, hk, ⟨arguments, paren⟩, rfl, ⟨_, hx, hfx⟩, _⟩ ⟨hc, hr, hn⟩ hf
    obtain ⟨⟨hlen, hes⟩, hp, rfl⟩ := hx
    refine ⟨⟨⟨hr, hc, hp, hlen, ?_⟩, by simp [Expr.rank], ?_⟩, ?_, ended_primary _⟩
    · exact Expr.allCanonical_iff.2 fun e hm => (hes e hm).1
    · exact Nat.max_lt.2 ⟨hn, nestingAll_lt.2 fun e hm => (hes e hm).2⟩
    · rw [Expr.written, List.append_assoc, Expr.writtenEach_eq_map]
      exact fits_append.2 ⟨first, t :: more, rfl, hf,
        fits_cons.2 ⟨t, more, rfl, by simpa using hk, hfx⟩⟩
  peel := by
    rintro b read ⟨hc, hr, hn⟩ hf
    obtain ⟨callee, paren, arguments, rfl⟩ := eq_call_of_rank hr
    obtain ⟨hr, hcallee, hp, hlen, hes⟩ := hc
    obtain ⟨hn, hns⟩ := Nat.max_lt.1 hn
    rw [Expr.written, List.append_assoc, Expr.writtenEach_eq_map] at hf
    obtain ⟨first, _, rfl, hfc, hf⟩ := fits_append.1 hf
    obtain ⟨t, second, rfl, hk, hfx⟩ := fits_cons.1 hf
    refine ⟨callee, first, t :: second, rfl, by simp; omega, ⟨hcallee, hr, hn⟩, hfc, ?_⟩
    intro rest _
    refine ⟨⟨t, second, rfl, by simpa using hk, (arguments, paren), rfl, ⟨_, ?_, hfx⟩, trivial⟩,
      ended_primary _⟩
    exact ⟨⟨hlen, fun e hm => ⟨Expr.allCanonical_iff.1 hes e hm, nestingAll_lt.1 hns e hm⟩⟩, hp,
      rfl⟩

theorem exact_call (h : Exact Anywhere whole (ReadsExpr 0 room)) :
    Exact Anywhere (call whole) (ReadsExpr 8 (room + 1)) := by
  have hloop : Exact Anywhere (call whole)
      (Then (ReadsExpr 9 (room + 1)) (Chain (· = .leftParen) (CallPart room))) := by
    refine (exact_primary h).andThen fun callee => Exact.ahead fun ts => ?_
    exact (exact_callChain h ts callee).weaken (by rintro us ⟨_, rfl⟩; exact Nat.le_refl _)
  exact hloop.congr fun e read rest _ => (leftRecursive_call room).reads_iff

variable {deeper tighter : Parse Expr}

theorem call_or_unary {e : Expr} (hr : 7 ≤ e.rank) :
    8 ≤ e.rank ∨ ∃ operator operand, e = .unary operator operand := by
  cases e with
  | unary operator operand => exact .inr ⟨operator, operand, rfl⟩
  | binary left operator right => exact absurd (Nat.le_trans hr (Level.rankOf_le _)) (by decide)
  | logical left operator right => exact absurd (Nat.le_trans hr (Level.rankOf_le _)) (by decide)
  | _ => simp [Expr.rank] at hr ⊢

theorem ended_unary_iff {rest : List Token} : Ended 7 rest ↔ Ended 8 rest := by
  rw [Ended, Ended, show Kind.continues 7 = Kind.continues 8 from funext Kind.continues_unary]

theorem exact_unaryOver (hd : Exact Anywhere deeper (ReadsExpr 7 room))
    (hw : Exact Anywhere whole (ReadsExpr 0 room)) :
    Exact Anywhere (unaryOver deeper whole) (ReadsExpr 7 (room + 1)) := by
  unfold unaryOver
  refine ((exact_accept (p := Anywhere) Kind.isUnary).andThen
    (Q := fun o => match o with
      | some operator => Then (ReadsExpr 7 room)
          (fun operand e read _ => e = Expr.unary operator operand ∧ read = [])
      | none => ReadsExpr 8 (room + 1)) ?_).congr ?_
  · rintro (_ | operator)
    · exact exact_call hw
    · exact hd.andThen fun operand => exact_pure (Expr.unary operator operand)
  · intro e read rest _
    constructor
    · rintro ⟨_ | operator, first, second, rfl, ho, he⟩
      · obtain ⟨rfl, _⟩ := ho
        obtain ⟨⟨hc, hr, hn⟩, hf, hend⟩ := readsExpr_iff.1 he
        exact readsExpr_iff.2 ⟨⟨hc, by omega, hn⟩, hf, ended_unary_iff.2 hend⟩
      · obtain ⟨rfl, hk⟩ := ho
        obtain ⟨operand, second, _, rfl, hr, rfl, rfl⟩ := he
        obtain ⟨⟨hc, hr, hn⟩, hf, hend⟩ := readsExpr_iff.1 hr
        refine readsExpr_iff.2
          ⟨⟨⟨by simpa [Kind.isUnary] using hk, hr, hc⟩, by simp [Expr.rank], ?_⟩,
          ?_, hend⟩
        · simpa [Expr.nesting] using hn
        · exact fits_cons.2 ⟨operator, second, by simp, rfl, hf⟩
    · intro he
      obtain ⟨⟨hc, hr, hn⟩, hf, hend⟩ := readsExpr_iff.1 he
      rcases call_or_unary hr with hr | ⟨operator, operand, rfl⟩
      · refine ⟨none, [], read, rfl, ⟨rfl, ?_⟩,
          readsExpr_iff.2 ⟨⟨hc, hr, hn⟩, hf, ended_unary_iff.1 hend⟩⟩
        obtain ⟨t, more, rfl, ht | ht⟩ := Expr.starts_rank e hc read hf
        · revert ht
          simp only [Next, List.cons_append]
          cases t.kind <;> decide
        · omega
      · obtain ⟨t, more, rfl, rfl, hmore⟩ := fits_cons.1 hf
        refine ⟨some t, [t], more, rfl, ⟨rfl, by simpa [Kind.isUnary] using hc.1⟩,
          operand, more, [], by simp, ?_, rfl, rfl⟩
        exact readsExpr_iff.2 ⟨⟨hc.2.2, hc.2.1, by simpa [Expr.nesting] using hn⟩, hmore, hend⟩

/-- What may come after the left side: nothing more, or a value if the left side is a name. -/
def Assigned (room : Nat) (target : Expr) : Reading Expr := fun e read rest =>
  (e = target ∧ read = [] ∧ ¬ Next (· = .equal) rest) ∨
    ∃ equals more name value, read = equals :: more ∧ equals.kind = .equal ∧
      target = .identifier name ∧ e = .assignment name value ∧ ReadsExpr 0 room value more rest

theorem exact_assigned (hw : Exact Anywhere whole (ReadsExpr 0 room)) (target : Expr) :
    Exact Anywhere
      (accept (· = .equal) >>= fun o => match o with
        | none => pure target
        | some equals => whole >>= fun value => match target with
          | .identifier name => pure (.assignment name value)
          | _ => record ⟨.invalidTarget, equals⟩ >>= fun _ => pure target)
      (Assigned room target) := by
  refine ((exact_accept (· = .equal)).andThen
    (Q := fun o e read rest => match o with
      | none => e = target ∧ read = []
      | some _ => Then (ReadsExpr 0 room) (fun value e read _ =>
          ∃ name, target = .identifier name ∧ e = .assignment name value ∧ read = []) e read rest)
    ?_).congr ?_
  · rintro (_ | equals)
    · exact exact_pure target
    · refine hw.andThen fun value => ?_
      cases target with
      | identifier name => exact (exact_pure (Expr.assignment name value)).congr (by simp)
      | _ => exact ((exact_record _).andThen fun _ => exact_pure _).congr (by simp [Then])
  · intro e read rest _
    constructor
    · rintro ⟨_ | equals, first, second, rfl, ⟨rfl, ho⟩, he⟩
      · obtain ⟨rfl, rfl⟩ := he
        exact .inl ⟨rfl, rfl, ho⟩
      · obtain ⟨value, more, _, rfl, hv, name, rfl, rfl, rfl⟩ := he
        exact .inr ⟨equals, more, name, value, by simp, by simpa using ho, rfl, rfl,
          by simpa using hv⟩
    · rintro (⟨rfl, rfl, hn⟩ | ⟨equals, more, name, value, rfl, hk, rfl, rfl, hv⟩)
      · exact ⟨none, [], [], rfl, ⟨rfl, hn⟩, rfl, rfl⟩
      · exact ⟨some equals, [equals], more, rfl, ⟨rfl, by simpa using hk⟩,
          value, more, [], by simp, by simpa using hv, name, rfl, rfl, rfl⟩

theorem exact_assignment (hw : Exact Anywhere whole (ReadsExpr 0 room))
    (ht : Exact Anywhere tighter (ReadsExpr 1 (room + 1))) :
    Exact Anywhere (assignment whole tighter) (ReadsExpr 0 (room + 1)) := by
  refine (ht.andThen (exact_assigned hw)).congr ?_
  intro e read rest _
  constructor
  · rintro ⟨target, first, second, rfl, htarget, he⟩
    obtain ⟨⟨hc, _, hd⟩, hf, hend⟩ := readsExpr_iff.1 htarget
    rcases he with ⟨rfl, rfl, hn⟩ | ⟨equals, more, name, value, rfl, hk, rfl, rfl, hv⟩
    · refine readsExpr_iff.2 ⟨⟨hc, Nat.zero_le _, hd⟩, by simpa using hf, ?_⟩
      exact (not_next_or Kind.continues_whole).2 ⟨hend, hn⟩
    · obtain ⟨⟨hcv, _, hdv⟩, hfv, hend⟩ := readsExpr_iff.1 hv
      obtain ⟨t, rfl, rfl⟩ := fits_singleton.1 hf
      refine readsExpr_iff.2
        ⟨⟨⟨hc, hcv⟩, Nat.zero_le _, by simpa [Expr.nesting] using hdv⟩, ?_, hend⟩
      exact fits_cons.2 ⟨t, _, rfl, rfl, fits_cons.2 ⟨equals, _, rfl, hk, hfv⟩⟩
  · intro he
    obtain ⟨⟨hc, _, hd⟩, hf, hend⟩ := readsExpr_iff.1 he
    by_cases ha : ∃ name value, e = .assignment name value
    · obtain ⟨name, value, rfl⟩ := ha
      obtain ⟨t, _, rfl, rfl, hmore⟩ := fits_cons.1 hf
      obtain ⟨equals, more, rfl, hk, hfv⟩ := fits_cons.1 hmore
      refine ⟨.identifier t, [t], equals :: more, rfl, ?_,
        .inr ⟨equals, more, t, value, rfl, hk, rfl, rfl, ?_⟩⟩
      · refine readsExpr_iff.2 ⟨⟨hc.1, by simp [Expr.rank], by simp [Expr.nesting]⟩,
          fits_singleton.2 ⟨t, rfl, rfl⟩, ?_⟩
        exact ended_of_fits .equal (by decide) hmore fun _ h => h
      · exact readsExpr_iff.2 ⟨⟨hc.2, Nat.zero_le _, by simpa [Expr.nesting] using hd⟩, hfv, hend⟩
    · obtain ⟨hend, hn⟩ := (not_next_or Kind.continues_whole).1 hend
      have hr := Expr.one_le_rank hc fun name value h => ha ⟨name, value, h⟩
      exact ⟨e, read, [], by simp, readsExpr_iff.2 ⟨⟨hc, hr, hd⟩, hf, hend⟩, .inl ⟨rfl, rfl, hn⟩⟩

end Calls

theorem readsExpr_zero (low : Nat) : ReadsExpr low 0 = fun _ _ _ => False := by
  funext e read rest
  simp [readsExpr_iff]

/-- Whole expressions, and operands of unary operators: each cycle of the grammar opens a level. -/
theorem exact_expression_unary (room : Nat) :
    Exact Anywhere (expression room) (ReadsExpr 0 room) ∧
      Exact Anywhere (unary room) (ReadsExpr 7 (room + 1)) := by
  induction room with
  | zero =>
    have whole : Exact Anywhere (expression 0) (ReadsExpr 0 0) := by
      rw [readsExpr_zero]
      exact exact_fail .tooMuchNesting
    have deeper : Exact Anywhere (fail .tooMuchNesting) (ReadsExpr 7 0) := by
      rw [readsExpr_zero]
      exact exact_fail .tooMuchNesting
    exact ⟨whole, unary_zero ▸ exact_unaryOver deeper whole⟩
  | succ room ih =>
    obtain ⟨whole, deeper⟩ := ih
    have next : Exact Anywhere (expression (room + 1)) (ReadsExpr 0 (room + 1)) :=
      expression_succ room ▸ exact_assignment whole (exact_operators deeper)
    exact ⟨next, unary_succ room ▸ exact_unaryOver deeper next⟩

theorem exact_expression (room : Nat) : Exact Anywhere (expression room) (ReadsExpr 0 room) :=
  (exact_expression_unary room).1

end Parse

end Scriptlet
