import Scriptlet.Proofs.Recasting

/-!
Tokens that fit a tree but for their places fit a tree that is the same but for its places. The
tree is rebuilt slot by slot, each stored token being taken from the list.
-/

namespace Scriptlet

theorem fits_unplaced_nil {tokens : List Token} :
    Fits [] (tokens.map Token.unplaced) ↔ tokens = [] := by
  simp

theorem fits_unplaced_cons {slot : Slot} {slots : List Slot} {tokens : List Token} :
    Fits (slot :: slots) (tokens.map Token.unplaced) ↔ ∃ t rest, tokens = t :: rest ∧
      slot.Holds t.unplaced ∧ Fits slots (rest.map Token.unplaced) := by
  cases tokens with
  | nil => simp [Fits]
  | cons t rest => simp [Fits]

theorem fits_unplaced_append {slots more : List Slot} {tokens : List Token} :
    Fits (slots ++ more) (tokens.map Token.unplaced) ↔
      ∃ first second, tokens = first ++ second ∧ Fits slots (first.map Token.unplaced) ∧
        Fits more (second.map Token.unplaced) := by
  rw [fits_append]
  constructor
  · rintro ⟨_, _, he, hf, hs⟩
    obtain ⟨first, second, rfl, rfl, rfl⟩ := List.map_eq_append_iff.1 he
    exact ⟨first, second, rfl, hf, hs⟩
  · rintro ⟨first, second, rfl, hf, hs⟩
    exact ⟨_, _, List.map_append, hf, hs⟩

theorem fits_separated_cons {row next : List Slot} {rows : List (List Slot)} {tokens : List Token} :
    Fits (Slot.separated (row :: next :: rows)) (tokens.map Token.unplaced) ↔
      ∃ first t second, tokens = first ++ t :: second ∧ Fits row (first.map Token.unplaced) ∧
        t.kind = .comma ∧ Fits (Slot.separated (next :: rows)) (second.map Token.unplaced) := by
  rw [separated_cons_cons, fits_unplaced_append]
  constructor
  · rintro ⟨first, _, rfl, hf, hs⟩
    obtain ⟨t, second, rfl, ht, hs⟩ := fits_unplaced_cons.1 hs
    exact ⟨first, t, second, rfl, hf, ht, hs⟩
  · rintro ⟨first, t, second, rfl, hf, ht, hs⟩
    exact ⟨first, _, rfl, hf, fits_unplaced_cons.2 ⟨t, second, rfl, ht, hs⟩⟩

/-- Tokens that fit a tree but for their places fit a tree that is the same but for its places. -/
def Placed {α : Type} (written : α → List Slot) (recast : α → α) (x : α) : Prop :=
  ∀ tokens : List Token, Fits (written x) (tokens.map Token.unplaced) →
    ∃ y, recast y = x ∧ Fits (written y) tokens

mutual

theorem Expr.placed : (e : Expr) → Placed Expr.written (Expr.recast .literal) e
  | .literal value, _, h => by
    simp only [Expr.written, fits_unplaced_cons, fits_unplaced_nil] at h
    obtain ⟨t, _, rfl, ht, rfl⟩ := h
    exact ⟨.literal value, rfl, .cons ht .nil⟩
  | .identifier name, _, h => by
    simp only [Expr.written, fits_unplaced_cons, fits_unplaced_nil] at h
    obtain ⟨t, _, rfl, rfl, rfl⟩ := h
    exact ⟨.identifier t, rfl, .cons rfl .nil⟩
  | .grouping inner, _, h => by
    simp only [Expr.written, List.cons_append, fits_unplaced_cons, fits_unplaced_append,
      fits_unplaced_nil] at h
    obtain ⟨t, _, rfl, ht, first, _, rfl, hf, u, _, rfl, hu, rfl⟩ := h
    obtain ⟨y, rfl, hy⟩ := inner.placed first hf
    exact ⟨.grouping y, rfl, .cons ht (hy.append (.cons hu .nil))⟩
  | .unary operator operand, _, h => by
    simp only [Expr.written, fits_unplaced_cons] at h
    obtain ⟨t, first, rfl, rfl, hf⟩ := h
    obtain ⟨y, rfl, hy⟩ := operand.placed first hf
    exact ⟨.unary t y, rfl, .cons rfl hy⟩
  | .binary left operator right, _, h => by
    simp only [Expr.written, fits_unplaced_cons, fits_unplaced_append] at h
    obtain ⟨first, _, rfl, hf, t, second, rfl, rfl, hs⟩ := h
    obtain ⟨y, rfl, hy⟩ := left.placed first hf
    obtain ⟨z, rfl, hz⟩ := right.placed second hs
    exact ⟨.binary y t z, rfl, hy.append (.cons rfl hz)⟩
  | .logical left operator right, _, h => by
    simp only [Expr.written, fits_unplaced_cons, fits_unplaced_append] at h
    obtain ⟨first, _, rfl, hf, t, second, rfl, rfl, hs⟩ := h
    obtain ⟨y, rfl, hy⟩ := left.placed first hf
    obtain ⟨z, rfl, hz⟩ := right.placed second hs
    exact ⟨.logical y t z, rfl, hy.append (.cons rfl hz)⟩
  | .assignment name value, _, h => by
    simp only [Expr.written, fits_unplaced_cons] at h
    obtain ⟨t, _, rfl, rfl, u, first, rfl, hu, hf⟩ := h
    obtain ⟨y, rfl, hy⟩ := value.placed first hf
    exact ⟨.assignment t y, rfl, .cons rfl (.cons hu hy)⟩
  | .call callee paren arguments, _, h => by
    simp only [Expr.written, List.append_assoc, List.cons_append, fits_unplaced_cons,
      fits_unplaced_append, fits_unplaced_nil] at h
    obtain ⟨first, _, rfl, hf, t, _, rfl, ht, second, _, rfl, hs, u, _, rfl, rfl, rfl⟩ := h
    obtain ⟨y, rfl, hy⟩ := callee.placed first hf
    obtain ⟨zs, rfl, hzs⟩ := Expr.placed_each arguments second hs
    refine ⟨.call y u zs, rfl, ?_⟩
    rw [Expr.written, List.append_assoc]
    exact hy.append (.cons ht (hzs.append (.cons rfl .nil)))

theorem Expr.placed_each : (es : List Expr) →
    Placed (fun es => Slot.separated (Expr.writtenEach es)) (Expr.recastAll .literal) es
  | [], _, h => by
    obtain rfl := fits_unplaced_nil.1 h
    exact ⟨[], rfl, .nil⟩
  | [e], tokens, h => by
    simp only [Expr.writtenEach, separated_singleton] at h
    obtain ⟨y, rfl, hy⟩ := e.placed tokens h
    exact ⟨[y], rfl, by simpa [Expr.writtenEach] using hy⟩
  | e :: next :: es, _, h => by
    simp only [Expr.writtenEach] at h
    obtain ⟨first, t, second, rfl, hf, ht, hs⟩ := fits_separated_cons.1 h
    obtain ⟨y, rfl, hy⟩ := e.placed first hf
    obtain ⟨zs, hzs, hfs⟩ := Expr.placed_each (next :: es) second hs
    cases zs with
    | nil => cases hzs
    | cons z zs =>
      refine ⟨y :: z :: zs, by simpa [Expr.recastAll] using hzs, ?_⟩
      simp only [Expr.writtenEach, separated_cons_cons]
      exact hy.append (.cons ht hfs)

end

theorem Expr.placed_after (wanted : List Kind) (o : Option Expr) :
    Placed (Expr.writtenAfter (wanted.map .kind)) (Option.map (Expr.recast .literal)) o := by
  intro tokens h
  cases o with
  | none =>
    obtain rfl := fits_unplaced_nil.1 h
    exact ⟨none, rfl, .nil⟩
  | some e =>
    obtain ⟨first, second, rfl, hf, hs⟩ := fits_unplaced_append.1 h
    obtain ⟨y, rfl, hy⟩ := e.placed second hs
    have hfirst : Fits (wanted.map .kind) first := by
      clear h hs hy
      induction wanted generalizing first with
      | nil => exact fits_nil.2 (fits_unplaced_nil.1 hf)
      | cons kind wanted ih =>
        obtain ⟨t, rest, rfl, ht, hr⟩ := fits_unplaced_cons.1 hf
        exact .cons ht (ih rest hr)
    exact ⟨some y, rfl, hfirst.append hy⟩

theorem placed_parameters : (parameters : List Token) →
    Placed (fun ts => Slot.separated (ts.map fun t => [.token t])) (List.map Token.unplaced)
      parameters
  | [], _, h => by
    obtain rfl := fits_unplaced_nil.1 h
    exact ⟨[], rfl, .nil⟩
  | [t], _, h => by
    simp only [List.map_cons, List.map_nil, separated_singleton, fits_unplaced_cons,
      fits_unplaced_nil] at h
    obtain ⟨u, _, rfl, rfl, rfl⟩ := h
    exact ⟨[u], rfl, .cons rfl .nil⟩
  | t :: next :: parameters, _, h => by
    simp only [List.map_cons] at h
    obtain ⟨first, comma, second, rfl, hf, hc, hs⟩ := fits_separated_cons.1 h
    simp only [fits_unplaced_cons, fits_unplaced_nil] at hf
    obtain ⟨u, _, rfl, rfl, rfl⟩ := hf
    obtain ⟨zs, hzs, hfs⟩ := placed_parameters (next :: parameters) second hs
    cases zs with
    | nil => cases hzs
    | cons z zs =>
      refine ⟨u :: z :: zs, by simpa using hzs, ?_⟩
      simp only [List.map_cons, separated_cons_cons]
      exact .cons rfl (.cons hc hfs)

mutual

theorem Stmt.placed : (s : Stmt) → Placed Stmt.written (Stmt.recast .literal) s
  | .expression value, _, h => by
    simp only [Stmt.written, fits_unplaced_cons, fits_unplaced_append, fits_unplaced_nil] at h
    obtain ⟨first, _, rfl, hf, t, _, rfl, ht, rfl⟩ := h
    obtain ⟨y, rfl, hy⟩ := value.placed first hf
    exact ⟨.expression y, rfl, hy.append (.cons ht .nil)⟩
  | .print keyword value, _, h => by
    simp only [Stmt.written, List.cons_append, fits_unplaced_cons, fits_unplaced_append,
      fits_unplaced_nil] at h
    obtain ⟨u, _, rfl, rfl, first, _, rfl, hf, t, _, rfl, ht, rfl⟩ := h
    obtain ⟨y, rfl, hy⟩ := value.placed first hf
    exact ⟨.print u y, rfl, .cons rfl (hy.append (.cons ht .nil))⟩
  | .block body, _, h => by
    simp only [Stmt.written, List.cons_append, fits_unplaced_cons, fits_unplaced_append,
      fits_unplaced_nil] at h
    obtain ⟨u, _, rfl, hu, first, _, rfl, hf, t, _, rfl, ht, rfl⟩ := h
    obtain ⟨ys, rfl, hys⟩ := Stmt.placed_all body first hf
    exact ⟨.block ys, rfl, .cons hu (hys.append (.cons ht .nil))⟩
  | .conditional condition thenBranch elseBranch, _, h => by
    simp only [Stmt.written, List.cons_append, List.append_assoc, fits_unplaced_cons,
      fits_unplaced_append] at h
    obtain ⟨t, _, rfl, ht, u, _, rfl, hu, first, _, rfl, hf, v, _, rfl, hv, second, third, rfl, hs,
      he⟩ := h
    obtain ⟨x, rfl, hx⟩ := condition.placed first hf
    obtain ⟨y, rfl, hy⟩ := thenBranch.placed second hs
    obtain ⟨o, rfl, ho⟩ := Stmt.placed_else elseBranch third he
    refine ⟨.conditional x y o, rfl, ?_⟩
    simp only [Stmt.written, List.cons_append, List.append_assoc]
    exact .cons ht (.cons hu (hx.append (.cons hv (hy.append ho))))
  | .whileLoop keyword condition body, _, h => by
    simp only [Stmt.written, List.cons_append, fits_unplaced_cons, fits_unplaced_append] at h
    obtain ⟨t, _, rfl, rfl, u, _, rfl, hu, first, _, rfl, hf, v, second, rfl, hv, hs⟩ := h
    obtain ⟨x, rfl, hx⟩ := condition.placed first hf
    obtain ⟨y, rfl, hy⟩ := body.placed second hs
    exact ⟨.whileLoop t x y, rfl, .cons rfl (.cons hu (hx.append (.cons hv hy)))⟩
  | .forLoop keyword initializer condition increment body, _, h => by
    simp only [Stmt.written, List.cons_append, List.append_assoc, fits_unplaced_cons,
      fits_unplaced_append] at h
    obtain ⟨t, _, rfl, rfl, u, _, rfl, hu, first, _, rfl, hf, second, _, rfl, hs, v, _, rfl, hv,
      third, _, rfl, ht, w, fourth, rfl, hw, hb⟩ := h
    obtain ⟨o, rfl, ho⟩ := Stmt.placed_first initializer first hf
    obtain ⟨x, rfl, hx⟩ := Expr.placed_after [] condition second hs
    obtain ⟨y, rfl, hy⟩ := Expr.placed_after [] increment third ht
    obtain ⟨z, rfl, hz⟩ := body.placed fourth hb
    refine ⟨.forLoop t o x y z, rfl, ?_⟩
    simp only [Stmt.written, List.cons_append, List.append_assoc]
    exact .cons rfl (.cons hu (ho.append (hx.append (.cons hv (hy.append (.cons hw hz))))))
  | .variableDecl name initializer constant, _, h => by
    simp only [Stmt.written, List.cons_append, fits_unplaced_cons, fits_unplaced_append,
      fits_unplaced_nil] at h
    obtain ⟨t, _, rfl, ht, u, _, rfl, rfl, first, _, rfl, hf, v, _, rfl, hv, rfl⟩ := h
    obtain ⟨o, rfl, ho⟩ := Expr.placed_after [.equal] initializer first hf
    exact ⟨.variableDecl u o constant, rfl, .cons ht (.cons rfl (ho.append (.cons hv .nil)))⟩
  | .functionDecl name parameters body, _, h => by
    simp only [Stmt.written, List.cons_append, List.append_assoc, fits_unplaced_cons,
      fits_unplaced_append, fits_unplaced_nil] at h
    obtain ⟨t, _, rfl, ht, u, _, rfl, rfl, v, _, rfl, hv, first, _, rfl, hf, w, _, rfl, hw, x, _,
      rfl, hx, second, _, rfl, hs, y, _, rfl, hy, rfl⟩ := h
    obtain ⟨ps, rfl, hps⟩ := placed_parameters parameters first hf
    obtain ⟨ss, rfl, hss⟩ := Stmt.placed_all body second hs
    refine ⟨.functionDecl u ps ss, rfl, ?_⟩
    simp only [Stmt.written, List.cons_append, List.append_assoc]
    exact .cons ht (.cons rfl (.cons hv (hps.append (.cons hw (.cons hx
      (hss.append (.cons hy .nil)))))))
  | .returnStmt keyword value, _, h => by
    simp only [Stmt.written, List.cons_append, fits_unplaced_cons, fits_unplaced_append,
      fits_unplaced_nil] at h
    obtain ⟨t, _, rfl, rfl, first, _, rfl, hf, u, _, rfl, hu, rfl⟩ := h
    obtain ⟨o, rfl, ho⟩ := Expr.placed_after [] value first hf
    exact ⟨.returnStmt t o, rfl, .cons rfl (ho.append (.cons hu .nil))⟩

theorem Stmt.placed_else : (o : Option Stmt) →
    Placed Stmt.writtenElse (Stmt.recastIfAny .literal) o
  | none, _, h => by
    obtain rfl := fits_unplaced_nil.1 h
    exact ⟨none, rfl, .nil⟩
  | some branch, _, h => by
    obtain ⟨t, rest, rfl, ht, hr⟩ := fits_unplaced_cons.1 h
    obtain ⟨y, rfl, hy⟩ := branch.placed rest hr
    exact ⟨some y, rfl, .cons ht hy⟩

theorem Stmt.placed_first : (o : Option Stmt) →
    Placed Stmt.writtenFirst (Stmt.recastIfAny .literal) o
  | none, _, h => by
    simp only [Stmt.writtenFirst, fits_unplaced_cons, fits_unplaced_nil] at h
    obtain ⟨t, _, rfl, ht, rfl⟩ := h
    exact ⟨none, rfl, .cons ht .nil⟩
  | some first, tokens, h => by
    obtain ⟨y, rfl, hy⟩ := first.placed tokens h
    exact ⟨some y, rfl, hy⟩

theorem Stmt.placed_all : (ss : List Stmt) → Placed Stmt.writtenAll (Stmt.recastAll .literal) ss
  | [], _, h => by
    obtain rfl := fits_unplaced_nil.1 h
    exact ⟨[], rfl, .nil⟩
  | s :: ss, _, h => by
    obtain ⟨first, second, rfl, hf, hs⟩ := fits_unplaced_append.1 h
    obtain ⟨y, rfl, hy⟩ := s.placed first hf
    obtain ⟨zs, rfl, hzs⟩ := Stmt.placed_all ss second hs
    exact ⟨y :: zs, rfl, hy.append hzs⟩

end

end Scriptlet
