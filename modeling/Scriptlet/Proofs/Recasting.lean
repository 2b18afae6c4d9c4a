import Scriptlet.Proofs.Canonical
import Scriptlet.Proofs.LexemeShapes
import Scriptlet.Tree.Layout

/-!
Trees without the places of their tokens. The places matter neither to the grammar nor to the text
of a tree. While the places are taken away, constants may be replaced too: a text cannot spell every
constant, and what it spells instead stands at the same rank.
-/

namespace Scriptlet

mutual

/-- The expression without the places of its tokens, with `g` in place of its constants. -/
def Expr.recast (g : Constant → Expr) : Expr → Expr
  | .literal value => g value
  | .identifier name => .identifier name.unplaced
  | .grouping inner => .grouping (inner.recast g)
  | .unary operator operand => .unary operator.unplaced (operand.recast g)
  | .binary left operator right =>
    .binary (left.recast g) operator.unplaced (right.recast g)
  | .logical left operator right =>
    .logical (left.recast g) operator.unplaced (right.recast g)
  | .assignment name value => .assignment name.unplaced (value.recast g)
  | .call callee paren arguments =>
    .call (callee.recast g) paren.unplaced (Expr.recastAll g arguments)

def Expr.recastAll (g : Constant → Expr) : List Expr → List Expr
  | [] => []
  | e :: es => e.recast g :: Expr.recastAll g es

end

mutual

def Stmt.recast (g : Constant → Expr) : Stmt → Stmt
  | .expression value => .expression (value.recast g)
  | .print keyword value => .print keyword.unplaced (value.recast g)
  | .block body => .block (Stmt.recastAll g body)
  | .conditional condition thenBranch elseBranch =>
    .conditional (condition.recast g) (thenBranch.recast g) (Stmt.recastIfAny g elseBranch)
  | .whileLoop keyword condition body =>
    .whileLoop keyword.unplaced (condition.recast g) (body.recast g)
  | .forLoop keyword initializer condition increment body =>
    .forLoop keyword.unplaced (Stmt.recastIfAny g initializer) (condition.map (Expr.recast g))
      (increment.map (Expr.recast g)) (body.recast g)
  | .variableDecl name initializer constant =>
    .variableDecl name.unplaced (initializer.map (Expr.recast g)) constant
  | .functionDecl name parameters body =>
    .functionDecl name.unplaced (parameters.map Token.unplaced) (Stmt.recastAll g body)
  | .returnStmt keyword value => .returnStmt keyword.unplaced (value.map (Expr.recast g))

def Stmt.recastIfAny (g : Constant → Expr) : Option Stmt → Option Stmt
  | some s => some (s.recast g)
  | none => none

def Stmt.recastAll (g : Constant → Expr) : List Stmt → List Stmt
  | [] => []
  | s :: ss => s.recast g :: Stmt.recastAll g ss

end

def Program.unplaced (p : Program) : Program := Stmt.recastAll .literal p

/-- What `g` puts in place of a constant is as good to the grammar as the constant. -/
structure Recasting (g : Constant → Expr) : Prop where
  rank : ∀ value, (g value).rank = 9
  canonical : ∀ value, (g value).Canonical
  nesting : ∀ value, (g value).nesting = 0

theorem recasting_literal : Recasting .literal := ⟨fun _ => rfl, fun _ => trivial, fun _ => rfl⟩

@[simp] theorem Token.unplaced_kind (t : Token) : t.unplaced.kind = t.kind := rfl

@[simp] theorem Token.unplaced_lexeme (t : Token) : t.unplaced.lexeme = t.lexeme := rfl

section

variable {g : Constant → Expr}

theorem Expr.rank_recast (hg : Recasting g) (e : Expr) : (e.recast g).rank = e.rank := by
  cases e with
  | literal value => exact hg.rank value
  | _ => rfl

theorem Expr.length_recastAll (es : List Expr) : (Expr.recastAll g es).length = es.length := by
  induction es with
  | nil => rfl
  | cons e es ih => simp [Expr.recastAll, ih]

mutual

theorem Expr.canonical_recast (hg : Recasting g) :
    (e : Expr) → ((e.recast g).Canonical ↔ e.Canonical)
  | .literal value => iff_of_true (hg.canonical value) trivial
  | .identifier _ => Iff.rfl
  | .grouping inner => inner.canonical_recast hg
  | .unary operator operand => by
    simp [Expr.recast, Expr.Canonical, operand.rank_recast hg, operand.canonical_recast hg]
  | .binary left operator right => by
    simp [Expr.recast, Expr.Canonical, Level.Joins, left.rank_recast hg, right.rank_recast hg,
      left.canonical_recast hg, right.canonical_recast hg]
  | .logical left operator right => by
    simp [Expr.recast, Expr.Canonical, Level.Joins, left.rank_recast hg, right.rank_recast hg,
      left.canonical_recast hg, right.canonical_recast hg]
  | .assignment name value => by
    simp [Expr.recast, Expr.Canonical, value.canonical_recast hg]
  | .call callee paren arguments => by
    simp [Expr.recast, Expr.Canonical, callee.rank_recast hg, callee.canonical_recast hg,
      Expr.length_recastAll, Expr.allCanonical_recast hg arguments]

theorem Expr.allCanonical_recast (hg : Recasting g) :
    (es : List Expr) → (Expr.AllCanonical (Expr.recastAll g es) ↔ Expr.AllCanonical es)
  | [] => Iff.rfl
  | e :: es => and_congr (e.canonical_recast hg) (Expr.allCanonical_recast hg es)

end

theorem Expr.canonicalIfAny_recast (hg : Recasting g) (o : Option Expr) :
    Expr.CanonicalIfAny (o.map (Expr.recast g)) ↔ Expr.CanonicalIfAny o := by
  cases o with
  | none => simp [Expr.CanonicalIfAny]
  | some e => simp [Expr.CanonicalIfAny, e.canonical_recast hg]

mutual

theorem Expr.nesting_recast (hg : Recasting g) : (e : Expr) → (e.recast g).nesting = e.nesting
  | .literal value => hg.nesting value
  | .identifier _ => rfl
  | .grouping inner => by simp [Expr.recast, Expr.nesting, inner.nesting_recast hg]
  | .unary _ operand => by simp [Expr.recast, Expr.nesting, operand.nesting_recast hg]
  | .binary left _ right => by
    simp [Expr.recast, Expr.nesting, left.nesting_recast hg, right.nesting_recast hg]
  | .logical left _ right => by
    simp [Expr.recast, Expr.nesting, left.nesting_recast hg, right.nesting_recast hg]
  | .assignment _ value => by simp [Expr.recast, Expr.nesting, value.nesting_recast hg]
  | .call callee _ arguments => by
    simp [Expr.recast, Expr.nesting, callee.nesting_recast hg, Expr.nestingAll_recast hg arguments]

theorem Expr.nestingAll_recast (hg : Recasting g) :
    (es : List Expr) → Expr.nestingAll (Expr.recastAll g es) = Expr.nestingAll es
  | [] => rfl
  | e :: es => by
    simp [Expr.recastAll, Expr.nestingAll, e.nesting_recast hg, Expr.nestingAll_recast hg es]

end

theorem Expr.nestingIfAny_recast (hg : Recasting g) (o : Option Expr) :
    Expr.nestingIfAny (o.map (Expr.recast g)) = Expr.nestingIfAny o := by
  cases o with
  | none => rfl
  | some e => simp [Expr.nestingIfAny, e.nesting_recast hg]

theorem Stmt.isDeclaration_recast (s : Stmt) : (s.recast g).IsDeclaration ↔ s.IsDeclaration := by
  cases s <;> rfl

theorem Stmt.isInitializer_recast (s : Stmt) : (s.recast g).IsInitializer ↔ s.IsInitializer := by
  cases s <;> rfl

theorem Stmt.endsOpen_recast : (s : Stmt) → ((s.recast g).EndsOpen ↔ s.EndsOpen)
  | .conditional _ _ (some branch) => branch.endsOpen_recast
  | .conditional _ _ none => Iff.rfl
  | .whileLoop _ _ body => body.endsOpen_recast
  | .forLoop _ _ _ _ body => body.endsOpen_recast
  | .expression _ => Iff.rfl
  | .print _ _ => Iff.rfl
  | .block _ => Iff.rfl
  | .variableDecl _ _ _ => Iff.rfl
  | .functionDecl _ _ _ => Iff.rfl
  | .returnStmt _ _ => Iff.rfl

theorem Stmt.isSome_recastIfAny (o : Option Stmt) : (Stmt.recastIfAny g o).isSome = o.isSome := by
  cases o <;> rfl

mutual

theorem Stmt.canonical_recast (hg : Recasting g) (inFunction : Bool) :
    (s : Stmt) → ((s.recast g).Canonical inFunction ↔ s.Canonical inFunction)
  | .expression value => value.canonical_recast hg
  | .print keyword value => by simp [Stmt.recast, Stmt.Canonical, value.canonical_recast hg]
  | .block body => Stmt.allCanonical_recast hg inFunction body
  | .conditional condition thenBranch elseBranch => by
    simp [Stmt.recast, Stmt.Canonical, condition.canonical_recast hg,
      thenBranch.isDeclaration_recast, thenBranch.canonical_recast hg inFunction,
      thenBranch.endsOpen_recast, Stmt.isSome_recastIfAny,
      Stmt.branchCanonical_recast hg inFunction elseBranch]
  | .whileLoop keyword condition body => by
    simp [Stmt.recast, Stmt.Canonical, condition.canonical_recast hg, body.isDeclaration_recast,
      body.canonical_recast hg inFunction]
  | .forLoop keyword initializer condition increment body => by
    simp [Stmt.recast, Stmt.Canonical, Expr.canonicalIfAny_recast hg, body.isDeclaration_recast,
      body.canonical_recast hg inFunction, Stmt.firstCanonical_recast hg inFunction initializer]
  | .variableDecl name initializer constant => by
    simp [Stmt.recast, Stmt.Canonical, Expr.canonicalIfAny_recast hg]
  | .functionDecl name parameters body => by
    simp [Stmt.recast, Stmt.Canonical, Stmt.allCanonical_recast hg true body]
  | .returnStmt keyword value => by
    simp [Stmt.recast, Stmt.Canonical, Expr.canonicalIfAny_recast hg]

theorem Stmt.branchCanonical_recast (hg : Recasting g) (inFunction : Bool) :
    (o : Option Stmt) →
      (Stmt.BranchCanonical inFunction (Stmt.recastIfAny g o) ↔ Stmt.BranchCanonical inFunction o)
  | none => Iff.rfl
  | some branch => by
    simp [Stmt.recastIfAny, Stmt.BranchCanonical, branch.isDeclaration_recast,
      branch.canonical_recast hg inFunction]

theorem Stmt.firstCanonical_recast (hg : Recasting g) (inFunction : Bool) :
    (o : Option Stmt) →
      (Stmt.FirstCanonical inFunction (Stmt.recastIfAny g o) ↔ Stmt.FirstCanonical inFunction o)
  | none => Iff.rfl
  | some first => by
    simp [Stmt.recastIfAny, Stmt.FirstCanonical, first.isInitializer_recast,
      first.canonical_recast hg inFunction]

theorem Stmt.allCanonical_recast (hg : Recasting g) (inFunction : Bool) :
    (ss : List Stmt) →
      (Stmt.AllCanonical inFunction (Stmt.recastAll g ss) ↔ Stmt.AllCanonical inFunction ss)
  | [] => Iff.rfl
  | s :: ss => and_congr (s.canonical_recast hg inFunction)
      (Stmt.allCanonical_recast hg inFunction ss)

end

mutual

theorem Stmt.nesting_recast (hg : Recasting g) : (s : Stmt) → (s.recast g).nesting = s.nesting
  | .expression value => by simp [Stmt.recast, Stmt.nesting, value.nesting_recast hg]
  | .print _ value => by simp [Stmt.recast, Stmt.nesting, value.nesting_recast hg]
  | .block body => by simp [Stmt.recast, Stmt.nesting, Stmt.nestingAll_recast hg body]
  | .conditional condition thenBranch elseBranch => by
    simp [Stmt.recast, Stmt.nesting, condition.nesting_recast hg, thenBranch.nesting_recast hg,
      Stmt.nestingIfAny_recast hg elseBranch]
  | .whileLoop _ condition body => by
    simp [Stmt.recast, Stmt.nesting, condition.nesting_recast hg, body.nesting_recast hg]
  | .forLoop _ initializer condition increment body => by
    simp [Stmt.recast, Stmt.nesting, Expr.nestingIfAny_recast hg, body.nesting_recast hg,
      Stmt.nestingFirst_recast hg initializer]
  | .variableDecl _ initializer _ => Expr.nestingIfAny_recast hg initializer
  | .functionDecl _ _ body => by simp [Stmt.recast, Stmt.nesting, Stmt.nestingAll_recast hg body]
  | .returnStmt _ value => by simp [Stmt.recast, Stmt.nesting, Expr.nestingIfAny_recast hg]

theorem Stmt.nestingIfAny_recast (hg : Recasting g) :
    (o : Option Stmt) → Stmt.nestingIfAny (Stmt.recastIfAny g o) = Stmt.nestingIfAny o
  | none => rfl
  | some branch => branch.nesting_recast hg

theorem Stmt.nestingFirst_recast (hg : Recasting g) :
    (o : Option Stmt) → Stmt.nestingFirst (Stmt.recastIfAny g o) = Stmt.nestingFirst o
  | none => rfl
  | some first => by
    have hfirst := first.nesting_recast hg
    cases first with
    | expression value =>
      simpa [Stmt.recast, Stmt.recastIfAny, Stmt.nestingFirst, Stmt.nesting] using hfirst
    | _ => exact hfirst

theorem Stmt.nestingAll_recast (hg : Recasting g) :
    (ss : List Stmt) → Stmt.nestingAll (Stmt.recastAll g ss) = Stmt.nestingAll ss
  | [] => rfl
  | s :: ss => by
    simp [Stmt.recastAll, Stmt.nestingAll, s.nesting_recast hg, Stmt.nestingAll_recast hg ss]

end

def Slot.SameText (g : Constant → Expr) : Slot → Prop
  | .constant value => ∀ layout, (g value).text layout = value.text
  | _ => True

mutual

theorem Expr.text_recast (layout : Layout) :
    (e : Expr) → Each (Slot.SameText g) e.written → (e.recast g).text layout = e.text layout
  | .literal value, h => by
    simp only [Expr.written, each_cons, Slot.SameText] at h
    exact h.1 layout
  | .identifier _, _ => rfl
  | .grouping inner, h => by
    simp only [Expr.written, List.cons_append, each_cons, each_append] at h
    simp [Expr.recast, Expr.text, inner.text_recast layout h.2.1]
  | .unary operator operand, h => by
    simp only [Expr.written, each_cons] at h
    simp [Expr.recast, Expr.text, operand.text_recast layout h.2]
  | .binary left operator right, h => by
    simp only [Expr.written, each_cons, each_append] at h
    simp [Expr.recast, Expr.text, left.text_recast layout h.1, right.text_recast layout h.2.2]
  | .logical left operator right, h => by
    simp only [Expr.written, each_cons, each_append] at h
    simp [Expr.recast, Expr.text, left.text_recast layout h.1, right.text_recast layout h.2.2]
  | .assignment name value, h => by
    simp only [Expr.written, each_cons] at h
    simp [Expr.recast, Expr.text, value.text_recast layout h.2.2]
  | .call callee paren arguments, h => by
    simp only [Expr.written, List.append_assoc, each_append, List.cons_append, each_cons,
      each_separated (P := Slot.SameText g) trivial] at h
    simp [Expr.recast, Expr.text, callee.text_recast layout h.1,
      Expr.texts_recast layout arguments h.2.2.1]

theorem Expr.texts_recast (layout : Layout) :
    (es : List Expr) → (∀ row ∈ Expr.writtenEach es, Each (Slot.SameText g) row) →
      Expr.texts layout (Expr.recastAll g es) = Expr.texts layout es
  | [], _ => rfl
  | e :: es, h => by
    simp only [Expr.writtenEach, List.forall_mem_cons] at h
    simp [Expr.recastAll, Expr.texts, e.text_recast layout h.1, Expr.texts_recast layout es h.2]

end

theorem Expr.textOf?_recast (layout : Layout) (before : String) {slots : List Slot}
    {o : Option Expr} (h : Each (Slot.SameText g) (Expr.writtenAfter slots o)) :
    Expr.textOf? layout before (o.map (Expr.recast g)) = Expr.textOf? layout before o := by
  cases o with
  | none => rfl
  | some e => simp [Expr.textOf?, e.text_recast layout (each_append.1 h).2]

mutual

theorem Stmt.text_recast (layout : Layout) (level : Nat) : (s : Stmt) →
    Each (Slot.SameText g) s.written → (s.recast g).text layout level = s.text layout level
  | .expression value, h => by
    simp only [Stmt.written, each_append] at h
    simp [Stmt.recast, Stmt.text, value.text_recast layout h.1]
  | .print keyword value, h => by
    simp only [Stmt.written, List.cons_append, each_cons, each_append] at h
    simp [Stmt.recast, Stmt.text, value.text_recast layout h.2.1]
  | .block body, h => by
    simp only [Stmt.written, List.cons_append, each_cons, each_append] at h
    simp [Stmt.recast, Stmt.text, Stmt.lines_recast layout (level + 1) body h.2.1]
  | .conditional condition thenBranch none, h => by
    simp only [Stmt.written, List.cons_append, List.append_assoc, each_cons, each_append] at h
    simp [Stmt.recast, Stmt.recastIfAny, Stmt.text, condition.text_recast layout h.2.2.1,
      thenBranch.text_recast layout level h.2.2.2.2.1]
  | .conditional condition thenBranch (some branch), h => by
    simp only [Stmt.written, Stmt.writtenElse, List.cons_append, List.append_assoc, each_cons,
      each_append] at h
    simp [Stmt.recast, Stmt.recastIfAny, Stmt.text, condition.text_recast layout h.2.2.1,
      thenBranch.text_recast layout level h.2.2.2.2.1,
      branch.text_recast layout level h.2.2.2.2.2.2]
  | .whileLoop keyword condition body, h => by
    simp only [Stmt.written, List.cons_append, each_cons, each_append] at h
    simp [Stmt.recast, Stmt.text, condition.text_recast layout h.2.2.1,
      body.text_recast layout level h.2.2.2.2]
  | .forLoop keyword none condition increment body, h => by
    simp only [Stmt.written, List.cons_append, List.append_assoc, each_cons, each_append] at h
    obtain ⟨-, -, -, hc, -, hi, -, hb⟩ := h
    simp [Stmt.recast, Stmt.recastIfAny, Stmt.text, Expr.textOf?_recast layout _ hc,
      Expr.textOf?_recast layout _ hi, body.text_recast layout level hb]
  | .forLoop keyword (some first) condition increment body, h => by
    simp only [Stmt.written, Stmt.writtenFirst, List.cons_append, List.append_assoc, each_cons,
      each_append] at h
    obtain ⟨-, -, hf, hc, -, hi, -, hb⟩ := h
    simp [Stmt.recast, Stmt.recastIfAny, Stmt.text, first.text_recast layout level hf,
      Expr.textOf?_recast layout _ hc, Expr.textOf?_recast layout _ hi,
      body.text_recast layout level hb]
  | .variableDecl name initializer constant, h => by
    simp only [Stmt.written, List.cons_append, each_cons, each_append] at h
    simp [Stmt.recast, Stmt.text, Expr.textOf?_recast layout _ h.2.2.1]
  | .functionDecl name parameters body, h => by
    simp only [Stmt.written, List.cons_append, List.append_assoc, each_cons, each_append] at h
    have hnames :
        (parameters.map Token.unplaced).map Token.lexeme = parameters.map Token.lexeme := by
      simp
    simp [Stmt.recast, Stmt.text, -List.map_map, hnames,
      Stmt.lines_recast layout (level + 1) body h.2.2.2.2.2.2.1]
  | .returnStmt keyword value, h => by
    simp only [Stmt.written, List.cons_append, each_cons, each_append] at h
    simp [Stmt.recast, Stmt.text, Expr.textOf?_recast layout _ h.2.1]

theorem Stmt.lines_recast (layout : Layout) (level : Nat) : (ss : List Stmt) →
    Each (Slot.SameText g) (Stmt.writtenAll ss) →
      Stmt.lines layout level (Stmt.recastAll g ss) = Stmt.lines layout level ss
  | [], _ => rfl
  | s :: ss, h => by
    simp only [Stmt.writtenAll, each_append] at h
    simp [Stmt.recastAll, Stmt.lines, s.text_recast layout level h.1,
      Stmt.lines_recast layout level ss h.2]

end

/-- The slots that stand for a slot once the places are gone and constants are replaced. -/
def Slot.recast (g : Constant → Expr) : Slot → List Slot
  | .kind wanted => [.kind wanted]
  | .token kept => [.token kept.unplaced]
  | .constant value => (g value).written

theorem flatMap_separated (rows : List (List Slot)) :
    (Slot.separated rows).flatMap (Slot.recast g) =
      Slot.separated (rows.map (·.flatMap (Slot.recast g))) := by
  induction rows with
  | nil => simp [Slot.separated]
  | cons row rows ih =>
    cases rows with
    | nil => simp
    | cons next rows =>
      rw [separated_cons_cons, List.flatMap_append, List.flatMap_cons, ih]
      simp [separated_cons_cons, Slot.recast]

mutual

theorem Expr.written_recast :
    (e : Expr) → (e.recast g).written = e.written.flatMap (Slot.recast g)
  | .literal value => by simp [Expr.recast, Expr.written, Slot.recast]
  | .identifier _ => by simp [Expr.recast, Expr.written, Slot.recast]
  | .grouping inner => by simp [Expr.recast, Expr.written, Slot.recast, inner.written_recast]
  | .unary _ operand => by simp [Expr.recast, Expr.written, Slot.recast, operand.written_recast]
  | .binary left _ right => by
    simp [Expr.recast, Expr.written, Slot.recast, left.written_recast, right.written_recast]
  | .logical left _ right => by
    simp [Expr.recast, Expr.written, Slot.recast, left.written_recast, right.written_recast]
  | .assignment _ value => by simp [Expr.recast, Expr.written, Slot.recast, value.written_recast]
  | .call callee _ arguments => by
    simp [Expr.recast, Expr.written, Slot.recast, callee.written_recast, flatMap_separated,
      Expr.writtenEach_recast arguments]

theorem Expr.writtenEach_recast : (es : List Expr) →
    Expr.writtenEach (Expr.recastAll g es) =
      (Expr.writtenEach es).map (·.flatMap (Slot.recast g))
  | [] => rfl
  | e :: es => by
    simp [Expr.recastAll, Expr.writtenEach, e.written_recast, Expr.writtenEach_recast es]

end

theorem Expr.writtenAfter_recast (wanted : List Kind) (o : Option Expr) :
    Expr.writtenAfter (wanted.map .kind) (o.map (Expr.recast g)) =
      (Expr.writtenAfter (wanted.map .kind) o).flatMap (Slot.recast g) := by
  cases o with
  | none => rfl
  | some e =>
    have hw : (wanted.map Slot.kind).flatMap (Slot.recast g) = wanted.map .kind := by
      induction wanted with
      | nil => rfl
      | cons kind wanted ih => simp [Slot.recast, ih]
    simp [Expr.writtenAfter, e.written_recast, hw]

mutual

theorem Stmt.written_recast :
    (s : Stmt) → (s.recast g).written = s.written.flatMap (Slot.recast g)
  | .expression value => by simp [Stmt.recast, Stmt.written, Slot.recast, value.written_recast]
  | .print _ value => by simp [Stmt.recast, Stmt.written, Slot.recast, value.written_recast]
  | .block body => by simp [Stmt.recast, Stmt.written, Slot.recast, Stmt.writtenAll_recast body]
  | .conditional condition thenBranch elseBranch => by
    simp [Stmt.recast, Stmt.written, Slot.recast, condition.written_recast,
      thenBranch.written_recast, Stmt.writtenElse_recast elseBranch]
  | .whileLoop _ condition body => by
    simp [Stmt.recast, Stmt.written, Slot.recast, condition.written_recast, body.written_recast]
  | .forLoop _ initializer condition increment body => by
    have hafter := fun o => Expr.writtenAfter_recast (g := g) [] o
    simp only [List.map_nil] at hafter
    simp [Stmt.recast, Stmt.written, Slot.recast, hafter, body.written_recast,
      Stmt.writtenFirst_recast initializer]
  | .variableDecl _ initializer constant => by
    have hafter := Expr.writtenAfter_recast (g := g) [.equal] initializer
    simp only [List.map_cons, List.map_nil] at hafter
    simp [Stmt.recast, Stmt.written, Slot.recast, hafter]
  | .functionDecl _ parameters body => by
    simp [Stmt.recast, Stmt.written, Slot.recast, flatMap_separated, Stmt.writtenAll_recast body,
      Function.comp_def]
  | .returnStmt _ value => by
    have hafter := Expr.writtenAfter_recast (g := g) [] value
    simp only [List.map_nil] at hafter
    simp [Stmt.recast, Stmt.written, Slot.recast, hafter]

theorem Stmt.writtenElse_recast : (o : Option Stmt) →
    Stmt.writtenElse (Stmt.recastIfAny g o) = (Stmt.writtenElse o).flatMap (Slot.recast g)
  | none => rfl
  | some branch => by
    simp [Stmt.recastIfAny, Stmt.writtenElse, Slot.recast, branch.written_recast]

theorem Stmt.writtenFirst_recast : (o : Option Stmt) →
    Stmt.writtenFirst (Stmt.recastIfAny g o) = (Stmt.writtenFirst o).flatMap (Slot.recast g)
  | none => by simp [Stmt.recastIfAny, Stmt.writtenFirst, Slot.recast]
  | some first => by simp [Stmt.recastIfAny, Stmt.writtenFirst, first.written_recast]

theorem Stmt.writtenAll_recast : (ss : List Stmt) →
    Stmt.writtenAll (Stmt.recastAll g ss) = (Stmt.writtenAll ss).flatMap (Slot.recast g)
  | [] => rfl
  | s :: ss => by
    simp [Stmt.recastAll, Stmt.writtenAll, s.written_recast, Stmt.writtenAll_recast ss]

end

end

end Scriptlet
