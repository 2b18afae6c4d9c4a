import Mathlib
import Scriptlet.Grammar.Expression

/-!
Trees as the grammar sees them. A tree is written back as a row of slots, one for each token that
it was read from. A tree is canonical if its operators nest as their levels say and its statements
stand where the grammar allows them. Nesting counts the levels that reading a tree opens.
-/

namespace Scriptlet

/-- What a tree knows of one of its tokens: its kind, the token itself or the constant it spells. -/
inductive Slot where
  | kind (wanted : Kind)
  | token (kept : Token)
  | constant (value : Constant)
  deriving DecidableEq

def Slot.Holds : Slot → Token → Prop
  | .kind wanted, t => t.kind = wanted
  | .token kept, t => t = kept
  | .constant value, t => Constant.ofToken? t = some value

@[simp] theorem Slot.holds_kind {wanted : Kind} {t : Token} :
    (Slot.kind wanted).Holds t ↔ t.kind = wanted := Iff.rfl

@[simp] theorem Slot.holds_token {kept t : Token} : (Slot.token kept).Holds t ↔ t = kept := Iff.rfl

@[simp] theorem Slot.holds_constant {value : Constant} {t : Token} :
    (Slot.constant value).Holds t ↔ Constant.ofToken? t = some value := Iff.rfl

instance (slot : Slot) (t : Token) : Decidable (slot.Holds t) :=
  match slot with
  | .kind wanted => inferInstanceAs (Decidable (t.kind = wanted))
  | .token kept => inferInstanceAs (Decidable (t = kept))
  | .constant value => inferInstanceAs (Decidable (Constant.ofToken? t = some value))

def Fits (slots : List Slot) (tokens : List Token) : Prop := List.Forall₂ Slot.Holds slots tokens

instance (slots : List Slot) (tokens : List Token) : Decidable (Fits slots tokens) :=
  inferInstanceAs (Decidable (List.Forall₂ _ _ _))

@[simp] theorem fits_nil {tokens : List Token} : Fits [] tokens ↔ tokens = [] := by
  simp [Fits]

theorem fits_cons {slot : Slot} {slots : List Slot} {tokens : List Token} :
    Fits (slot :: slots) tokens ↔
      ∃ t rest, tokens = t :: rest ∧ slot.Holds t ∧ Fits slots rest := by
  unfold Fits
  rw [List.forall₂_cons_left_iff]
  constructor
  · rintro ⟨t, rest, ht, hrest, rfl⟩
    exact ⟨t, rest, rfl, ht, hrest⟩
  · rintro ⟨t, rest, rfl, ht, hrest⟩
    exact ⟨t, rest, ht, hrest, rfl⟩

theorem fits_append {slots more : List Slot} {tokens : List Token} :
    Fits (slots ++ more) tokens ↔
      ∃ first second, tokens = first ++ second ∧ Fits slots first ∧ Fits more second := by
  induction slots generalizing tokens with
  | nil => simp
  | cons slot slots ih =>
    simp only [List.cons_append, fits_cons, ih]
    constructor
    · rintro ⟨t, _, rfl, ht, first, second, rfl, hf, hs⟩
      exact ⟨t :: first, second, rfl, ⟨t, first, rfl, ht, hf⟩, hs⟩
    · rintro ⟨_, second, rfl, ⟨t, first, rfl, ht, hf⟩, hs⟩
      exact ⟨t, first ++ second, rfl, ht, first, second, rfl, hf, hs⟩

theorem fits_singleton {slot : Slot} {tokens : List Token} :
    Fits [slot] tokens ↔ ∃ t, tokens = [t] ∧ slot.Holds t := by
  simp [fits_cons]

theorem Fits.append {slots more : List Slot} {first second : List Token} (h : Fits slots first)
    (k : Fits more second) : Fits (slots ++ more) (first ++ second) :=
  fits_append.2 ⟨first, second, rfl, h, k⟩

def Slot.separated (rows : List (List Slot)) : List Slot := [Slot.kind .comma].intercalate rows

theorem separated_cons_cons (row next : List Slot) (rows : List (List Slot)) :
    Slot.separated (row :: next :: rows) =
      row ++ .kind .comma :: Slot.separated (next :: rows) := by
  simp [Slot.separated]

@[simp] theorem separated_singleton (row : List Slot) : Slot.separated [row] = row := by
  simp [Slot.separated]

def Each (P : Slot → Prop) (slots : List Slot) : Prop := ∀ slot ∈ slots, P slot

section Each

variable {P : Slot → Prop} {slot : Slot} {slots more : List Slot}

@[simp] theorem each_nil : Each P [] := nofun

@[simp] theorem each_cons : Each P (slot :: slots) ↔ P slot ∧ Each P slots :=
  List.forall_mem_cons

@[simp] theorem each_append : Each P (slots ++ more) ↔ Each P slots ∧ Each P more :=
  List.forall_mem_append

theorem each_separated (h : P (.kind .comma)) {rows : List (List Slot)} :
    Each P (Slot.separated rows) ↔ ∀ row ∈ rows, Each P row := by
  induction rows with
  | nil => simp [Slot.separated]
  | cons row rows ih =>
    cases rows with
    | nil => simp
    | cons next rows => rw [separated_cons_cons, each_append, each_cons, ih]; simp [h]

end Each

mutual

def Expr.written : Expr → List Slot
  | .literal value => [.constant value]
  | .identifier name => [.token name]
  | .grouping inner => .kind .leftParen :: inner.written ++ [.kind .rightParen]
  | .unary operator operand => .token operator :: operand.written
  | .binary left operator right => left.written ++ .token operator :: right.written
  | .logical left operator right => left.written ++ .token operator :: right.written
  | .assignment name value => .token name :: .kind .equal :: value.written
  | .call callee paren arguments =>
    callee.written ++ .kind .leftParen :: Slot.separated (Expr.writtenEach arguments) ++
      [.token paren]

def Expr.writtenEach : List Expr → List (List Slot)
  | [] => []
  | e :: es => e.written :: Expr.writtenEach es

end

theorem Expr.writtenEach_eq_map (es : List Expr) : Expr.writtenEach es = es.map Expr.written := by
  induction es with
  | nil => rfl
  | cons e es ih => simp [Expr.writtenEach, ih]

def Expr.writtenAfter (before : List Slot) : Option Expr → List Slot
  | some e => before ++ e.written
  | none => []

mutual

def Stmt.written : Stmt → List Slot
  | .expression value => value.written ++ [.kind .semicolon]
  | .print keyword value => .token keyword :: value.written ++ [.kind .semicolon]
  | .block body => .kind .leftBrace :: Stmt.writtenAll body ++ [.kind .rightBrace]
  | .conditional condition thenBranch elseBranch =>
    .kind .ifWord :: .kind .leftParen :: condition.written ++ .kind .rightParen ::
      thenBranch.written ++ Stmt.writtenElse elseBranch
  | .whileLoop keyword condition body =>
    .token keyword :: .kind .leftParen :: condition.written ++ .kind .rightParen :: body.written
  | .forLoop keyword initializer condition increment body =>
    .token keyword :: .kind .leftParen :: Stmt.writtenFirst initializer ++
      Expr.writtenAfter [] condition ++ .kind .semicolon ::
      Expr.writtenAfter [] increment ++ .kind .rightParen :: body.written
  | .variableDecl name initializer constant =>
    .kind (if constant then .constWord else .letWord) :: .token name ::
      Expr.writtenAfter [.kind .equal] initializer ++ [.kind .semicolon]
  | .functionDecl name parameters body =>
    .kind .functionWord :: .token name :: .kind .leftParen ::
      Slot.separated (parameters.map fun t => [.token t]) ++ .kind .rightParen ::
      .kind .leftBrace :: Stmt.writtenAll body ++ [.kind .rightBrace]
  | .returnStmt keyword value =>
    .token keyword :: Expr.writtenAfter [] value ++ [.kind .semicolon]

def Stmt.writtenElse : Option Stmt → List Slot
  | some branch => .kind .elseWord :: branch.written
  | none => []

def Stmt.writtenFirst : Option Stmt → List Slot
  | some first => first.written
  | none => [.kind .semicolon]

def Stmt.writtenAll : List Stmt → List Slot
  | [] => []
  | s :: ss => s.written ++ Stmt.writtenAll ss

end

def Program.written (p : Program) : List Slot := Stmt.writtenAll p

namespace Level

def rank : Level → Nat
  | .disjunction => 1
  | .conjunction => 2
  | .equality => 3
  | .comparison => 4
  | .term => 5
  | .factor => 6

def isLogical : Level → Bool
  | .disjunction | .conjunction => true
  | .equality | .comparison | .term | .factor => false

def ofKind? (kind : Kind) : Option Level := all.find? (·.hasOperator kind)

theorem ofKind?_eq_some {kind : Kind} {level : Level} :
    ofKind? kind = some level ↔ level.hasOperator kind = true := by
  cases kind <;> cases level <;> decide

def rankOf (operator : Token) : Nat := ((ofKind? operator.kind).map rank).getD 0

theorem rankOf_eq {level : Level} {operator : Token} (h : level.hasOperator operator.kind = true) :
    rankOf operator = level.rank := by
  simp [rankOf, ofKind?_eq_some.2 h]

theorem rankOf_le (operator : Token) : rankOf operator ≤ 6 := by
  unfold rankOf
  cases ofKind? operator.kind with
  | none => simp
  | some level => cases level <;> simp [rank]

end Level

namespace Expr

/-- How tightly an expression binds: assignment 0, the levels of operators 1 to 6, unary operators
7, calls 8, all else 9. -/
def rank : Expr → Nat
  | .assignment _ _ => 0
  | .binary _ operator _ => Level.rankOf operator
  | .logical _ operator _ => Level.rankOf operator
  | .unary _ _ => 7
  | .call _ _ _ => 8
  | .literal _ => 9
  | .identifier _ => 9
  | .grouping _ => 9

end Expr

/-- Whether operands of these ranks may stand on the two sides of an operator: operators of one
level associate to the left. -/
def Level.Joins (level : Level) (operator : Token) (left right : Nat) : Prop :=
  level.hasOperator operator.kind = true ∧ level.rank ≤ left ∧ level.rank < right

mutual

def Expr.Canonical : Expr → Prop
  | .literal _ => True
  | .identifier name => name.kind = .identifier
  | .grouping inner => inner.Canonical
  | .unary operator operand =>
    (operator.kind = .bang ∨ operator.kind = .minus) ∧ 7 ≤ operand.rank ∧ operand.Canonical
  | .binary left operator right =>
    (∃ level : Level, level.isLogical = false ∧ level.Joins operator left.rank right.rank) ∧
      left.Canonical ∧ right.Canonical
  | .logical left operator right =>
    (∃ level : Level, level.isLogical = true ∧ level.Joins operator left.rank right.rank) ∧
      left.Canonical ∧ right.Canonical
  | .assignment name value => name.kind = .identifier ∧ value.Canonical
  | .call callee paren arguments =>
    8 ≤ callee.rank ∧ callee.Canonical ∧ paren.kind = .rightParen ∧
      arguments.length ≤ Parse.listLimit ∧ Expr.AllCanonical arguments

def Expr.AllCanonical : List Expr → Prop
  | [] => True
  | e :: es => e.Canonical ∧ Expr.AllCanonical es

end

theorem Expr.allCanonical_iff {es : List Expr} :
    Expr.AllCanonical es ↔ ∀ e ∈ es, e.Canonical := by
  induction es with
  | nil => simp [Expr.AllCanonical]
  | cons e es ih => simp [Expr.AllCanonical, ih]

def Expr.CanonicalIfAny (e : Option Expr) : Prop := ∀ x ∈ e, x.Canonical

namespace Stmt

def IsDeclaration : Stmt → Prop
  | .variableDecl _ _ _ => True
  | .functionDecl _ _ _ => True
  | _ => False

/-- What may stand first in the head of a `for`. -/
def IsInitializer : Stmt → Prop
  | .variableDecl _ _ _ => True
  | .expression _ => True
  | _ => False

/-- Whether an `else` that follows would be taken for an `if` at the end of the statement. -/
def EndsOpen : Stmt → Prop
  | .conditional _ _ none => True
  | .conditional _ _ (some branch) => branch.EndsOpen
  | .whileLoop _ _ body => body.EndsOpen
  | .forLoop _ _ _ _ body => body.EndsOpen
  | _ => False

end Stmt

mutual

/-- Canonical statements and declarations; `return` needs a function around it. -/
def Stmt.Canonical (inFunction : Bool) : Stmt → Prop
  | .expression value => value.Canonical
  | .print keyword value => keyword.kind = .printWord ∧ value.Canonical
  | .block body => Stmt.AllCanonical inFunction body
  | .conditional condition thenBranch elseBranch =>
    condition.Canonical ∧ ¬ thenBranch.IsDeclaration ∧ thenBranch.Canonical inFunction ∧
      (elseBranch.isSome = true → ¬ thenBranch.EndsOpen) ∧
      Stmt.BranchCanonical inFunction elseBranch
  | .whileLoop keyword condition body =>
    keyword.kind = .whileWord ∧ condition.Canonical ∧ ¬ body.IsDeclaration ∧
      body.Canonical inFunction
  | .forLoop keyword initializer condition increment body =>
    keyword.kind = .forWord ∧ Stmt.FirstCanonical inFunction initializer ∧
      Expr.CanonicalIfAny condition ∧ Expr.CanonicalIfAny increment ∧
      ¬ body.IsDeclaration ∧ body.Canonical inFunction
  | .variableDecl name initializer constant =>
    name.kind = .identifier ∧ (constant = true → initializer.isSome = true) ∧
      Expr.CanonicalIfAny initializer
  | .functionDecl name parameters body =>
    name.kind = .identifier ∧ (∀ t ∈ parameters, t.kind = .identifier) ∧
      parameters.length ≤ Parse.listLimit ∧ Stmt.AllCanonical true body
  | .returnStmt keyword value =>
    inFunction = true ∧ keyword.kind = .returnWord ∧ Expr.CanonicalIfAny value

def Stmt.BranchCanonical (inFunction : Bool) : Option Stmt → Prop
  | some branch => ¬ branch.IsDeclaration ∧ branch.Canonical inFunction
  | none => True

def Stmt.FirstCanonical (inFunction : Bool) : Option Stmt → Prop
  | some first => first.IsInitializer ∧ first.Canonical inFunction
  | none => True

def Stmt.AllCanonical (inFunction : Bool) : List Stmt → Prop
  | [] => True
  | s :: ss => s.Canonical inFunction ∧ Stmt.AllCanonical inFunction ss

end

def Program.Canonical (p : Program) : Prop := Stmt.AllCanonical false p

mutual

def Expr.nesting : Expr → Nat
  | .literal _ => 0
  | .identifier _ => 0
  | .grouping inner => inner.nesting + 1
  | .unary _ operand => operand.nesting + 1
  | .binary left _ right => max left.nesting right.nesting
  | .logical left _ right => max left.nesting right.nesting
  | .assignment _ value => value.nesting + 1
  | .call callee _ arguments => max callee.nesting (Expr.nestingAll arguments)

def Expr.nestingAll : List Expr → Nat
  | [] => 0
  | e :: es => max (e.nesting + 1) (Expr.nestingAll es)

end

def Expr.nestingIfAny : Option Expr → Nat
  | some e => e.nesting + 1
  | none => 0

mutual

/-- The levels that a statement opens, its own among them; a declaration has none of its own, and
neither has the first clause of a `for`. -/
def Stmt.nesting : Stmt → Nat
  | .expression value => value.nesting + 2
  | .print _ value => value.nesting + 2
  | .block body => Stmt.nestingAll body + 1
  | .conditional condition thenBranch elseBranch =>
    max (condition.nesting + 1) (max thenBranch.nesting (Stmt.nestingIfAny elseBranch)) + 1
  | .whileLoop _ condition body => max (condition.nesting + 1) body.nesting + 1
  | .forLoop _ initializer condition increment body =>
    max (Stmt.nestingFirst initializer) (max (Expr.nestingIfAny condition)
      (max (Expr.nestingIfAny increment) body.nesting)) + 1
  | .variableDecl _ initializer _ => Expr.nestingIfAny initializer
  | .functionDecl _ _ body => Stmt.nestingAll body + 1
  | .returnStmt _ value => Expr.nestingIfAny value + 1

def Stmt.nestingIfAny : Option Stmt → Nat
  | some branch => branch.nesting
  | none => 0

def Stmt.nestingFirst : Option Stmt → Nat
  | some (.expression value) => value.nesting + 1
  | some first => first.nesting
  | none => 0

def Stmt.nestingAll : List Stmt → Nat
  | [] => 0
  | s :: ss => max s.nesting (Stmt.nestingAll ss)

end

def Program.nesting (p : Program) : Nat := Stmt.nestingAll p

end Scriptlet
