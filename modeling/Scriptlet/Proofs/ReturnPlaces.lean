import Scriptlet.Proofs.ProgramReading
import Scriptlet.Proofs.Returns
import Scriptlet.Tree.Nodes

/-!
Where the returns of a program stand. Each statement inside a statement stands inside the body of a
function that is declared there, or outside all of them. What is read as a program has no `return`
outside, and a program without one is executed from its first statement to its last, or to the first
that fails: none of them ends in a return.
-/

namespace Scriptlet

namespace Stmt

def children : Stmt → List Stmt
  | .block body => body
  | .conditional _ thenBranch elseBranch => thenBranch :: elseBranch.toList
  | .whileLoop _ _ body => [body]
  | .forLoop _ initializer _ _ body => initializer.toList ++ [body]
  | .functionDecl _ _ body => body
  | _ => []

def isFunction : Stmt → Bool
  | .functionDecl _ _ _ => true
  | _ => false

/-- The statements inside a statement, itself among them, and whether the body of a function that is
declared there is around them. -/
inductive Part : Stmt → Bool → Stmt → Prop where
  | self (s : Stmt) : Part s false s
  | inside {s child part : Stmt} {inFunction : Bool} (mem : child ∈ s.children)
      (inner : Part child inFunction part) : Part s (s.isFunction || inFunction) part

theorem sizeOf_child {s child : Stmt} (h : child ∈ s.children) : sizeOf child < sizeOf s := by
  cases s with
  | block body =>
    have hsize : sizeOf child < sizeOf body := List.sizeOf_lt_of_mem h
    simp only [Stmt.block.sizeOf_spec]
    omega
  | conditional condition thenBranch elseBranch =>
    cases elseBranch with
    | none =>
      obtain rfl := List.mem_singleton.1 h
      simp only [Stmt.conditional.sizeOf_spec]
      omega
    | some branch =>
      simp only [Stmt.conditional.sizeOf_spec, Option.some.sizeOf_spec]
      rcases List.mem_pair.1 h with rfl | rfl <;> omega
  | whileLoop keyword condition body =>
    obtain rfl := List.mem_singleton.1 h
    simp only [Stmt.whileLoop.sizeOf_spec]
    omega
  | forLoop keyword initializer condition increment body =>
    cases initializer with
    | none =>
      obtain rfl := List.mem_singleton.1 h
      simp only [Stmt.forLoop.sizeOf_spec]
      omega
    | some first =>
      simp only [Stmt.forLoop.sizeOf_spec, Option.some.sizeOf_spec]
      rcases List.mem_pair.1 h with rfl | rfl <;> omega
  | functionDecl name parameters body =>
    have hsize : sizeOf child < sizeOf body := List.sizeOf_lt_of_mem h
    simp only [Stmt.functionDecl.sizeOf_spec]
    omega
  | _ => cases h

@[elab_as_elim]
theorem childInduction {motive : Stmt → Prop}
    (step : ∀ s, (∀ child ∈ s.children, motive child) → motive s) (s : Stmt) : motive s :=
  step s fun child _ => childInduction step child
termination_by sizeOf s
decreasing_by exact sizeOf_child ‹_›

mutual

theorem not_mem_exprNodes (t : Stmt) : (e : Expr) → Node.stmt t ∉ e.nodes
  | .literal _ => by simp [Expr.nodes]
  | .identifier _ => by simp [Expr.nodes]
  | .grouping inner => by simpa [Expr.nodes] using not_mem_exprNodes t inner
  | .unary _ operand => by simpa [Expr.nodes] using not_mem_exprNodes t operand
  | .binary left _ right => by
    simpa [Expr.nodes] using ⟨not_mem_exprNodes t left, not_mem_exprNodes t right⟩
  | .logical left _ right => by
    simpa [Expr.nodes] using ⟨not_mem_exprNodes t left, not_mem_exprNodes t right⟩
  | .assignment _ value => by simpa [Expr.nodes] using not_mem_exprNodes t value
  | .call callee _ arguments => by
    simpa [Expr.nodes] using ⟨not_mem_exprNodes t callee, not_mem_exprNodesOfAll t arguments⟩

theorem not_mem_exprNodesOfAll (t : Stmt) : (es : List Expr) → Node.stmt t ∉ Expr.nodesOfAll es
  | [] => by simp [Expr.nodesOfAll]
  | e :: es => by
    simpa [Expr.nodesOfAll] using ⟨not_mem_exprNodes t e, not_mem_exprNodesOfAll t es⟩

end

theorem not_mem_exprNodesOf? (t : Stmt) : (o : Option Expr) → Node.stmt t ∉ Expr.nodesOf? o
  | some e => not_mem_exprNodes t e
  | none => by simp [Expr.nodesOf?]

theorem mem_nodesOfAll {t : Stmt} {ss : List Stmt} :
    Node.stmt t ∈ nodesOfAll ss ↔ ∃ s ∈ ss, Node.stmt t ∈ s.nodes := by
  induction ss with
  | nil => simp [nodesOfAll]
  | cons s ss ih => simp [nodesOfAll, ih]

theorem mem_nodes_iff_child {t s : Stmt} :
    Node.stmt t ∈ s.nodes ↔ t = s ∨ ∃ child ∈ s.children, Node.stmt t ∈ child.nodes := by
  cases s with
  | conditional condition thenBranch elseBranch =>
    cases elseBranch <;> simp [nodes, children, not_mem_exprNodes]
  | forLoop keyword initializer condition increment body =>
    cases initializer <;> simp [nodes, children, not_mem_exprNodesOf?]
  | _ =>
    simp [nodes, children, not_mem_exprNodes, not_mem_exprNodesOf?, mem_nodesOfAll]

theorem exists_part_of_mem_nodes {t s : Stmt} (h : Node.stmt t ∈ s.nodes) :
    ∃ inFunction, s.Part inFunction t := by
  induction s using childInduction with
  | step s ih =>
    rcases mem_nodes_iff_child.1 h with rfl | ⟨child, hchild, hmem⟩
    · exact ⟨false, .self t⟩
    · obtain ⟨inFunction, hpart⟩ := ih child hchild hmem
      exact ⟨_, .inside hchild hpart⟩

/-- A walk through a statement meets all its parts, and no other statements. -/
theorem mem_nodes_iff {t s : Stmt} :
    Node.stmt t ∈ s.nodes ↔ ∃ inFunction, s.Part inFunction t := by
  constructor
  · exact exists_part_of_mem_nodes
  · rintro ⟨inFunction, hpart⟩
    induction hpart with
    | self s => exact mem_nodes_iff_child.2 (.inl rfl)
    | inside mem _ ih => exact mem_nodes_iff_child.2 (.inr ⟨_, mem, ih⟩)

theorem allCanonical_iff {inFunction : Bool} {ss : List Stmt} :
    Stmt.AllCanonical inFunction ss ↔ ∀ s ∈ ss, s.Canonical inFunction := by
  induction ss with
  | nil => simp [Stmt.AllCanonical]
  | cons s ss ih => simp [Stmt.AllCanonical, ih]

theorem Canonical.child {s child : Stmt} {inFunction : Bool} (h : s.Canonical inFunction)
    (mem : child ∈ s.children) : child.Canonical (inFunction || s.isFunction) := by
  cases s with
  | block body => simpa [isFunction] using allCanonical_iff.1 h child mem
  | conditional condition thenBranch elseBranch =>
    rcases List.mem_cons.1 mem with rfl | hmem
    · simpa [isFunction] using h.2.2.1
    · obtain rfl := Option.mem_toList.1 hmem
      simpa [isFunction] using h.2.2.2.2.2
  | whileLoop keyword condition body =>
    obtain rfl := List.mem_singleton.1 mem
    simpa [isFunction] using h.2.2.2
  | forLoop keyword initializer condition increment body =>
    rcases List.mem_append.1 mem with hmem | hmem
    · obtain rfl := Option.mem_toList.1 hmem
      simpa [isFunction] using h.2.1.2
    · obtain rfl := List.mem_singleton.1 hmem
      simpa [isFunction] using h.2.2.2.2.2
  | functionDecl name parameters body =>
    simpa [isFunction] using allCanonical_iff.1 h.2.2.2 child mem
  | _ => cases mem

/-- The parts of a canonical statement are canonical; the body of a function is around them if it is
around the whole or stands between. -/
theorem Part.canonical {s part : Stmt} {inFunction : Bool} (h : s.Part inFunction part)
    {around : Bool} (hs : s.Canonical around) : part.Canonical (around || inFunction) := by
  induction h generalizing around with
  | self s => simpa using hs
  | inside mem _ ih => simpa [Bool.or_assoc] using ih (hs.child mem)

end Stmt

theorem Grammar.canonical_part {tokens : List Token} {p : Program}
    (h : Grammar.program tokens = .ok p) {s part : Stmt} (hs : s ∈ p) {inFunction : Bool}
    (hpart : s.Part inFunction part) : part.Canonical inFunction := by
  obtain ⟨hcanonical, -⟩ := Grammar.program_eq_ok_iff.1 h
  simpa using hpart.canonical (Stmt.allCanonical_iff.1 hcanonical s hs)

/-- Whether every `return` in a program is inside the body of a function. -/
def Program.ReturnsInFunctions (p : Program) : Prop :=
  ∀ s ∈ p, ∀ inFunction keyword value, s.Part inFunction (.returnStmt keyword value) →
    inFunction = true

namespace Stmt

theorem noReturnAll_iff {ss : List Stmt} : NoReturnAll ss ↔ ∀ s ∈ ss, s.NoReturn := by
  induction ss with
  | nil => simp [NoReturnAll]
  | cons s ss ih => simp [NoReturnAll, ih]

/-- A statement does not return if it is no `return` and its children do not return, those that are
the body of a function apart. -/
theorem noReturn_of_children {s : Stmt} (hself : ∀ keyword value, s ≠ .returnStmt keyword value)
    (h : s.isFunction = false → ∀ child ∈ s.children, child.NoReturn) : s.NoReturn := by
  cases s with
  | block body => exact noReturnAll_iff.2 (h rfl)
  | conditional condition thenBranch elseBranch =>
    refine ⟨h rfl _ List.mem_cons_self, ?_⟩
    cases elseBranch with
    | none => trivial
    | some branch => exact h rfl branch (by simp [children])
  | whileLoop keyword condition body => exact h rfl body (by simp [children])
  | forLoop keyword initializer condition increment body =>
    refine ⟨?_, h rfl body (by simp [children])⟩
    cases initializer with
    | none => trivial
    | some first => exact h rfl first (by simp [children])
  | returnStmt keyword value => exact absurd rfl (hself keyword value)
  | _ => trivial

theorem noReturn_of_parts {s : Stmt}
    (h : ∀ keyword value, ¬s.Part false (.returnStmt keyword value)) : s.NoReturn := by
  induction s using childInduction with
  | step s ih =>
    refine noReturn_of_children ?_ fun hfunction child hchild => ih child hchild ?_
    · rintro keyword value rfl
      exact h keyword value (.self _)
    · intro keyword value hpart
      have hinside := Part.inside hchild hpart
      rw [hfunction] at hinside
      exact h keyword value hinside

end Stmt

theorem Program.ReturnsInFunctions.noReturnAll {p : Program} (h : p.ReturnsInFunctions) :
    Stmt.NoReturnAll p := by
  refine Stmt.noReturnAll_iff.2 fun s hs => Stmt.noReturn_of_parts fun keyword value hpart => ?_
  exact Bool.false_ne_true (h s hs false keyword value hpart)

section Discard

variable {α : Type} {run : Eval α} {m after : Machine}

theorem Eval.discard_ok {x : α} (h : run m = .ok x after) : discard run m = .ok () after := by
  simp only [discard, Functor.mapConst, Function.comp_apply, EStateM.map, h]

theorem Eval.discard_error {e : RuntimeError} (h : run m = .error e after) :
    discard run m = .error e after := by
  simp only [discard, Functor.mapConst, Function.comp_apply, EStateM.map, h]

end Discard

theorem executeAll_eq_forM (host : Host) (call : Caller) {ss : List Stmt}
    (h : Stmt.NoReturnAll ss) : executeAll host call ss = (do
      ss.forM fun s => discard (execute host call s)
      pure .normal : Eval Flow) := by
  induction ss with
  | nil => rw [executeAll, List.forM_eq_forM, List.forM_nil, pure_bind]
  | cons s ss ih =>
    rw [executeAll, List.forM_eq_forM, List.forM_cons, bind_assoc]
    funext m
    cases hs : execute host call s m with
    | error e after => rw [Eval.bind_error hs, Eval.bind_error (Eval.discard_error hs)]
    | ok flow after =>
      obtain rfl := execute_goesOn host call s h.1 m flow after hs
      rw [Eval.bind_ok hs, Eval.bind_ok (Eval.discard_ok hs)]
      exact congrFun (ih h.2) after

/-- All returns of a program that was read are inside functions, and the parts of a program among
which they are sought are all its statements. On every machine, no statement of a program with all
returns inside functions ends in a return, however many calls may nest. So the program is executed
statement by statement up to the first that fails. -/
theorem returns_stay_in_functions :
    (∀ tokens p, Grammar.program tokens = .ok p → Program.ReturnsInFunctions p) ∧
    (∀ (p : Program) (t : Stmt), Node.stmt t ∈ Stmt.nodesOfAll p ↔
      ∃ s ∈ p, ∃ inFunction, s.Part inFunction t) ∧
    ∀ p : Program, p.ReturnsInFunctions → ∀ host : Host,
      (∀ s ∈ p, ∀ calls m value after,
        execute host (callValue host calls) s m ≠ .ok (.returning value) after) ∧
      host.interpret p = Eval.asProgram (do
        p.forM fun s => discard (execute host host.call s)
        pure .normal) := by
  refine ⟨fun tokens p hread s hs inFunction keyword value hpart => ?_, fun p t => ?_,
    fun p hp host => ⟨fun s hs calls m value after hrun => ?_, ?_⟩⟩
  · exact (Grammar.canonical_part hread hs hpart).1
  · simp only [Stmt.mem_nodesOfAll, Stmt.mem_nodes_iff]
  · have hflow := execute_goesOn host (callValue host calls) s
      (Stmt.noReturnAll_iff.1 hp.noReturnAll s hs) m _ after hrun
    cases hflow
  · exact congrArg Eval.asProgram (executeAll_eq_forM host _ hp.noReturnAll)

/-- A function returns out of a block in a loop, and the statement that calls it does not. -/
theorem returns_stay_in_functions_return_from_loop :
    let t := fun kind lexeme => (⟨kind, lexeme, none, .first⟩ : Token)
    let tokens := [t .functionWord "function", t .identifier "f", t .leftParen "(",
      t .rightParen ")", t .leftBrace "\x7b", t .whileWord "while", t .leftParen "(",
      t .trueWord "true", t .rightParen ")", t .leftBrace "\x7b", t .returnWord "return",
      t .semicolon ";", t .rightBrace "\x7d", t .rightBrace "\x7d", t .identifier "f",
      t .leftParen "(", t .rightParen ")", t .semicolon ";"]
    let leave : Stmt := .returnStmt (t .returnWord "return") none
    let loop : Stmt :=
      .whileLoop (t .whileWord "while") (.literal (.boolean true)) (.block [leave])
    let call : Stmt := .expression (.call (.identifier (t .identifier "f")) (t .rightParen ")") [])
    let p : Program := [.functionDecl (t .identifier "f") [] [loop], call]
    let host := Host.standard {} fun _ => none
    let run := execute host host.call
    Grammar.program tokens = .ok p ∧ p.ReturnsInFunctions ∧ Node.stmt leave ∈ Stmt.nodesOfAll p ∧
      (∀ m value after, run call m ≠ .ok (.returning value) after) ∧
      host.interpret p = Eval.asProgram (do
        p.forM fun s => discard (run s)
        pure .normal) := by
  intro t tokens leave loop call p host run
  obtain ⟨hread, hnodes, hruns⟩ := returns_stay_in_functions
  have hcanonical : Program.Canonical p := by
    simp [p, call, loop, leave, t, Program.Canonical, Stmt.AllCanonical, Stmt.Canonical,
      Expr.CanonicalIfAny, Expr.Canonical, Expr.AllCanonical, Expr.rank, Stmt.IsDeclaration]
  have hp : Grammar.program tokens = .ok p :=
    Grammar.program_eq_ok_iff.2 ⟨hcanonical, by decide, by decide⟩
  have hinside := hread tokens p hp
  have hpart : Stmt.Part (.functionDecl (t .identifier "f") [] [loop]) true leave :=
    .inside List.mem_cons_self
      (.inside List.mem_cons_self (.inside List.mem_cons_self (.self leave)))
  obtain ⟨hgoes, horder⟩ := hruns p hinside host
  exact ⟨hp, hinside, (hnodes p leave).2 ⟨_, List.mem_cons_self, true, hpart⟩,
    hgoes call (by simp [p]) _, horder⟩

end Scriptlet
