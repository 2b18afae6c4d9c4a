import Scriptlet.Proofs.Placing
import Scriptlet.Proofs.Spelling

/-!
The canonical layout of a program is read as that program again. The text of a tree spells its
slots, whatever its constants are, except that the text of an infinite number is a name.
-/

namespace Scriptlet

open Lexeme

/-- What the text of a constant is read as. -/
def Constant.respelled : Constant → Expr
  | .number x =>
    if x.isFinite then .literal (.number x)
    else .identifier ⟨.identifier, "inf", none, .first⟩
  | value => .literal value

theorem recasting_respelled : Recasting Constant.respelled := by
  have cases : ∀ value, Constant.respelled value = .literal value ∨
      Constant.respelled value = .identifier ⟨.identifier, "inf", none, .first⟩ := by
    intro value
    unfold Constant.respelled
    split
    · split
      · exact .inl rfl
      · exact .inr rfl
    · exact .inl rfl
  constructor <;> intro value <;> rcases cases value with h | h <;> rw [h]
  all_goals simp [Expr.rank, Expr.Canonical, Expr.nesting]

/-- Whether the text of a constant is read as it should be. -/
def Constant.Spelt : Constant → Prop
  | .number x =>
    (x.isFinite = true → (⟨.number, (Number.text x).toList⟩ : Lexeme).Proper ∧
      (Decimal.ofChars (Number.text x).toList).toFloat = x) ∧
    (x.isFinite = false → Number.text x = "inf")
  | .string s => ∀ c ∈ s.toList, c ≠ '"'
  | .nil => True
  | .boolean _ => True

theorem Constant.Spelt.text {value : Constant} (h : value.Spelt) (layout : Layout) :
    value.respelled.text layout = value.text := by
  cases value with
  | number x =>
    cases hx : x.isFinite with
    | true => simp [Constant.respelled, hx, Expr.text]
    | false => simp [Constant.respelled, hx, Expr.text, Constant.text, h.2 hx]
  | _ => rfl

theorem spells_number {x : Float} (h : (Constant.number x).Spelt) :
    Spells (Number.text x).toList (Constant.number x).respelled.written Delimited := by
  cases hx : x.isFinite with
  | true =>
    obtain ⟨proper, hback⟩ := h.1 hx
    simp only [Constant.respelled, hx, if_true, Expr.written]
    exact (spells_lexeme proper rfl (.constant (.number x))
      (by simp [Constant.ofToken?, hback])).mono fun _ hr => closes_of_delimited _ hr
  | false =>
    rw [h.2 hx]
    simp only [Constant.respelled, hx]
    exact spells_word 'i' ['n', 'f'] (by decide) (.token _) (by decide)

theorem spells_string {s : String} (h : (Constant.string s).Spelt) :
    Spells (Constant.string s).text.toList [.constant (.string s)] Delimited := by
  have hchars : (Constant.string s).text.toList = '"' :: s.toList ++ ['"'] := by
    simp [Constant.text]
  rw [hchars]
  refine (spells_lexeme (.string h) rfl (.constant (.string s)) ?_).mono fun _ _ => trivial
  simp [Constant.ofToken?, Lexeme.inner]

theorem Constant.Spelt.spells {value : Constant} (h : value.Spelt) :
    Spells value.text.toList value.respelled.written Delimited := by
  cases value with
  | nil => exact spells_word 'n' ['i', 'l'] (by decide) _ rfl
  | boolean value =>
    cases value with
    | true => exact spells_word 't' ['r', 'u', 'e'] (by decide) _ rfl
    | false => exact spells_word 'f' ['a', 'l', 's', 'e'] (by decide) _ rfl
  | number x => exact spells_number h
  | string s => exact spells_string h

def Slot.Spelt : Slot → Prop
  | .kind _ => True
  | .token kept => kept.Scanned
  | .constant value => value.Spelt

/-- The text of an expression does not begin with an equals sign, since no expression does. -/
theorem head_ne_equal {cs : List Char} {e : Expr} (h : Spells cs e.written Delimited)
    (hc : e.Canonical) {rest : List Char} (hr : Delimited rest) :
    ∀ d ∈ (cs ++ rest).head?, d ≠ '=' := by
  rintro d hd rfl
  obtain ⟨ts, hts, hs⟩ := h rest hr
  obtain ⟨t, more, rfl, ht⟩ := Expr.starts hc hts
  obtain ⟨tail, htail⟩ : ∃ tail, cs ++ rest = '=' :: tail := by
    cases hcs : cs ++ rest with
    | nil => simp [hcs] at hd
    | cons c tail => simp_all
  obtain ⟨u, others, hu, hk⟩ := scanned_equal tail
  rw [htail, hu] at hs
  obtain rfl : u = t := by simpa using (List.cons.inj hs).1
  rcases hk with hk | hk <;> rw [hk] at ht <;> cases ht

mutual

theorem Expr.spells : (e : Expr) → e.Canonical → Each Slot.Spelt e.written →
    Spells (e.text .canonical).toList (e.recast Constant.respelled).written Delimited
  | .literal value, _, h => (each_cons.1 h).1.spells
  | .identifier name, _, h => (each_cons.1 h).1.spells
  | .grouping inner, hc, h => by
    simp only [Expr.written, List.cons_append, each_cons, each_append] at h
    have key := spells_leftParen.andThen ((inner.spells hc h.2.1).before spells_rightParen
      (by simp [Delimited]) (by simp))
    simpa [Expr.text, Expr.recast, Expr.written] using key.mono fun _ _ => trivial
  | .unary operator operand, hc, h => by
    simp only [Expr.written, each_cons] at h
    have hoperand := operand.spells hc.2.2 h.2
    have key := (h.1.spells_unary hc.1).append hoperand fun rest hr =>
      head_ne_equal hoperand ((operand.canonical_recast recasting_respelled).2 hc.2.2) hr
    simpa [Expr.text, Expr.recast, Expr.written, Layout.group] using key
  | .binary left operator right, hc, h => by
    simp only [Expr.written, each_cons, each_append] at h
    have key := (left.spells hc.2.1 h.1).spaced (h.2.1.spells.spaced (right.spells hc.2.2 h.2.2))
    simpa [Expr.text, Expr.recast, Expr.written, Layout.group] using key
  | .logical left operator right, hc, h => by
    simp only [Expr.written, each_cons, each_append] at h
    have key := (left.spells hc.2.1 h.1).spaced (h.2.1.spells.spaced (right.spells hc.2.2 h.2.2))
    simpa [Expr.text, Expr.recast, Expr.written, Layout.group] using key
  | .assignment name value, hc, h => by
    simp only [Expr.written, each_cons] at h
    have key := h.1.spells.spaced (spells_equal.spaced (value.spells hc.2 h.2.2))
    simpa [Expr.text, Expr.recast, Expr.written, Layout.group] using key
  | .call callee paren arguments, hc, h => by
    simp only [Expr.written, List.append_assoc, each_append, List.cons_append, each_cons,
      each_separated (P := Slot.Spelt) trivial] at h
    obtain ⟨_, hcallee, hp, _, hes⟩ := hc
    have harguments := (Expr.spells_each arguments hes h.2.2.1).before
      (h.2.2.2.1.spells_rightParen hp) (by simp [Delimited]) (by simp)
    have key := (callee.spells hcallee h.1).before (spells_leftParen.andThen harguments)
      (by simp [Delimited]) (by simp)
    simpa [Expr.text, Expr.recast, Expr.written] using key.mono fun _ _ => trivial

theorem Expr.spells_each : (es : List Expr) → Expr.AllCanonical es →
    (∀ row ∈ Expr.writtenEach es, Each Slot.Spelt row) →
    Spells (", ".intercalate (Expr.texts .canonical es)).toList
      (Slot.separated (Expr.writtenEach (Expr.recastAll Constant.respelled es))) Delimited
  | [], _, _ => spells_nil _
  | [e], hc, h => by
    simp only [Expr.writtenEach, List.forall_mem_cons] at h
    simpa [Expr.texts, Expr.recastAll, Expr.writtenEach] using e.spells hc.1 h.1
  | e :: next :: es, hc, h => by
    simp only [Expr.writtenEach, List.forall_mem_cons] at h
    have hrest := Expr.spells_each (next :: es) hc.2
      (by simpa [Expr.writtenEach] using ⟨h.2.1, h.2.2⟩)
    have key := (e.spells hc.1 h.1).before
      (spells_comma.andThen ((spells_blank (c := ' ') (by decide)).andThen hrest))
      (by simp [Delimited]) (by simp)
    simp only [Expr.texts, String.intercalate_cons_cons, String.toList_append, Expr.recastAll,
      Expr.writtenEach, separated_cons_cons]
    simpa [Expr.texts, Expr.recastAll, Expr.writtenEach] using key

end

theorem Expr.spells_after {before : List Slot} {o : Option Expr}
    {text : String} (hlead : Spells text.toList before Free)
    (hc : Expr.CanonicalIfAny o) (h : Each Slot.Spelt (Expr.writtenAfter before o)) :
    Spells (Expr.textOf? .canonical text o).toList
      (Expr.writtenAfter before (o.map (Expr.recast Constant.respelled))) Delimited := by
  cases o with
  | none => exact spells_nil _
  | some e =>
    have key := hlead.andThen (e.spells (hc e rfl) (each_append.1 h).2)
    simpa [Expr.textOf?, Expr.writtenAfter] using key

theorem delimited_after {text : String} (htext : text.toList.head? = some ' ') (o : Option Expr)
    (rest : List Char) : Delimited ((Expr.textOf? .canonical text o).toList ++ ';' :: rest) := by
  cases o with
  | none => simp [Expr.textOf?, Delimited]
  | some e => simp [Expr.textOf?, Delimited, List.head?_append, htext]

theorem spells_space : Spells " ".toList [] Free := spells_blank (by decide)

theorem spells_becomes : Spells " = ".toList [.kind .equal] Free :=
  (spells_blank (c := ' ') (by decide)).andThen (spells_equal.spaced (spells_nil _))

theorem spells_indent (level : Nat) : Spells (Layout.indent level).toList [] Free := by
  have spaces : ∀ n, Spells (List.replicate n ' ') [] Free := by
    intro n
    induction n with
    | zero => exact spells_nil _
    | succ n ih => exact (spells_blank (by decide)).andThen ih
  simpa [Layout.indent] using spaces (2 * level)

theorem spells_braces {lines : String} {slots : List Slot} (h : Spells lines.toList slots Free)
    (level : Nat) :
    Spells ("\x7b\n" ++ lines ++ Layout.indent level ++ "\x7d").toList
      (.kind .leftBrace :: slots ++ [.kind .rightBrace]) Free := by
  have key := spells_leftBrace.andThen ((spells_blank (c := '\n') (by decide)).andThen
    (h.andThen ((spells_indent level).andThen spells_rightBrace)))
  simpa using key

theorem spells_parameters : (parameters : List Token) →
    Each Slot.Spelt (Slot.separated (parameters.map fun t => [.token t])) →
    Spells (", ".intercalate (parameters.map Token.lexeme)).toList
      (Slot.separated ((parameters.map Token.unplaced).map fun t => [.token t])) Delimited
  | [], _ => spells_nil _
  | [t], h => by
    simp only [List.map_cons, List.map_nil, separated_singleton, each_cons] at h
    simpa using h.1.spells
  | t :: next :: parameters, h => by
    simp only [List.map_cons, separated_cons_cons, each_append, each_cons] at h
    have hrest := spells_parameters (next :: parameters) h.2.2
    have key := h.1.1.spells.before
      (spells_comma.andThen ((spells_blank (c := ' ') (by decide)).andThen hrest))
      (by simp [Delimited]) (by simp)
    simp only [List.map_cons, String.intercalate_cons_cons, String.toList_append,
      separated_cons_cons]
    simpa using key

theorem spells_if : Spells "if".toList [.kind .ifWord] Delimited :=
  spells_word 'i' ['f'] (by decide) _ rfl

theorem spells_elseWord : Spells "else".toList [.kind .elseWord] Delimited :=
  spells_word 'e' ['l', 's', 'e'] (by decide) _ rfl

theorem spells_function : Spells "function".toList [.kind .functionWord] Delimited :=
  spells_word 'f' ['u', 'n', 'c', 't', 'i', 'o', 'n'] (by decide) _ rfl

theorem spells_introduces (constant : Bool) :
    Spells (if constant then "const" else "let").toList
      [.kind (if constant then .constWord else .letWord)] Delimited := by
  cases constant with
  | true => exact spells_word 'c' ['o', 'n', 's', 't'] (by decide) _ rfl
  | false => exact spells_word 'l' ['e', 't'] (by decide) _ rfl

def Stmt.textElse (level : Nat) : Option Stmt → List Char
  | some branch => (" else " ++ branch.text .canonical level).toList
  | none => []

def Stmt.textFirst (level : Nat) : Option Stmt → List Char
  | some first => (first.text .canonical level).toList
  | none => [';']

mutual

theorem Stmt.spells (level : Nat) (inFunction : Bool) : (s : Stmt) → s.Canonical inFunction →
    Each Slot.Spelt s.written →
    Spells (s.text .canonical level).toList (s.recast Constant.respelled).written Free
  | .expression value, hc, h => by
    simp only [Stmt.written, each_append] at h
    have key := (value.spells hc h.1).before spells_semicolon (by simp [Delimited]) (by simp)
    simpa [Stmt.text, Stmt.recast, Stmt.written] using key
  | .print keyword value, hc, h => by
    simp only [Stmt.written, List.cons_append, each_cons, each_append] at h
    have hkeyword := h.1.spells_keyword (.inl hc.1)
    have key := hkeyword.spaced ((value.spells hc.2 h.2.1).before spells_semicolon
      (by simp [Delimited]) (by simp))
    rw [hc.1] at key
    simpa [Stmt.text, Stmt.recast, Stmt.written, Kind.word] using key
  | .block body, hc, h => by
    simp only [Stmt.written, List.cons_append, each_cons, each_append] at h
    exact spells_braces (Stmt.spells_lines (level + 1) inFunction body hc h.2.1) level
  | .conditional condition thenBranch elseBranch, hc, h => by
    simp only [Stmt.written, List.cons_append, each_cons, each_append] at h
    obtain ⟨hcondition, _, hthen, _, helse⟩ := hc
    obtain ⟨_, _, ⟨hcs, _, hts⟩, hes⟩ := h
    have hbranch := spells_rightParen.andThen ((spells_blank (c := ' ') (by decide)).andThen
      ((thenBranch.spells level inFunction hthen hts).andThen
        (Stmt.spells_else level inFunction elseBranch helse hes)))
    have key := spells_if.spaced (spells_leftParen.andThen
      ((condition.spells hcondition hcs).before hbranch (by simp [Delimited]) (by simp)))
    cases elseBranch <;>
      simpa [Stmt.text, Stmt.recast, Stmt.recastIfAny, Stmt.written, Stmt.textElse] using key
  | .whileLoop keyword condition body, hc, h => by
    simp only [Stmt.written, List.cons_append, each_cons, each_append] at h
    obtain ⟨hk, hc, _, hb⟩ := hc
    have hkeyword := h.1.spells_keyword (.inr (.inl hk))
    have hbody := spells_rightParen.andThen ((spells_blank (c := ' ') (by decide)).andThen
      (body.spells level inFunction hb h.2.2.2.2))
    have key := hkeyword.spaced (spells_leftParen.andThen
      ((condition.spells hc h.2.2.1).before hbody (by simp [Delimited]) (by simp)))
    rw [hk] at key
    simpa [Stmt.text, Stmt.recast, Stmt.written, Kind.word] using key
  | .forLoop keyword initializer condition increment body, hc, h => by
    simp only [Stmt.written, List.cons_append, each_cons, each_append] at h
    obtain ⟨hk, hf, hcond, hinc, _, hb⟩ := hc
    obtain ⟨hks, _, ⟨⟨hfs, hcs⟩, _, his⟩, _, hbs⟩ := h
    have hbody := spells_rightParen.andThen ((spells_blank (c := ' ') (by decide)).andThen
      (body.spells level inFunction hb hbs))
    have hincrement := spells_semicolon.andThen
      ((Expr.spells_after spells_space hinc his).before hbody (by simp [Delimited]) (by simp))
    have hhead := (Stmt.spells_first level inFunction initializer hf hfs).andThen
      ((Expr.spells_after spells_space hcond hcs).before hincrement (by simp [Delimited])
        (by simp))
    have key := (hks.spells_keyword (.inr (.inr (.inl hk)))).spaced
      (spells_leftParen.andThen hhead)
    rw [hk] at key
    cases initializer <;>
      simpa [Stmt.text, Stmt.recast, Stmt.recastIfAny, Stmt.written, Stmt.textFirst, Kind.word]
        using key
  | .variableDecl name initializer constant, hc, h => by
    simp only [Stmt.written, List.cons_append, each_cons, each_append] at h
    have hvalue := (Expr.spells_after spells_becomes hc.2.2 h.2.2.1).before spells_semicolon
      (by simp [Delimited]) (by simp)
    have key := (spells_introduces constant).spaced
      (h.2.1.spells.before hvalue (delimited_after rfl _ _) (by simp))
    cases constant <;> simpa [Stmt.text, Stmt.recast, Stmt.written] using key
  | .functionDecl name parameters body, hc, h => by
    simp only [Stmt.written, List.cons_append, each_cons, each_append] at h
    obtain ⟨_, hname, _, ⟨hparameters, _, _, hbody⟩, _⟩ := h
    have hblock := spells_rightParen.andThen ((spells_blank (c := ' ') (by decide)).andThen
      (spells_braces (Stmt.spells_lines (level + 1) true body hc.2.2.2 hbody) level))
    have hhead := spells_leftParen.andThen
      ((spells_parameters parameters hparameters).before hblock (by simp [Delimited]) (by simp))
    have key := spells_function.spaced (hname.spells.before hhead (by simp [Delimited]) (by simp))
    simpa [Stmt.text, Stmt.recast, Stmt.written] using key
  | .returnStmt keyword value, hc, h => by
    simp only [Stmt.written, List.cons_append, each_cons, each_append] at h
    have hvalue := (Expr.spells_after spells_space hc.2.2 h.2.1).before spells_semicolon
      (by simp [Delimited]) (by simp)
    have key := (h.1.spells_keyword (.inr (.inr (.inr hc.2.1)))).before hvalue
      (delimited_after rfl _ _) (by simp)
    rw [hc.2.1] at key
    simpa [Stmt.text, Stmt.recast, Stmt.written, Kind.word] using key

theorem Stmt.spells_else (level : Nat) (inFunction : Bool) : (o : Option Stmt) →
    Stmt.BranchCanonical inFunction o → Each Slot.Spelt (Stmt.writtenElse o) →
    Spells (Stmt.textElse level o)
      (Stmt.writtenElse (Stmt.recastIfAny Constant.respelled o)) Free
  | none, _, _ => spells_nil _
  | some branch, hc, h => by
    have key := (spells_blank (c := ' ') (by decide)).andThen
      (spells_elseWord.spaced (branch.spells level inFunction hc.2 (each_cons.1 h).2))
    simpa [Stmt.textElse, Stmt.recastIfAny, Stmt.writtenElse] using key

theorem Stmt.spells_first (level : Nat) (inFunction : Bool) : (o : Option Stmt) →
    Stmt.FirstCanonical inFunction o → Each Slot.Spelt (Stmt.writtenFirst o) →
    Spells (Stmt.textFirst level o)
      (Stmt.writtenFirst (Stmt.recastIfAny Constant.respelled o)) Free
  | none, _, _ => spells_semicolon
  | some first, hc, h => first.spells level inFunction hc.2 h

theorem Stmt.spells_lines (level : Nat) (inFunction : Bool) : (ss : List Stmt) →
    Stmt.AllCanonical inFunction ss → Each Slot.Spelt (Stmt.writtenAll ss) →
    Spells (Stmt.lines .canonical level ss).toList
      (Stmt.writtenAll (Stmt.recastAll Constant.respelled ss)) Free
  | [], _, _ => spells_nil _
  | s :: ss, hc, h => by
    simp only [Stmt.writtenAll, each_append] at h
    have hline := (spells_blank (c := '\n') (by decide)).andThen
      (Stmt.spells_lines level inFunction ss hc.2 h.2)
    have key := (spells_indent level).andThen
      ((s.spells level inFunction hc.1 h.1).andThen hline)
    simpa [Stmt.lines, Stmt.recastAll, Stmt.writtenAll] using key

end

end Scriptlet
