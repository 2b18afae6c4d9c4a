import Scriptlet.Proofs.ProgramReading
import Scriptlet.Proofs.Recasting
import Scriptlet.Proofs.Renaming

/-!
Renamed trees. A renaming that keeps groupings changes only the tokens of a tree, so the grammar
reads a row of tokens in other places as the same tree with its tokens in those places. A tree stays
as it is if its tokens stay, and places that are all the same are no places at all.
-/

namespace Scriptlet

variable {r : Renaming}

def Slot.rename (r : Renaming) : Slot → Slot
  | .kind wanted => .kind wanted
  | .token kept => .token (r.token kept)
  | .constant value => .constant value

theorem map_rename_separated (r : Renaming) (rows : List (List Slot)) :
    (Slot.separated rows).map (Slot.rename r) =
      Slot.separated (rows.map (·.map (Slot.rename r))) := by
  induction rows with
  | nil => simp [Slot.separated]
  | cons row rows ih =>
    cases rows with
    | nil => simp
    | cons next rows =>
      rw [separated_cons_cons, List.map_append, List.map_cons, ih]
      simp [separated_cons_cons, Slot.rename]

mutual

theorem Expr.written_rename (hr : r.grouped = true) :
    (e : Expr) → (e.rename r).written = e.written.map (Slot.rename r)
  | .literal value => rfl
  | .identifier _ => rfl
  | .grouping inner => by
    simp [Expr.rename, Renaming.group, hr, Expr.written, Slot.rename, inner.written_rename hr]
  | .unary _ operand => by simp [Expr.rename, Expr.written, Slot.rename, operand.written_rename hr]
  | .binary left _ right => by
    simp [Expr.rename, Expr.written, Slot.rename, left.written_rename hr, right.written_rename hr]
  | .logical left _ right => by
    simp [Expr.rename, Expr.written, Slot.rename, left.written_rename hr, right.written_rename hr]
  | .assignment _ value => by simp [Expr.rename, Expr.written, Slot.rename, value.written_rename hr]
  | .call callee _ arguments => by
    simp [Expr.rename, Expr.written, Slot.rename, callee.written_rename hr, map_rename_separated,
      Expr.writtenEach_rename hr arguments]

theorem Expr.writtenEach_rename (hr : r.grouped = true) : (es : List Expr) →
    Expr.writtenEach (Expr.renameAll r es) = (Expr.writtenEach es).map (·.map (Slot.rename r))
  | [] => rfl
  | e :: es => by
    simp [Expr.renameAll, Expr.writtenEach, e.written_rename hr, Expr.writtenEach_rename hr es]

end

theorem Expr.writtenAfter_rename (hr : r.grouped = true) (before : List Slot)
    (hbefore : before.map (Slot.rename r) = before) (o : Option Expr) :
    Expr.writtenAfter before (o.map (Expr.rename r)) =
      (Expr.writtenAfter before o).map (Slot.rename r) := by
  cases o with
  | none => rfl
  | some e => simp [Expr.writtenAfter, e.written_rename hr, hbefore]

mutual

theorem Stmt.written_rename (hr : r.grouped = true) :
    (s : Stmt) → (s.rename r).written = s.written.map (Slot.rename r)
  | .expression value => by simp [Stmt.rename, Stmt.written, Slot.rename, value.written_rename hr]
  | .print _ value => by simp [Stmt.rename, Stmt.written, Slot.rename, value.written_rename hr]
  | .block body => by simp [Stmt.rename, Stmt.written, Slot.rename, Stmt.writtenAll_rename hr body]
  | .conditional condition thenBranch elseBranch => by
    simp [Stmt.rename, Stmt.written, Slot.rename, condition.written_rename hr,
      thenBranch.written_rename hr, Stmt.writtenElse_rename hr elseBranch]
  | .whileLoop _ condition body => by
    simp [Stmt.rename, Stmt.written, Slot.rename, condition.written_rename hr,
      body.written_rename hr]
  | .forLoop _ initializer condition increment body => by
    simp [Stmt.rename, Stmt.written, Slot.rename, Expr.writtenAfter_rename hr [] rfl,
      body.written_rename hr, Stmt.writtenFirst_rename hr initializer]
  | .variableDecl _ initializer constant => by
    simp [Stmt.rename, Stmt.written, Slot.rename,
      Expr.writtenAfter_rename hr [.kind .equal] rfl]
  | .functionDecl _ parameters body => by
    simp [Stmt.rename, Stmt.written, Slot.rename, map_rename_separated,
      Stmt.writtenAll_rename hr body, Function.comp_def]
  | .returnStmt _ value => by
    simp [Stmt.rename, Stmt.written, Slot.rename, Expr.writtenAfter_rename hr [] rfl]

theorem Stmt.writtenElse_rename (hr : r.grouped = true) : (o : Option Stmt) →
    Stmt.writtenElse (Stmt.renameIfAny r o) = (Stmt.writtenElse o).map (Slot.rename r)
  | none => rfl
  | some branch => by
    simp [Stmt.renameIfAny, Stmt.writtenElse, Slot.rename, branch.written_rename hr]

theorem Stmt.writtenFirst_rename (hr : r.grouped = true) : (o : Option Stmt) →
    Stmt.writtenFirst (Stmt.renameIfAny r o) = (Stmt.writtenFirst o).map (Slot.rename r)
  | none => rfl
  | some first => by simp [Stmt.renameIfAny, Stmt.writtenFirst, first.written_rename hr]

theorem Stmt.writtenAll_rename (hr : r.grouped = true) : (ss : List Stmt) →
    Stmt.writtenAll (Stmt.renameAll r ss) = (Stmt.writtenAll ss).map (Slot.rename r)
  | [] => rfl
  | s :: ss => by
    simp [Stmt.renameAll, Stmt.writtenAll, s.written_rename hr, Stmt.writtenAll_rename hr ss]

end

theorem Slot.Holds.rename {slot : Slot} {t : Token} (h : slot.Holds t) :
    (slot.rename r).Holds (r.token t) := by
  cases slot with
  | kind wanted => exact h
  | token kept => exact congrArg r.token h
  | constant value => exact h

theorem Fits.rename {slots : List Slot} {tokens : List Token} (h : Fits slots tokens) :
    Fits (slots.map (Slot.rename r)) (tokens.map r.token) :=
  List.forall₂_map_left_iff.2 (List.forall₂_map_right_iff.2 (h.imp fun _ _ => Slot.Holds.rename))

/-- Whether a token that a tree keeps stays in its place. -/
def Slot.Stays (r : Renaming) : Slot → Prop
  | .token kept => r.token kept = kept
  | _ => True

mutual

theorem Expr.rename_self (hr : r.grouped = true) :
    (e : Expr) → Each (Slot.Stays r) e.written → e.rename r = e
  | .literal _, _ => rfl
  | .identifier name, h => by
    simp only [Expr.written, each_cons, Slot.Stays] at h
    rw [Expr.rename, h.1]
  | .grouping inner, h => by
    simp only [Expr.written, List.cons_append, each_cons, each_append] at h
    simp [Expr.rename, Renaming.group, hr, inner.rename_self hr h.2.1]
  | .unary operator operand, h => by
    simp only [Expr.written, each_cons, Slot.Stays] at h
    rw [Expr.rename, h.1, operand.rename_self hr h.2]
  | .binary left operator right, h => by
    simp only [Expr.written, each_append, each_cons, Slot.Stays] at h
    rw [Expr.rename, left.rename_self hr h.1, h.2.1, right.rename_self hr h.2.2]
  | .logical left operator right, h => by
    simp only [Expr.written, each_append, each_cons, Slot.Stays] at h
    rw [Expr.rename, left.rename_self hr h.1, h.2.1, right.rename_self hr h.2.2]
  | .assignment name value, h => by
    simp only [Expr.written, each_cons, Slot.Stays] at h
    rw [Expr.rename, h.1, value.rename_self hr h.2.2]
  | .call callee paren arguments, h => by
    simp only [Expr.written, List.append_assoc, each_append, List.cons_append, each_cons,
      each_separated (P := Slot.Stays r) trivial, Slot.Stays] at h
    rw [Expr.rename, callee.rename_self hr h.1, h.2.2.2.1,
      Expr.renameAll_self hr arguments h.2.2.1]

theorem Expr.renameAll_self (hr : r.grouped = true) :
    (es : List Expr) → (∀ row ∈ Expr.writtenEach es, Each (Slot.Stays r) row) →
      Expr.renameAll r es = es
  | [], _ => rfl
  | e :: es, h => by
    simp only [Expr.writtenEach, List.forall_mem_cons] at h
    rw [Expr.renameAll, e.rename_self hr h.1, Expr.renameAll_self hr es h.2]

end

theorem Expr.map_rename_self (hr : r.grouped = true) {before : List Slot} {o : Option Expr}
    (h : Each (Slot.Stays r) (Expr.writtenAfter before o)) : o.map (Expr.rename r) = o := by
  cases o with
  | none => rfl
  | some e => exact congrArg some (e.rename_self hr (each_append.1 h).2)

theorem map_token_self {parameters : List Token}
    (h : Each (Slot.Stays r) (Slot.separated (parameters.map fun t => [.token t]))) :
    parameters.map r.token = parameters := by
  rw [each_separated (P := Slot.Stays r) trivial] at h
  refine (List.map_congr_left fun t ht => ?_).trans (List.map_id _)
  exact h [.token t] (List.mem_map_of_mem ht) _ (List.mem_singleton_self _)

mutual

theorem Stmt.rename_self (hr : r.grouped = true) :
    (s : Stmt) → Each (Slot.Stays r) s.written → s.rename r = s
  | .expression value, h => by
    simp only [Stmt.written, each_append] at h
    rw [Stmt.rename, value.rename_self hr h.1]
  | .print keyword value, h => by
    simp only [Stmt.written, List.cons_append, each_cons, each_append, Slot.Stays] at h
    rw [Stmt.rename, h.1, value.rename_self hr h.2.1]
  | .block body, h => by
    simp only [Stmt.written, List.cons_append, each_cons, each_append] at h
    rw [Stmt.rename, Stmt.renameAll_self hr body h.2.1]
  | .conditional condition thenBranch elseBranch, h => by
    simp only [Stmt.written, List.cons_append, List.append_assoc, each_cons, each_append] at h
    rw [Stmt.rename, condition.rename_self hr h.2.2.1, thenBranch.rename_self hr h.2.2.2.2.1,
      Stmt.renameElse_self hr elseBranch h.2.2.2.2.2]
  | .whileLoop keyword condition body, h => by
    simp only [Stmt.written, List.cons_append, each_cons, each_append, Slot.Stays] at h
    rw [Stmt.rename, h.1, condition.rename_self hr h.2.2.1, body.rename_self hr h.2.2.2.2]
  | .forLoop keyword initializer condition increment body, h => by
    simp only [Stmt.written, List.cons_append, List.append_assoc, each_cons, each_append,
      Slot.Stays] at h
    obtain ⟨hkeyword, -, hfirst, hcondition, -, hincrement, -, hbody⟩ := h
    rw [Stmt.rename, hkeyword, Stmt.renameFirst_self hr initializer hfirst,
      Expr.map_rename_self hr hcondition, Expr.map_rename_self hr hincrement,
      body.rename_self hr hbody]
  | .variableDecl name initializer constant, h => by
    simp only [Stmt.written, List.cons_append, each_cons, each_append, Slot.Stays] at h
    rw [Stmt.rename, h.2.1, Expr.map_rename_self hr h.2.2.1]
  | .functionDecl name parameters body, h => by
    simp only [Stmt.written, List.cons_append, List.append_assoc, each_cons, each_append,
      Slot.Stays] at h
    rw [Stmt.rename, h.2.1, map_token_self h.2.2.2.1, Stmt.renameAll_self hr body h.2.2.2.2.2.2.1]
  | .returnStmt keyword value, h => by
    simp only [Stmt.written, List.cons_append, each_cons, each_append, Slot.Stays] at h
    rw [Stmt.rename, h.1, Expr.map_rename_self hr h.2.1]

theorem Stmt.renameElse_self (hr : r.grouped = true) : (o : Option Stmt) →
    Each (Slot.Stays r) (Stmt.writtenElse o) → Stmt.renameIfAny r o = o
  | some branch, h => congrArg some (branch.rename_self hr (each_cons.1 h).2)
  | none, _ => rfl

theorem Stmt.renameFirst_self (hr : r.grouped = true) : (o : Option Stmt) →
    Each (Slot.Stays r) (Stmt.writtenFirst o) → Stmt.renameIfAny r o = o
  | some first, h => congrArg some (first.rename_self hr h)
  | none, _ => rfl

theorem Stmt.renameAll_self (hr : r.grouped = true) : (ss : List Stmt) →
    Each (Slot.Stays r) (Stmt.writtenAll ss) → Stmt.renameAll r ss = ss
  | [], _ => rfl
  | s :: ss, h => by
    simp only [Stmt.writtenAll, each_append] at h
    rw [Stmt.renameAll, s.rename_self hr h.1, Stmt.renameAll_self hr ss h.2]

end

/-- The slots of the declaration of a function: its name, its parameters and its body. -/
def Value.code : Value → List Slot
  | .function f => .token f.name :: f.parameters.map .token ++ Stmt.writtenAll f.body
  | _ => []

def Value.scope? : Value → Option FrameId
  | .function f => some f.scope
  | _ => none

theorem Value.rename_self (hr : r.grouped = true) {v : Value} (hcode : Each (Slot.Stays r) v.code)
    (hscope : ∀ id ∈ v.scope?, r.frame id = id) (hidentity : ∀ i ∈ v.identity?, r.identity i = i) :
    v.rename r = v := by
  cases v with
  | function f =>
    simp only [Value.code, List.cons_append, each_cons, each_append] at hcode
    obtain ⟨hname, hparameters, hbody⟩ := hcode
    have hname : r.token f.name = f.name := hname
    have hparameters : f.parameters.map r.token = f.parameters :=
      (List.map_congr_left fun t ht => hparameters _ (List.mem_map_of_mem ht)).trans
        (List.map_id _)
    simp only [Value.rename, Closure.rename, hname, hparameters, Stmt.renameAll_self hr _ hbody,
      hscope _ rfl, hidentity _ rfl]
  | native f => simp only [Value.rename, Native.rename, hidentity _ rfl]
  | _ => rfl

theorem Frame.rename_self {frame : Frame}
    (hvalues : ∀ entry ∈ frame.bindings, entry.2.value.rename r = entry.2.value)
    (henclosing : ∀ next ∈ frame.enclosing, r.frame next = next) : frame.rename r = frame := by
  have hbindings : frame.bindings.map (fun entry => (entry.1, entry.2.rename r)) =
      frame.bindings := by
    refine (List.map_congr_left fun entry hentry => ?_).trans (List.map_id _)
    simp only [Binding.rename, hvalues entry hentry, id]
  have hnext : frame.enclosing.map r.frame = frame.enclosing := by
    cases hframe : frame.enclosing with
    | none => rfl
    | some next => rw [Option.map_some, henclosing next hframe]
  unfold Frame.rename
  rw [hbindings, hnext]

def Renaming.erasing : Renaming := .moving fun _ => .first

mutual

theorem Expr.rename_erasing : (e : Expr) → e.rename .erasing = e.recast .literal
  | .literal _ => rfl
  | .identifier _ => rfl
  | .grouping inner => congrArg Expr.grouping inner.rename_erasing
  | .unary _ operand => congrArg (Expr.unary _) operand.rename_erasing
  | .binary left _ right =>
    congrArg₂ (Expr.binary · _) left.rename_erasing right.rename_erasing
  | .logical left _ right =>
    congrArg₂ (Expr.logical · _) left.rename_erasing right.rename_erasing
  | .assignment _ value => congrArg (Expr.assignment _) value.rename_erasing
  | .call callee _ arguments =>
    congrArg₂ (Expr.call · _) callee.rename_erasing (Expr.renameAll_erasing arguments)

theorem Expr.renameAll_erasing : (es : List Expr) →
    Expr.renameAll .erasing es = Expr.recastAll .literal es
  | [] => rfl
  | e :: es => congrArg₂ List.cons e.rename_erasing (Expr.renameAll_erasing es)

end

theorem Expr.map_rename_erasing (o : Option Expr) :
    o.map (Expr.rename .erasing) = o.map (Expr.recast .literal) := by
  cases o with
  | none => rfl
  | some e => exact congrArg some e.rename_erasing

mutual

theorem Stmt.rename_erasing : (s : Stmt) → s.rename .erasing = s.recast .literal
  | .expression value => congrArg Stmt.expression value.rename_erasing
  | .print _ value => congrArg (Stmt.print _) value.rename_erasing
  | .block body => congrArg Stmt.block (Stmt.renameAll_erasing body)
  | .conditional condition thenBranch elseBranch => by
    rw [Stmt.rename, Stmt.recast, condition.rename_erasing, thenBranch.rename_erasing,
      Stmt.renameIfAny_erasing elseBranch]
  | .whileLoop _ condition body =>
    congrArg₂ (Stmt.whileLoop _) condition.rename_erasing body.rename_erasing
  | .forLoop _ initializer condition increment body => by
    rw [Stmt.rename, Stmt.recast, Stmt.renameIfAny_erasing initializer, Expr.map_rename_erasing,
      Expr.map_rename_erasing, body.rename_erasing]
    rfl
  | .variableDecl _ initializer _ =>
    congrArg (Stmt.variableDecl _ · _) (Expr.map_rename_erasing initializer)
  | .functionDecl _ _ body => congrArg (Stmt.functionDecl _ _) (Stmt.renameAll_erasing body)
  | .returnStmt _ value => congrArg (Stmt.returnStmt _) (Expr.map_rename_erasing value)

theorem Stmt.renameIfAny_erasing : (o : Option Stmt) →
    Stmt.renameIfAny .erasing o = Stmt.recastIfAny .literal o
  | some s => congrArg some s.rename_erasing
  | none => rfl

theorem Stmt.renameAll_erasing : (ss : List Stmt) →
    Stmt.renameAll .erasing ss = Stmt.recastAll .literal ss
  | [] => rfl
  | s :: ss => congrArg₂ List.cons s.rename_erasing (Stmt.renameAll_erasing ss)

end

theorem Program.rename_erasing (p : Program) : p.rename .erasing = p.unplaced :=
  Stmt.renameAll_erasing p

def Renaming.andThen (r s : Renaming) : Renaming where
  place t := s.place (r.token t)
  grouped := r.grouped && s.grouped
  frame id := s.frame (r.frame id)
  identity i := s.identity (r.identity i)

variable {s : Renaming}

@[simp] theorem Renaming.token_andThen (r s : Renaming) (t : Token) :
    (r.andThen s).token t = s.token (r.token t) := rfl

theorem Renaming.rename_group (r s : Renaming) (e : Expr) :
    (r.group e).rename s = (r.andThen s).group (e.rename s) := by
  unfold Renaming.group
  cases hr : r.grouped with
  | true => simp [Renaming.andThen, hr, Expr.rename, Renaming.group]
  | false => simp [Renaming.andThen, hr]

mutual

theorem Expr.rename_rename : (e : Expr) → (e.rename r).rename s = e.rename (r.andThen s)
  | .literal _ => rfl
  | .identifier _ => rfl
  | .grouping inner =>
    (Renaming.rename_group r s _).trans (congrArg (r.andThen s).group inner.rename_rename)
  | .unary _ operand => congrArg (Expr.unary _) operand.rename_rename
  | .binary left _ right => congrArg₂ (Expr.binary · _) left.rename_rename right.rename_rename
  | .logical left _ right => congrArg₂ (Expr.logical · _) left.rename_rename right.rename_rename
  | .assignment _ value => congrArg (Expr.assignment _) value.rename_rename
  | .call callee _ arguments =>
    congrArg₂ (Expr.call · _) callee.rename_rename (Expr.renameAll_renameAll arguments)

theorem Expr.renameAll_renameAll : (es : List Expr) →
    Expr.renameAll s (Expr.renameAll r es) = Expr.renameAll (r.andThen s) es
  | [] => rfl
  | e :: es => congrArg₂ List.cons e.rename_rename (Expr.renameAll_renameAll es)

end

theorem Expr.map_rename_rename (o : Option Expr) :
    (o.map (Expr.rename r)).map (Expr.rename s) = o.map (Expr.rename (r.andThen s)) := by
  cases o with
  | none => rfl
  | some e => exact congrArg some e.rename_rename

mutual

theorem Stmt.rename_rename : (stmt : Stmt) → (stmt.rename r).rename s = stmt.rename (r.andThen s)
  | .expression value => congrArg Stmt.expression value.rename_rename
  | .print _ value => congrArg (Stmt.print _) value.rename_rename
  | .block body => congrArg Stmt.block (Stmt.renameAll_renameAll body)
  | .conditional condition thenBranch elseBranch => by
    simp only [Stmt.rename, condition.rename_rename, thenBranch.rename_rename,
      Stmt.renameIfAny_renameIfAny elseBranch]
  | .whileLoop _ condition body =>
    congrArg₂ (Stmt.whileLoop _) condition.rename_rename body.rename_rename
  | .forLoop _ initializer condition increment body => by
    simp only [Stmt.rename, Stmt.renameIfAny_renameIfAny initializer, Expr.map_rename_rename,
      body.rename_rename, Renaming.token_andThen]
  | .variableDecl _ initializer _ =>
    congrArg (Stmt.variableDecl _ · _) (Expr.map_rename_rename initializer)
  | .functionDecl _ parameters body => by
    simp [Stmt.rename, Stmt.renameAll_renameAll body, Function.comp_def]
  | .returnStmt _ value => congrArg (Stmt.returnStmt _) (Expr.map_rename_rename value)

theorem Stmt.renameIfAny_renameIfAny : (o : Option Stmt) →
    Stmt.renameIfAny s (Stmt.renameIfAny r o) = Stmt.renameIfAny (r.andThen s) o
  | some stmt => congrArg some stmt.rename_rename
  | none => rfl

theorem Stmt.renameAll_renameAll : (ss : List Stmt) →
    Stmt.renameAll s (Stmt.renameAll r ss) = Stmt.renameAll (r.andThen s) ss
  | [] => rfl
  | stmt :: ss => congrArg₂ List.cons stmt.rename_rename (Stmt.renameAll_renameAll ss)

end

theorem Program.rename_rename (p : Program) : (p.rename r).rename s = p.rename (r.andThen s) :=
  Stmt.renameAll_renameAll p

theorem Program.unplaced_moving (place : Token → Position) (p : Program) :
    (p.rename (.moving place)).unplaced = p.unplaced := by
  rw [← Program.rename_erasing, ← Program.rename_erasing, Program.rename_rename]
  rfl

theorem Program.canonical_unplaced (p : Program) : p.unplaced.Canonical ↔ p.Canonical :=
  Stmt.allCanonical_recast recasting_literal false p

theorem Program.nesting_unplaced (p : Program) : p.unplaced.nesting = p.nesting :=
  Stmt.nestingAll_recast recasting_literal p

/-- Tokens in other places are read as the tree with its tokens in those places. -/
theorem Grammar.program_moving (place : Token → Position) {tokens : List Token} {p : Program}
    (h : Grammar.program tokens = .ok p) :
    Grammar.program (tokens.map (Renaming.moving place).token) =
      .ok (p.rename (.moving place)) := by
  obtain ⟨hcanonical, hnesting, hfits⟩ := Grammar.program_eq_ok_iff.1 h
  have hsame := p.unplaced_moving place
  refine Grammar.program_eq_ok_iff.2 ⟨?_, ?_, ?_⟩
  · rwa [← Program.canonical_unplaced, hsame, Program.canonical_unplaced]
  · rwa [← Program.nesting_unplaced, hsame, Program.nesting_unplaced]
  · have hwritten : (p.rename (.moving place)).written =
        p.written.map (Slot.rename (.moving place)) := Stmt.writtenAll_rename rfl p
    rw [hwritten, List.takeWhile_map]
    exact hfits.rename

end Scriptlet
