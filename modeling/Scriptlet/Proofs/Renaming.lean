import Mathlib.Data.Set.Function
import Scriptlet.Proofs.Evolution

/-!
One program under other names. The tokens of a program may stand at other places and its groupings
may be left out, and a machine may number its frames and functions in another way. No operator,
builtin or message can tell, as long as different functions keep different identities.
-/

namespace Scriptlet

/-- What may change while a program and a machine stay essentially the same. -/
structure Renaming where
  place : Token → Position
  grouped : Bool
  frame : FrameId → FrameId
  identity : Nat → Nat

namespace Renaming

def token (r : Renaming) (t : Token) : Token := { t with position := r.place t }

@[simp] theorem token_kind (r : Renaming) (t : Token) : (r.token t).kind = t.kind := rfl

@[simp] theorem token_lexeme (r : Renaming) (t : Token) : (r.token t).lexeme = t.lexeme := rfl

/-- A grouping of an expression, unless groupings are left out. -/
def group (r : Renaming) (e : Expr) : Expr := if r.grouped then .grouping e else e

def moving (place : Token → Position) : Renaming := ⟨place, true, id, id⟩

/-- Whether every tree stays as it is, and only frames and functions are numbered anew. -/
structure KeepsTrees (r : Renaming) : Prop where
  place : r.place = Token.position
  grouped : r.grouped = true

end Renaming

mutual

def Expr.rename (r : Renaming) : Expr → Expr
  | .literal value => .literal value
  | .identifier name => .identifier (r.token name)
  | .grouping inner => r.group (inner.rename r)
  | .unary operator operand => .unary (r.token operator) (operand.rename r)
  | .binary left operator right => .binary (left.rename r) (r.token operator) (right.rename r)
  | .logical left operator right => .logical (left.rename r) (r.token operator) (right.rename r)
  | .assignment name value => .assignment (r.token name) (value.rename r)
  | .call callee paren arguments =>
    .call (callee.rename r) (r.token paren) (Expr.renameAll r arguments)

def Expr.renameAll (r : Renaming) : List Expr → List Expr
  | [] => []
  | e :: es => e.rename r :: Expr.renameAll r es

end

mutual

def Stmt.rename (r : Renaming) : Stmt → Stmt
  | .expression value => .expression (value.rename r)
  | .print keyword value => .print (r.token keyword) (value.rename r)
  | .block body => .block (Stmt.renameAll r body)
  | .conditional condition thenBranch elseBranch =>
    .conditional (condition.rename r) (thenBranch.rename r) (Stmt.renameIfAny r elseBranch)
  | .whileLoop keyword condition body =>
    .whileLoop (r.token keyword) (condition.rename r) (body.rename r)
  | .forLoop keyword initializer condition increment body =>
    .forLoop (r.token keyword) (Stmt.renameIfAny r initializer) (condition.map (Expr.rename r))
      (increment.map (Expr.rename r)) (body.rename r)
  | .variableDecl name initializer constant =>
    .variableDecl (r.token name) (initializer.map (Expr.rename r)) constant
  | .functionDecl name parameters body =>
    .functionDecl (r.token name) (parameters.map r.token) (Stmt.renameAll r body)
  | .returnStmt keyword value => .returnStmt (r.token keyword) (value.map (Expr.rename r))

def Stmt.renameIfAny (r : Renaming) : Option Stmt → Option Stmt
  | some s => some (s.rename r)
  | none => none

def Stmt.renameAll (r : Renaming) : List Stmt → List Stmt
  | [] => []
  | s :: ss => s.rename r :: Stmt.renameAll r ss

end

def Program.rename (r : Renaming) (p : Program) : Program := Stmt.renameAll r p

def Closure.rename (r : Renaming) (f : Closure) : Closure where
  identity := r.identity f.identity
  name := r.token f.name
  parameters := f.parameters.map r.token
  body := Stmt.renameAll r f.body
  scope := r.frame f.scope

def Native.rename (r : Renaming) (f : Native) : Native := { f with identity := r.identity f.identity }

def Value.rename (r : Renaming) : Value → Value
  | .nil => .nil
  | .boolean b => .boolean b
  | .number x => .number x
  | .string s => .string s
  | .function f => .function (f.rename r)
  | .native f => .native (f.rename r)

def Flow.rename (r : Renaming) : Flow → Flow
  | .normal => .normal
  | .returning value => .returning (value.rename r)

def Binding.rename (r : Renaming) (binding : Binding) : Binding :=
  { binding with value := binding.value.rename r }

def Frame.rename (r : Renaming) (frame : Frame) : Frame where
  bindings := frame.bindings.map fun entry => (entry.1, entry.2.rename r)
  enclosing := frame.enclosing.map r.frame

def RuntimeError.rename (r : Renaming) (e : RuntimeError) : RuntimeError :=
  { e with token := r.token e.token }

variable {r : Renaming}

namespace Value

@[simp] theorem text_rename (v : Value) : (v.rename r).text = v.text := by
  cases v <;> rfl

@[simp] theorem inspect_rename (v : Value) : (v.rename r).inspect = v.inspect := by
  cases v <;> rfl

@[simp] theorem isTruthy_rename (v : Value) : (v.rename r).isTruthy = v.isTruthy := by
  cases v <;> rfl

@[simp] theorem typeName_rename (v : Value) : (v.rename r).typeName = v.typeName := by
  cases v <;> rfl

@[simp] theorem string?_rename (v : Value) : (v.rename r).string? = v.string? := by
  cases v <;> rfl

theorem Plain.rename {v : Value} (h : v.Plain) : v.rename r = v := by
  cases v <;> first | rfl | cases h

def identity? : Value → Option Nat
  | .function f => some f.identity
  | .native f => some f.identity
  | _ => none

theorem equals_rename {known : Set Nat} (hinj : known.InjOn r.identity) {v w : Value}
    (hv : ∀ i ∈ v.identity?, i ∈ known) (hw : ∀ i ∈ w.identity?, i ∈ known) :
    (v.rename r).equals (w.rename r) = v.equals w := by
  have hidentity : ∀ {i j}, i ∈ known → j ∈ known →
      (r.identity i == r.identity j) = (i == j) := by
    intro i j hi hj
    by_cases h : i = j
    · simp [h]
    · simp [h, (hinj.ne_iff hi hj).2 h]
  cases v with
  | function f =>
    cases w with
    | function g => exact hidentity (hv _ rfl) (hw _ rfl)
    | _ => rfl
  | native f =>
    cases w with
    | native g => exact hidentity (hv _ rfl) (hw _ rfl)
    | _ => rfl
  | _ => cases w <;> rfl

theorem applyUnary_rename (operator : Token) (v : Value) :
    applyUnary (r.token operator) (v.rename r) = applyUnary operator v := by
  unfold applyUnary
  simp only [Renaming.token_kind, Renaming.token_lexeme, isTruthy_rename]
  cases v <;> rfl

theorem applyBinary_rename (operator : Token) {v w : Value}
    (hequals : (v.rename r).equals (w.rename r) = v.equals w) :
    applyBinary (r.token operator) (v.rename r) (w.rename r) = applyBinary operator v w := by
  unfold applyBinary
  simp only [Renaming.token_kind, Renaming.token_lexeme, hequals]
  split
  · rfl
  · rfl
  · cases v <;> cases w <;> rfl
  · cases applyNumeric? operator.kind <;> cases v <;> cases w <;> rfl

theorem decides_rename (operator : Token) (v : Value) :
    decides (r.token operator) (v.rename r) = decides operator v := by
  simp [decides]

end Value

theorem Builtin.apply_rename (builtin : Builtin) (reading : Option Float) {arguments : List Value}
    (hequals : ∀ v ∈ arguments, ∀ w ∈ arguments, (v.rename r).equals (w.rename r) = v.equals w) :
    builtin.apply reading (arguments.map (Value.rename r)) = builtin.apply reading arguments := by
  have hget : ∀ n, (arguments.map (Value.rename r)).getD n .nil =
      (arguments.getD n .nil).rename r := by
    intro n
    simp only [List.getD_eq_getElem?_getD, List.getElem?_map]
    cases arguments[n]? <;> rfl
  cases builtin with
  | assertEq =>
    have hfirst : ((arguments.getD 0 .nil).rename r).equals ((arguments.getD 1 .nil).rename r) =
        (arguments.getD 0 .nil).equals (arguments.getD 1 .nil) := by
      -- an argument that is missing counts as `nil`, which equals no function
      match arguments, hequals with
      | [], _ => rfl
      | [v], _ => cases v <;> rfl
      | v :: w :: _, hequals => exact hequals v (by simp) w (by simp)
    simp only [Builtin.apply, hget, hfirst, Value.inspect_rename]
  | _ =>
    simp only [Builtin.apply, hget, Value.text_rename, Value.string?_rename,
      Value.typeName_rename, Value.isTruthy_rename]

namespace Natives

/-- Whether the functions of a host give under other names what they gave before, under its other
name, and whatever the frames are. Like an operator, such a function may ask which of its arguments
are equal. -/
def Respects (natives : Natives) (r : Renaming) : Prop :=
  ∀ code earlier arguments heap heap',
    (∀ v ∈ arguments, ∀ w ∈ arguments, (v.rename r).equals (w.rename r) = v.equals w) →
      (natives code earlier (arguments.map (Value.rename r)) heap').1 =
        (natives code earlier arguments heap).1.map (Value.rename r)

/-- Whether the functions of a host are functions of their arguments: they leave the frames alone,
and what they give does not depend on how frames and functions are numbered. -/
structure Functional (natives : Natives) : Prop extends natives.Detached where
  respects : ∀ {r : Renaming}, r.KeepsTrees → natives.Respects r

/-- Whether the functions of a host see no more of a program than the program itself: neither where
its tokens stand nor how its expressions are grouped. -/
structure Blind (natives : Natives) : Prop extends natives.Detached where
  respects : ∀ r : Renaming, natives.Respects r

theorem Blind.functional {natives : Natives} (h : natives.Blind) : natives.Functional :=
  ⟨h.toDetached, fun _ => h.respects _⟩

theorem blind_builtins (clock : Nat → Option Float) : (builtins clock).Blind where
  toDetached := detached_builtins clock
  respects := by
    intro r code earlier arguments heap heap' hequals
    unfold builtins
    cases hb : Builtin.ofCode? code with
    | none => rfl
    | some builtin =>
      simp only [Builtin.apply_rename builtin _ hequals]
      cases hrun : builtin.apply (clock earlier) arguments with
      | error message => rfl
      | ok value => exact congrArg Except.ok (Builtin.plain_apply hrun).rename.symm

end Natives

namespace Frame

theorem lookup_rename (name : String) : ∀ entries : List (String × Binding),
    (entries.map fun entry => (entry.1, entry.2.rename r)).lookup name =
      (entries.lookup name).map (Binding.rename r)
  | [] => rfl
  | (other, binding) :: rest => by
    rw [List.map_cons, lookup_cons, lookup_cons, lookup_rename name rest]
    split <;> rfl

theorem binding?_rename (frame : Frame) (name : String) :
    (frame.rename r).binding? name = (frame.binding? name).map (Binding.rename r) :=
  lookup_rename name frame.bindings

theorem put_rename (name : String) (binding : Binding) : ∀ entries : List (String × Binding),
    put name (binding.rename r) (entries.map fun entry => (entry.1, entry.2.rename r)) =
      (put name binding entries).map fun entry => (entry.1, entry.2.rename r)
  | [] => rfl
  | entry :: rest => by
    simp only [List.map_cons, put]
    split
    · rfl
    · rw [put_rename name binding rest]
      rfl

theorem define_rename (frame : Frame) (name : String) (binding : Binding) :
    (frame.rename r).define name (binding.rename r) = (frame.define name binding).rename r := by
  simp only [define, rename, put_rename]

theorem defineAll_rename (frame : Frame) (names : List String) (values : List Value) :
    (frame.rename r).defineAll names (values.map (Value.rename r)) =
      (frame.defineAll names values).rename r := by
  unfold defineAll
  induction names generalizing frame values with
  | nil => rfl
  | cons name names ih =>
    cases values with
    | nil => rfl
    | cons value values =>
      simp only [List.map_cons, List.zip_cons_cons, List.foldl_cons]
      rw [← ih, ← define_rename]
      rfl

end Frame

theorem Closure.frame_rename (f : Closure) (arguments : List Value) :
    (f.rename r).frame (arguments.map (Value.rename r)) = (f.frame arguments).rename r := by
  unfold Closure.frame
  rw [← Frame.defineAll_rename]
  simp [Closure.rename, Frame.rename, Function.comp_def]

end Scriptlet
