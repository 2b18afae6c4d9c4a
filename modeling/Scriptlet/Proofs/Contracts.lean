import Scriptlet.Proofs.Descent

/-!
What the routines do to the braces of a block. A code keeps count of the levels of braces that are
open, as far as it knows of them, and its weakest precondition says what it needs of the count and
of the token ahead. A call is as good as the contract of its routine, and every routine that is
called inside blocks keeps its contract. Most take no brace at all.
-/

namespace Scriptlet

namespace Descent

def levelsBehind (kind : Kind) (levels : Nat) : Nat :=
  match kind with
  | .leftBrace => levels + 1
  | .rightBrace => levels - 1
  | _ => levels

def noBrace (kind : Kind) : Bool := kind ≠ .leftBrace && kind ≠ .rightBrace

theorem levelsBehind_of_noBrace {kind : Kind} (h : noBrace kind = true) (levels : Nat) :
    levelsBehind kind levels = levels := by
  unfold levelsBehind
  split <;> simp_all [noBrace]

/-- Whether a token can stand ahead with so many levels open. -/
def Faces (levels : Nat) (t : Token) : Prop := 0 < levels → t.kind ≠ .endOfInput

/-- What a routine needs and does inside a block. -/
structure Contract where
  starts : Kind → Bool := fun _ => true
  ends : Kind → Bool := fun _ => true
  closes : Nat := 0
  /-- How many it closes if it fails; without a number it never fails. -/
  failing : Option Nat := some 0

def Contract.After {α : Type} (contract : Contract) (levels : Nat) :
    Except SyntaxError α → Nat → Token → Prop
  | .ok _, left, t => Faces left t ∧ left + contract.closes = levels ∧ contract.ends t.kind = true
  | .error _, left, t => Faces left t ∧ ∃ n, contract.failing = some n ∧ left + n = levels

namespace Routine

def inBlock : {α : Type} → Routine α → Bool
  | _, .skip => false
  | _, .skipFrom _ => false
  | _, .statements => false
  | _, _ => true

def contract : {α : Type} → Routine α → Contract
  -- These take the token ahead, whatever it is.
  | _, .variableDecl | _, .functionDecl | _, .printStmt | _, .returnStmt | _, .conditional
  | _, .whileLoop | _, .forLoop => { starts := noBrace }
  | _, .functionBody _ => { closes := 1, failing := some 1 }
  | _, .body => { closes := 1 }
  | _, .block => { closes := 1, failing := none }
  | _, .blockItems => { ends := (· = .rightBrace), failing := none }
  | _, .skipInBlock => { failing := none }
  | _, _ => {}

end Routine

/-- What has to hold before a step, of the levels that are open and the token ahead. -/
def Action.wp : {β : Type} → Action β → (β → Nat → Token → Prop) → Nat → Token → Prop
  | _, .peek, next, levels, t => next t levels t
  | _, .take, next, levels, t => 0 < levels ∧ ∀ t', Faces (levelsBehind t.kind levels) t' →
    next t (levelsBehind t.kind levels) t'
  | _, .record _, next, levels, t => next () levels t
  | _, .nesting, next, levels, t => ∀ n, next n levels t
  | _, .enter, next, levels, t => next () levels t
  | _, .leave, next, levels, t => next () levels t
  | _, .functions, next, levels, t => ∀ n, next n levels t
  | _, .enterFunction, next, levels, t => next () levels t
  | _, .leaveFunction, next, levels, t => next () levels t

/-- What has to hold before a code. A brace that is thrown away counts for no level any more. -/
def Code.wp {α : Type} (post : Except SyntaxError α → Nat → Token → Prop) :
    Code α → Nat → Token → Prop
  | .done x, levels, t => post (.ok x) levels t
  | .raise e, levels, t => post (.error e) levels t
  | .act action next, levels, t => action.wp (fun y => wp post (next y)) levels t
  | .lose _ next, levels, t => 0 < levels ∧ wp post next (levels - 1) t
  | .attempt r next, levels, t =>
    0 < levels ∧ r.inBlock = true ∧ r.contract.starts t.kind = true ∧
      ∀ result left t', r.contract.After levels result left t' → wp post (next result) left t'

section Wp

variable {α β : Type}

theorem Action.wp_mono {action : Action β} {next next' : β → Nat → Token → Prop}
    (h : ∀ y levels t, next y levels t → next' y levels t) {levels : Nat} {t : Token}
    (hwp : action.wp next levels t) : action.wp next' levels t := by
  cases action with
  | take => exact ⟨hwp.1, fun t' ht' => h _ _ _ (hwp.2 t' ht')⟩
  | nesting => exact fun n => h _ _ _ (hwp n)
  | functions => exact fun n => h _ _ _ (hwp n)
  | _ => exact h _ _ _ hwp

theorem Code.wp_mono {code : Code α} {post post' : Except SyntaxError α → Nat → Token → Prop}
    (h : ∀ result levels t, post result levels t → post' result levels t) {levels : Nat}
    {t : Token} (hwp : code.wp post levels t) : code.wp post' levels t := by
  induction code generalizing levels t with
  | done x => exact h _ _ _ hwp
  | raise e => exact h _ _ _ hwp
  | act action next ih => exact Action.wp_mono (fun y _ _ hy => ih y hy) hwp
  | lose brace next ih => exact ⟨hwp.1, ih hwp.2⟩
  | attempt r next ih =>
    obtain ⟨hlevels, hblock, hstarts, hnext⟩ := hwp
    exact ⟨hlevels, hblock, hstarts, fun result left t' ht' => ih result (hnext result left t' ht')⟩

def andThen (f : α → Code β) (post : Except SyntaxError β → Nat → Token → Prop) :
    Except SyntaxError α → Nat → Token → Prop
  | .ok x => (f x).wp post
  | .error e => post (.error e)

theorem Code.wp_bind {code : Code α} {f : α → Code β}
    {post : Except SyntaxError β → Nat → Token → Prop} {levels : Nat} {t : Token}
    (h : code.wp (andThen f post) levels t) : (code >>= f).wp post levels t := by
  induction code generalizing levels t with
  | done x => exact h
  | raise e => exact h
  | act action next ih => exact Action.wp_mono (fun y _ _ hy => ih y hy) h
  | lose brace next ih => exact ⟨h.1, ih h.2⟩
  | attempt r next ih =>
    obtain ⟨hlevels, hblock, hstarts, hnext⟩ := h
    exact ⟨hlevels, hblock, hstarts, fun result left t' ht' => ih result (hnext result left t' ht')⟩

theorem Code.wp_lookahead {f : Kind → Code α} {post : Except SyntaxError α → Nat → Token → Prop}
    {levels : Nat} {t : Token} (h : (f t.kind).wp post levels t) :
    (Code.lookahead >>= f).wp post levels t := h

theorem Code.wp_expect {kind : Kind} {complaint : Complaint} {f : Token → Code α}
    {post : Except SyntaxError α → Nat → Token → Prop} {levels : Nat} {t : Token}
    (taken : t.kind = kind → (Code.take >>= f).wp post levels t)
    (failed : t.kind ≠ kind → post (.error ⟨complaint, t⟩) levels t) :
    (Code.expect kind complaint >>= f).wp post levels t := by
  show (((if decide (t.kind = kind) then Code.take >>= fun t => pure (some t) else pure none :
    Code (Option Token)) >>= _) >>= f).wp post levels t
  by_cases hkind : t.kind = kind
  · rw [decide_eq_true hkind]
    exact taken hkind
  · rw [decide_eq_false hkind]
    exact failed hkind

theorem Code.wp_run {r : Routine α} (hblock : r.inBlock = true) {levels : Nat} {t : Token}
    (hlevels : 0 < levels) (hstarts : r.contract.starts t.kind = true) :
    (Code.run r).wp (r.contract.After levels) levels t := by
  refine ⟨hlevels, hblock, hstarts, ?_⟩
  intro result left t' hafter
  cases result with
  | ok x => exact hafter
  | error e => exact hafter

end Wp

section Steady

variable {α β : Type}

/-- Whether a code leaves the levels as they are, with any token ahead. -/
def Steady (code : Code α) : Prop :=
  ∀ levels t, 0 < levels → t.kind ≠ .endOfInput → code.wp (({} : Contract).After levels) levels t

theorem steady_pure (x : α) : Steady (pure x) :=
  fun _ _ _ ht => ⟨fun _ => ht, rfl, rfl⟩

theorem Code.wp_steady {code : Code α} {f : α → Code β} {levels start : Nat} {t : Token}
    (hlevels : 0 < levels) (h : code.wp (({} : Contract).After levels) start t)
    (hf : ∀ x, Steady (f x)) : (code >>= f).wp (({} : Contract).After levels) start t := by
  refine Code.wp_bind (Code.wp_mono ?_ h)
  intro result left t' hafter
  cases result with
  | error e => exact hafter
  | ok x =>
    obtain ⟨hfaces, heq, -⟩ := hafter
    obtain rfl : left = levels := heq
    exact hf x left t' hlevels (hfaces hlevels)

theorem Steady.bind {code : Code α} {f : α → Code β} (h : Steady code) (hf : ∀ x, Steady (f x)) :
    Steady (code >>= f) :=
  fun levels t hlevels ht => Code.wp_steady hlevels (h levels t hlevels ht) hf

theorem Steady.map {code : Code α} (h : Steady code) (f : α → β) : Steady (f <$> code) :=
  h.bind fun x => steady_pure (f x)

theorem Steady.discard {code : Code α} (h : Steady code) : Steady (discard code) :=
  h.bind fun _ => steady_pure ()

theorem steady_peek : Steady (Code.perform .peek) := fun _ _ _ ht => ⟨fun _ => ht, rfl, rfl⟩

theorem steady_functions : Steady (Code.perform .functions) :=
  fun _ _ _ ht _ => ⟨fun _ => ht, rfl, rfl⟩

theorem steady_lookahead : Steady Code.lookahead := steady_peek.bind fun _ => steady_pure _

theorem steady_record (e : SyntaxError) : Steady (Code.record e) :=
  fun _ _ _ ht => ⟨fun _ => ht, rfl, rfl⟩

theorem steady_recordHere (complaint : Complaint) : Steady (Code.recordHere complaint) :=
  steady_peek.bind fun _ => steady_record _

theorem steady_fail (complaint : Complaint) : Steady (Code.fail complaint : Code α) :=
  fun _ _ _ ht => ⟨fun _ => ht, 0, rfl, rfl⟩

theorem steady_run {r : Routine α} (hblock : r.inBlock = true) (hcontract : r.contract = {}) :
    Steady (Code.run r) := by
  intro levels t hlevels ht
  have hrun := Code.wp_run hblock hlevels (t := t) (by rw [hcontract])
  rwa [hcontract] at hrun

theorem Steady.behind {f : Token → Code α} {levels : Nat} {t : Token} (hf : Steady (f t))
    (hlevels : 0 < levels) (hkind : noBrace t.kind = true) :
    (Code.take >>= f).wp (({} : Contract).After levels) levels t := by
  refine ⟨hlevels, fun t' hfaces => ?_⟩
  rw [levelsBehind_of_noBrace hkind] at hfaces ⊢
  exact hf levels t' hlevels (hfaces hlevels)

theorem steady_accept {wanted : Kind → Bool} (hleft : wanted .leftBrace = false)
    (hright : wanted .rightBrace = false) : Steady (Code.accept wanted) := by
  intro levels t hlevels ht
  show (if wanted t.kind then _ else _ : Code (Option Token)).wp _ levels t
  cases hwanted : wanted t.kind with
  | false => exact steady_pure none levels t hlevels ht
  | true =>
    refine (steady_pure (some t)).behind hlevels ?_
    have hne : t.kind ≠ .leftBrace ∧ t.kind ≠ .rightBrace := by
      constructor <;> intro hkind <;> simp_all
    simp [noBrace, hne]

theorem steady_expect {kind : Kind} (h : noBrace kind = true) (complaint : Complaint) :
    Steady (Code.expect kind complaint) := by
  have hne : Kind.leftBrace ≠ kind ∧ Kind.rightBrace ≠ kind := by
    constructor <;> rintro rfl <;> cases h
  refine (steady_accept (decide_eq_false hne.1) (decide_eq_false hne.2)).bind fun t? => ?_
  cases t? with
  | some t => exact steady_pure t
  | none => exact steady_fail complaint

theorem steady_ended {code : Code α} (h : Steady code) (kind : Kind) (hkind : noBrace kind = true)
    (complaint : Complaint) (f : α → β) :
    Steady (code >>= fun x => discard (Code.expect kind complaint) >>= fun _ => pure (f x)) :=
  h.bind fun x => (steady_expect hkind complaint).discard.bind fun _ => steady_pure (f x)

theorem steady_nested {r : Routine α} (hblock : r.inBlock = true) (hcontract : r.contract = {}) :
    Steady (Code.nested r) := by
  intro levels t hlevels ht n
  show (if Grammar.nestingLimit ≤ n then _ else _ : Code α).wp _ levels t
  split
  · exact steady_fail .tooMuchNesting levels t hlevels ht
  · exact steady_run hblock hcontract levels t hlevels ht

theorem steady_listed {items : Routine (List α)} (hblock : items.inBlock = true)
    (hcontract : items.contract = {}) : Steady (Code.listed items) := by
  refine steady_lookahead.bind fun kind => ?_
  split
  · exact steady_pure []
  · exact steady_run hblock hcontract

theorem steady_commaSeparated {item : Routine α} {again : Routine (List α)}
    (tooMany : Complaint) (count : Nat) (hitem : Steady (Code.run item))
    (hagain : Steady (Code.run again)) :
    Steady (Code.commaSeparated tooMany item again count) := by
  have hlist : Steady (Code.listItem tooMany item count) := by
    unfold Code.listItem
    split
    · exact (steady_recordHere tooMany).bind fun _ => hitem
    · exact hitem
  refine hlist.bind fun x => (steady_accept rfl rfl).bind fun comma? => ?_
  cases comma? with
  | some _ => exact hagain.bind fun xs => steady_pure (x :: xs)
  | none => exact steady_pure [x]

end Steady

section Meets

variable {α : Type}

def Meets (contract : Contract) (code : Code α) : Prop :=
  ∀ levels t, 0 < levels → t.kind ≠ .endOfInput → contract.starts t.kind = true →
    code.wp (contract.After levels) levels t

theorem Steady.meets {code : Code α} (h : Steady code) : Meets {} code :=
  fun levels t hlevels ht _ => h levels t hlevels ht

theorem steady_expression : Steady (Code.run .expression) := steady_run rfl rfl

theorem steady_statement : Steady (Code.run .statement) := steady_run rfl rfl

theorem steady_assignment : Steady Routine.assignment.code := by
  refine (steady_run rfl rfl).bind fun left => (steady_accept rfl rfl).bind fun equals? => ?_
  cases equals? with
  | none => exact steady_pure left
  | some equals =>
    refine steady_expression.bind fun value => ?_
    cases left with
    | identifier name => exact steady_pure _
    | _ => exact (steady_record _).bind fun _ => steady_pure _

theorem steady_operatorChain (level : Level) (tighter : List Level) (left : Expr) :
    Steady (Routine.operatorChain level tighter left).code := by
  have hleft : level.hasOperator .leftBrace = false := by cases level <;> rfl
  have hright : level.hasOperator .rightBrace = false := by cases level <;> rfl
  refine (steady_accept hleft hright).bind fun operator? => ?_
  cases operator? with
  | none => exact steady_pure left
  | some operator => exact (steady_run rfl rfl).bind fun right => steady_run rfl rfl

theorem steady_operators (levels : List Level) : Steady (Routine.operators levels).code := by
  cases levels with
  | nil => exact steady_run rfl rfl
  | cons level tighter => exact (steady_run rfl rfl).bind fun left => steady_run rfl rfl

theorem steady_unary : Steady Routine.unary.code := by
  refine (steady_accept rfl rfl).bind fun operator? => ?_
  cases operator? with
  | none => exact steady_run rfl rfl
  | some operator => exact (steady_run rfl rfl).bind fun right => steady_pure _

theorem steady_callChain (callee : Expr) : Steady (Routine.callChain callee).code := by
  refine (steady_accept rfl rfl).bind fun paren? => ?_
  cases paren? with
  | none => exact steady_pure callee
  | some paren =>
    exact (steady_run rfl rfl).bind fun arguments =>
      (steady_expect rfl .argumentsEnd).bind fun close => steady_run rfl rfl

theorem noBrace_of_constant {t : Token} {value : Constant}
    (h : Constant.ofToken? t = some value) : noBrace t.kind = true := by
  have hne : t.kind ≠ .leftBrace ∧ t.kind ≠ .rightBrace := by
    constructor <;> intro hkind <;> simp [Constant.ofToken?, hkind] at h
  simp [noBrace, hne]

theorem steady_primary : Steady Routine.primary.code := by
  intro levels t hlevels ht
  show (Code.primaryAt t).wp _ levels t
  unfold Code.primaryAt
  cases hconstant : Constant.ofToken? t with
  | some value =>
    have hrest : Steady (pure (Expr.literal value)) := steady_pure _
    exact hrest.behind hlevels (noBrace_of_constant hconstant)
  | none =>
    cases hkind : t.kind with
    | identifier =>
      have hrest : Steady (pure (Expr.identifier t)) := steady_pure _
      exact hrest.behind hlevels (by rw [hkind]; rfl)
    | leftParen =>
      have hrest := steady_ended steady_expression .rightParen rfl .groupEnd Expr.grouping
      exact hrest.behind hlevels (by rw [hkind]; rfl)
    | _ => exact steady_fail _ levels t hlevels ht

theorem steady_optional (stop : Kind) : Steady (Routine.optional stop).code := by
  refine steady_lookahead.bind fun kind => ?_
  split
  · exact steady_pure none
  · exact steady_expression.map some

theorem steady_forInitializer : Steady Routine.forInitializer.code := by
  intro levels t hlevels ht
  refine Code.wp_lookahead ?_
  cases hkind : t.kind with
  | semicolon =>
    have hrest : Steady (pure none : Code (Option Stmt)) := steady_pure none
    exact hrest.behind hlevels (by rw [hkind]; rfl)
  | letWord =>
    have hrun := Code.wp_run (r := .variableDecl) rfl hlevels (t := t) (by rw [hkind]; rfl)
    exact Code.wp_steady hlevels hrun fun x => steady_pure (some x)
  | constWord =>
    have hrun := Code.wp_run (r := .variableDecl) rfl hlevels (t := t) (by rw [hkind]; rfl)
    exact Code.wp_steady hlevels hrun fun x => steady_pure (some x)
  | _ => exact ((steady_run rfl rfl).map some) levels t hlevels ht

theorem meets_keyword {f : Token → Code α} (h : ∀ t, Steady (f t)) :
    Meets { starts := noBrace } (Code.take >>= f) :=
  fun _ t hlevels _ hstarts => (h t).behind hlevels hstarts

theorem meets_variableDecl : Meets { starts := noBrace } Routine.variableDecl.code := by
  refine meets_keyword fun keyword => (steady_expect rfl .variableName).bind fun name => ?_
  have hrest : ∀ initializer : Option Expr, Steady (do
      if decide (keyword.kind = .constWord) && initializer.isNone then
        Code.recordHere .constantValue
      discard (Code.expect .semicolon .declarationEnd)
      pure (Stmt.variableDecl name initializer (keyword.kind = .constWord))) := by
    intro initializer
    have hend : Steady (discard (Code.expect .semicolon .declarationEnd)) :=
      (steady_expect rfl _).discard
    split
    · exact (steady_recordHere _).bind fun _ => hend.bind fun _ => steady_pure _
    · exact hend.bind fun _ => steady_pure _
  refine (steady_accept rfl rfl).bind fun equals? => ?_
  cases equals? with
  | some _ => exact (steady_expression.map some).bind hrest
  | none => exact hrest none

theorem meets_printStmt : Meets { starts := noBrace } Routine.printStmt.code :=
  meets_keyword fun _ => steady_ended steady_expression .semicolon rfl .printEnd _

theorem meets_returnStmt : Meets { starts := noBrace } Routine.returnStmt.code := by
  have hvalue : Steady (Code.run (.optional .semicolon)) := steady_run rfl rfl
  refine meets_keyword fun keyword => steady_functions.bind fun functions => ?_
  have hrest := steady_ended hvalue .semicolon rfl .returnEnd (Stmt.returnStmt keyword)
  dsimp only
  split
  · exact (steady_record _).bind fun _ => hrest
  · exact hrest

theorem meets_conditional : Meets { starts := noBrace } Routine.conditional.code := by
  refine meets_keyword fun _ => (steady_expect rfl .ifStart).discard.bind fun _ => ?_
  refine steady_expression.bind fun _ => (steady_expect rfl .ifEnd).discard.bind fun _ => ?_
  refine steady_statement.bind fun _ => (steady_accept rfl rfl).bind fun else? => ?_
  cases else? with
  | some _ => exact steady_statement.bind fun _ => steady_pure _
  | none => exact steady_pure _

theorem meets_whileLoop : Meets { starts := noBrace } Routine.whileLoop.code := by
  refine meets_keyword fun _ => (steady_expect rfl .whileStart).discard.bind fun _ => ?_
  refine steady_expression.bind fun _ => (steady_expect rfl .whileEnd).discard.bind fun _ => ?_
  exact steady_statement.bind fun _ => steady_pure _

theorem meets_forLoop : Meets { starts := noBrace } Routine.forLoop.code := by
  refine meets_keyword fun _ => (steady_expect rfl .forStart).discard.bind fun _ => ?_
  refine (steady_run rfl rfl).bind fun _ => (steady_run rfl rfl).bind fun _ => ?_
  refine (steady_expect rfl .forCondition).discard.bind fun _ => ?_
  refine (steady_run rfl rfl).bind fun _ => (steady_expect rfl .forEnd).discard.bind fun _ => ?_
  exact steady_statement.bind fun _ => steady_pure _

theorem Code.wp_opened {f : Token → Code α} {levels : Nat} {t : Token} (hlevels : 0 < levels)
    (hkind : t.kind = .leftBrace)
    (h : ∀ t', t'.kind ≠ .endOfInput →
      (f t).wp (({} : Contract).After levels) (levels + 1) t') :
    (Code.take >>= f).wp (({} : Contract).After levels) levels t := by
  refine ⟨hlevels, fun t' hfaces => ?_⟩
  rw [hkind] at hfaces ⊢
  exact h t' (hfaces (Nat.succ_pos levels))

theorem Code.wp_closing {r : Routine α} (hblock : r.inBlock = true) {levels : Nat} {t : Token}
    (hcloses : r.contract.closes = 1) (hfailing : ∀ n ∈ r.contract.failing, n = 1)
    (hstarts : r.contract.starts t.kind = true) :
    (Code.run r).wp (({} : Contract).After levels) (levels + 1) t := by
  refine Code.wp_mono ?_ (Code.wp_run hblock (Nat.succ_pos levels) hstarts)
  intro result left t' hafter
  cases result with
  | ok x =>
    obtain ⟨hfaces, hleft, -⟩ := hafter
    exact ⟨hfaces, by show left = levels; omega, rfl⟩
  | error e =>
    obtain ⟨hfaces, n, hn, hleft⟩ := hafter
    have hone := hfailing n hn
    exact ⟨hfaces, 0, rfl, by omega⟩

theorem meets_functionDecl : Meets { starts := noBrace } Routine.functionDecl.code := by
  refine meets_keyword fun _ => (steady_expect rfl .functionName).bind fun name => ?_
  refine (steady_expect rfl .parametersStart).discard.bind fun _ => ?_
  refine (steady_run rfl rfl).bind fun parameters => ?_
  refine (steady_expect rfl .parametersEnd).discard.bind fun _ => ?_
  intro levels t hlevels ht
  refine Code.wp_expect (fun hkind => ?_) fun _ => ⟨fun _ => ht, 0, rfl, rfl⟩
  refine Code.wp_opened hlevels hkind fun t' _ => ?_
  have hbody : (Code.run (.functionBody t)).wp (({} : Contract).After levels) (levels + 1) t' :=
    Code.wp_closing rfl rfl (by simp [Routine.contract]) rfl
  exact Code.wp_steady hlevels hbody fun body => steady_pure _

theorem steady_plain : Steady Routine.plain.code := by
  intro levels t hlevels ht
  refine Code.wp_lookahead ?_
  cases hkind : t.kind with
  | ifWord => exact Code.wp_run rfl hlevels (by rw [hkind]; rfl)
  | whileWord => exact Code.wp_run rfl hlevels (by rw [hkind]; rfl)
  | forWord => exact Code.wp_run rfl hlevels (by rw [hkind]; rfl)
  | returnWord => exact Code.wp_run rfl hlevels (by rw [hkind]; rfl)
  | printWord => exact Code.wp_run rfl hlevels (by rw [hkind]; rfl)
  | leftBrace =>
    have hblock : ∀ t', (Code.run .block).wp (({} : Contract).After levels) (levels + 1) t' :=
      fun t' => Code.wp_closing rfl rfl (by simp [Routine.contract]) rfl
    exact Code.wp_opened hlevels hkind fun t' _ =>
      Code.wp_steady hlevels (hblock t') fun body => steady_pure _
  | _ => exact steady_run rfl rfl levels t hlevels ht

theorem steady_declaration : Steady Routine.declaration.code := by
  intro levels t hlevels ht
  refine Code.wp_lookahead ?_
  cases hkind : t.kind with
  | letWord => exact Code.wp_run rfl hlevels (by rw [hkind]; rfl)
  | constWord => exact Code.wp_run rfl hlevels (by rw [hkind]; rfl)
  | functionWord => exact Code.wp_run rfl hlevels (by rw [hkind]; rfl)
  | _ => exact steady_run rfl rfl levels t hlevels ht

theorem Code.wp_safe {β : Type} {r : Routine α} {f : α → Code β}
    {post : Except SyntaxError β → Nat → Token → Prop} (hblock : r.inBlock = true)
    (hcloses : r.contract.closes = 0) (hfailing : r.contract.failing = none) {levels : Nat}
    {t : Token} (hlevels : 0 < levels) (hstarts : r.contract.starts t.kind = true)
    (h : ∀ x t', t'.kind ≠ .endOfInput → r.contract.ends t'.kind = true →
      (f x).wp post levels t') : (Code.run r >>= f).wp post levels t := by
  refine Code.wp_bind (Code.wp_mono ?_ (Code.wp_run hblock hlevels hstarts))
  intro result left t' hafter
  cases result with
  | error e =>
    obtain ⟨-, n, hn, -⟩ := hafter
    rw [hfailing] at hn
    cases hn
  | ok x =>
    obtain ⟨hfaces, heq, hends⟩ := hafter
    obtain rfl : left = levels := by omega
    exact h x t' (hfaces hlevels) hends

theorem meets_blockItems : Meets Routine.blockItems.contract Routine.blockItems.code := by
  intro levels t hlevels ht _
  have hagain : ∀ (x? : Option Stmt) (t' : Token), t'.kind ≠ .endOfInput →
      (Code.run .blockItems >>= fun xs => pure (x?.toList ++ xs)).wp
        (Routine.blockItems.contract.After levels) levels t' := by
    intro x? t' ht'
    exact Code.wp_safe rfl rfl rfl hlevels rfl fun xs u hu hends => ⟨fun _ => hu, rfl, hends⟩
  refine Code.wp_lookahead ?_
  by_cases hkind : t.kind = .rightBrace
  · rw [hkind]
    exact ⟨fun _ => ht, rfl, decide_eq_true hkind⟩
  · rw [if_neg (by simp [hkind, ht])]
    refine ⟨hlevels, rfl, rfl, ?_⟩
    intro result left t' hafter
    cases result with
    | ok x =>
      obtain ⟨hfaces, heq, -⟩ := hafter
      obtain rfl : left = levels := heq
      exact hagain (some x) t' (hfaces hlevels)
    | error e =>
      obtain ⟨hfaces, n, hn, heq⟩ := hafter
      cases hn
      obtain rfl : left = levels := heq
      have hskip : (Code.run .skipInBlock >>= fun _ => (pure none : Code (Option Stmt))).wp
          (andThen (fun x? => Code.run .blockItems >>= fun xs => pure (x?.toList ++ xs))
            (Routine.blockItems.contract.After left)) left t' :=
        Code.wp_safe rfl rfl rfl hlevels rfl fun _ u hu _ => hagain none u hu
      exact Code.wp_bind hskip

theorem meets_block : Meets Routine.block.contract Routine.block.code := by
  intro levels t hlevels ht _
  refine Code.wp_safe rfl rfl rfl hlevels rfl fun body t' ht' hends => ?_
  have hkind : t'.kind = .rightBrace := of_decide_eq_true hends
  refine Code.wp_bind (Code.wp_expect (fun _ => ?_) fun hne => absurd hkind hne)
  -- This is the only place where a closing brace is taken.
  refine ⟨hlevels, fun u hu => ?_⟩
  rw [hkind] at hu ⊢
  exact ⟨hu, Nat.succ_pred_eq_of_pos hlevels, rfl⟩

theorem meets_body : Meets Routine.body.contract Routine.body.code := by
  intro levels t hlevels ht _ n
  show (if Grammar.nestingLimit ≤ n then _ else _ : Code (List Stmt)).wp _ levels t
  split
  -- Without room the block is not entered, and its level stays open.
  · exact ⟨fun _ => ht, 0, rfl, rfl⟩
  · refine ⟨hlevels, rfl, rfl, ?_⟩
    intro result left t' hafter
    cases result with
    | ok body => exact hafter
    | error e =>
      obtain ⟨-, n, hn, -⟩ := hafter
      cases hn

theorem meets_functionBody (brace : Token) :
    Meets (Routine.functionBody brace).contract (Routine.functionBody brace).code := by
  intro levels t hlevels ht _
  refine ⟨hlevels, rfl, rfl, ?_⟩
  intro result left t' hafter
  cases result with
  | ok body => exact hafter
  | error e =>
    obtain ⟨hfaces, n, hn, heq⟩ := hafter
    cases hn
    obtain rfl : left = levels := heq
    -- The level that a failed body leaves open is given up with its brace.
    exact ⟨hlevels, fun _ => hfaces hlevels, 1, rfl, by omega⟩

theorem Code.wp_thrown {code : Code α} {post : Except SyntaxError α → Nat → Token → Prop}
    {levels : Nat} {t : Token} (hlevels : 0 < levels) (hkind : t.kind ≠ .rightBrace)
    (h : ∀ t', t'.kind ≠ .endOfInput → code.wp post levels t') {t' : Token}
    (hfaces : Faces (levelsBehind t.kind levels) t') :
    (Code.loseBrace t code).wp post (levelsBehind t.kind levels) t' := by
  unfold Code.loseBrace
  by_cases hbrace : t.kind = .leftBrace
  · rw [if_pos hbrace]
    rw [hbrace] at hfaces ⊢
    exact ⟨Nat.succ_pos levels, h t' (hfaces (Nat.succ_pos levels))⟩
  · rw [if_neg hbrace]
    rw [levelsBehind_of_noBrace (by simp [noBrace, hkind, hbrace])] at hfaces ⊢
    exact h t' (hfaces hlevels)

theorem meets_skipInBlock : Meets Routine.skipInBlock.contract Routine.skipInBlock.code := by
  intro levels t hlevels ht _
  refine Code.wp_lookahead ?_
  by_cases hkind : t.kind = .rightBrace
  · rw [hkind]
    exact ⟨fun _ => ht, rfl, rfl⟩
  · rw [if_neg (by simp [hkind, ht])]
    refine ⟨hlevels, fun t' hfaces => Code.wp_thrown hlevels hkind ?_ hfaces⟩
    intro u hu
    refine Code.wp_lookahead ?_
    split
    · exact ⟨fun _ => hu, rfl, rfl⟩
    · exact Code.wp_run rfl hlevels rfl

/-- Every routine that is called inside blocks keeps its contract. -/
theorem Routine.meets (r : Routine α) (hblock : r.inBlock = true) : Meets r.contract r.code := by
  cases r with
  | expression => exact (steady_nested rfl rfl).meets
  | assignment => exact steady_assignment.meets
  | operators levels => exact (steady_operators levels).meets
  | operatorChain level tighter left => exact (steady_operatorChain level tighter left).meets
  | operand => exact (steady_nested rfl rfl).meets
  | unary => exact steady_unary.meets
  | call => exact ((steady_run rfl rfl).bind fun _ => steady_run rfl rfl).meets
  | callChain callee => exact (steady_callChain callee).meets
  | primary => exact steady_primary.meets
  | arguments => exact (steady_listed rfl rfl).meets
  | argumentsFrom count =>
    exact (steady_commaSeparated _ count steady_expression (steady_run rfl rfl)).meets
  | parameter => exact (steady_expect rfl _).meets
  | parameters => exact (steady_listed rfl rfl).meets
  | parametersFrom count =>
    exact (steady_commaSeparated _ count (steady_run rfl rfl) (steady_run rfl rfl)).meets
  | optional stop => exact (steady_optional stop).meets
  | variableDecl => exact meets_variableDecl
  | functionDecl => exact meets_functionDecl
  | functionBody brace => exact meets_functionBody brace
  | body => exact meets_body
  | block => exact meets_block
  | blockItems => exact meets_blockItems
  | expressionStmt => exact (steady_ended steady_expression .semicolon rfl _ _).meets
  | printStmt => exact meets_printStmt
  | returnStmt => exact meets_returnStmt
  | conditional => exact meets_conditional
  | whileLoop => exact meets_whileLoop
  | forInitializer => exact steady_forInitializer.meets
  | forLoop => exact meets_forLoop
  | statement => exact (steady_nested rfl rfl).meets
  | plain => exact steady_plain.meets
  | declaration => exact steady_declaration.meets
  | skip => cases hblock
  | skipFrom previous => cases hblock
  | skipInBlock => exact meets_skipInBlock
  | statements => cases hblock
  | wholeExpression =>
    refine Steady.meets (steady_expression.bind fun value => steady_lookahead.bind fun kind => ?_)
    dsimp only
    split
    · exact (steady_recordHere _).bind fun _ => steady_pure value
    · exact steady_pure value

end Meets

end Descent

end Scriptlet
