import Scriptlet.Grammar.Program
import Scriptlet.Proofs.ExactReading

/-!
The routines of the grammar as sequences of steps. A step looks at the tokens ahead, reads one of
them, or records an error; an error is recorded at the token ahead, at a token that was just read or
at an equals sign that was read before. A token is taken unseen only where one is known to be ahead,
so the end of input never is. What every step keeps, every routine keeps, also where it fails or goes
on after an error. So the errors of a token list stand at its tokens.
-/

namespace Scriptlet

namespace Parse

/-- Routines that are sequences of steps, with the tokens `held` in hand. Those that are `ready` are
meant for places with a token ahead. -/
inductive Built : {α : Type} → List Token → Parse α → (ready : Bool := false) → Prop where
  | pure {α : Type} {held : List Token} {ready : Bool} (x : α) : Built held (pure x) ready
  | fail {α : Type} {held : List Token} {ready : Bool} (complaint : Complaint) :
      Built held (fail complaint : Parse α) ready
  | lookahead {α : Type} {held : List Token} {ready : Bool} {next : Kind → Parse α}
      (rest : ∀ kind, Built held (next kind) (ready || kind ≠ .endOfInput)) :
      Built held (lookahead >>= next) ready
  | upcoming {α : Type} {held : List Token} {ready : Bool} {next : List Token → Parse α}
      (rest : ∀ ts, Built held (next ts) (ready || !ts.isEmpty)) :
      Built held (upcoming >>= next) ready
  | take {α : Type} {held : List Token} {next : Token → Parse α}
      (rest : ∀ t, Built (t :: held) (next t)) : Built held (take >>= next) true
  | takeRecorded {α : Type} {held : List Token} (complaint : Complaint) {next : Token → Parse α}
      (rest : ∀ t, Built (t :: held) (next t)) :
      Built held (take >>= fun t => record ⟨complaint, t⟩ >>= fun _ => next t) true
  | accept {α : Type} {held : List Token} {ready : Bool} (wanted : Kind → Bool)
      {next : Option Token → Parse α}
      (taken : ∀ t, wanted t.kind = true → Built (t :: held) (next (some t)))
      (refused : Built held (next none)) : Built held (accept wanted >>= next) ready
  | recordHere {α : Type} {held : List Token} {ready : Bool} (complaint : Complaint)
      {next : Unit → Parse α} (rest : Built held (next ())) :
      Built held (recordHere complaint >>= next) ready
  | recordHeld {α : Type} {held : List Token} {ready : Bool} {t : Token} (mem : t ∈ held)
      (equals : t.kind = .equal) {next : Unit → Parse α} (rest : Built held (next ())) :
      Built held (record ⟨.invalidTarget, t⟩ >>= next) ready
  | recovering {α β : Type} {held : List Token} {ready : Bool} {item : Parse β}
      {skipping : List Token → List Token} (suffix : ∀ ts, skipping ts <:+ ts)
      (part : Built held item) {next : Option β → Parse α} (rest : ∀ o, Built held (next o)) :
      Built held (recovering item skipping >>= next) ready

namespace Built

variable {α β : Type} {held more : List Token} {ready : Bool}

theorem mono {r : Parse α} (h : Built held r ready) (hsub : held ⊆ more) : Built more r ready := by
  induction h generalizing more with
  | pure x => exact .pure x
  | fail complaint => exact .fail complaint
  | lookahead _ ih => exact .lookahead fun kind => ih kind hsub
  | upcoming _ ih => exact .upcoming fun ts => ih ts hsub
  | take _ ih => exact .take fun t => ih t (List.cons_subset_cons t hsub)
  | takeRecorded complaint _ ih =>
    exact .takeRecorded complaint fun t => ih t (List.cons_subset_cons t hsub)
  | accept wanted _ _ ih ih' =>
    exact .accept wanted (fun t ht => ih t ht (List.cons_subset_cons t hsub)) (ih' hsub)
  | recordHere complaint _ ih => exact .recordHere complaint (ih hsub)
  | recordHeld mem equals _ ih => exact .recordHeld (hsub mem) equals (ih hsub)
  | recovering suffix _ _ ih ih' => exact .recovering suffix (ih hsub) fun o => ih' o hsub

theorem with_token_ahead {r : Parse α} (h : Built held r ready) : Built held r true := by
  induction h with
  | pure x => exact .pure x
  | fail complaint => exact .fail complaint
  | lookahead _ ih => exact .lookahead ih
  | upcoming _ ih => exact .upcoming ih
  | take rest => exact .take rest
  | takeRecorded complaint rest => exact .takeRecorded complaint rest
  | accept wanted taken refused => exact .accept wanted taken refused
  | recordHere complaint rest => exact .recordHere complaint rest
  | recordHeld mem equals rest => exact .recordHeld mem equals rest
  | recovering suffix part rest => exact .recovering suffix part rest

theorem anywhere {r : Parse α} (h : Built held r) : Built held r ready := by
  cases ready with
  | false => exact h
  | true => exact h.with_token_ahead

theorem any {r : Parse α} (h : Built [] r) : Built held r := h.mono (List.nil_subset held)

theorem bind {r : Parse α} (h : Built held r ready) {f : α → Parse β}
    (k : ∀ x, Built held (f x)) : Built held (r >>= f) ready := by
  have grown : ∀ {held : List Token} {f : α → Parse β} (t : Token), (∀ x, Built held (f x)) →
      ∀ x, Built (t :: held) (f x) := fun t k x => (k x).mono (List.subset_cons_self t _)
  induction h with
  | pure x =>
    rw [pure_bind]
    exact (k x).anywhere
  | fail complaint => exact .fail complaint
  | lookahead _ ih =>
    rw [bind_assoc]
    exact .lookahead fun kind => ih kind k grown
  | upcoming _ ih =>
    rw [bind_assoc]
    exact .upcoming fun ts => ih ts k grown
  | take _ ih =>
    rw [bind_assoc]
    exact .take fun t => ih t (grown t k) grown
  | takeRecorded complaint _ ih =>
    simp only [bind_assoc]
    exact .takeRecorded complaint fun t => ih t (grown t k) grown
  | accept wanted _ _ ih ih' =>
    rw [bind_assoc]
    exact .accept wanted (fun t ht => ih t ht (grown t k) grown) (ih' k grown)
  | recordHere complaint _ ih =>
    rw [bind_assoc]
    exact .recordHere complaint (ih k grown)
  | recordHeld mem equals _ ih =>
    rw [bind_assoc]
    exact .recordHeld mem equals (ih k grown)
  | recovering suffix part _ _ ih =>
    rw [bind_assoc]
    exact .recovering suffix part fun o => ih o k grown

theorem map {r : Parse α} (h : Built held r ready) (f : α → β) : Built held (f <$> r) ready := by
  rw [map_eq_bind]
  exact h.bind fun x => .pure (f x)

theorem discard {r : Parse α} (h : Built held r ready) : Built held (discard r) ready := by
  rw [discard_eq_bind]
  exact h.bind fun _ => .pure ()

end Built

section Routines

variable {α : Type}

theorem built_expect (kind : Kind) (complaint : Complaint) : Built [] (expect kind complaint) :=
  .accept _ (fun t _ => .pure t) (.fail complaint)

theorem built_expecting {held : List Token} {next : Unit → Parse α} (kind : Kind)
    (complaint : Complaint) (rest : Built held (next ())) :
    Built held (discard (expect kind complaint) >>= next) :=
  (built_expect kind complaint).any.discard.bind fun _ => rest

theorem built_taking {held : List Token} {next : Unit → Parse α} (rest : Built held (next ())) :
    Built held (discard take >>= next) true := by
  rw [discard_eq_bind, bind_assoc]
  exact .take fun t => rest.mono (List.subset_cons_self t held)

theorem built_listItem (tooMany : Complaint) {item : Parse α} (h : Built [] item) (count : Nat) :
    Built [] (listItem tooMany item count) := by
  unfold listItem
  split
  · exact .recordHere tooMany h
  · exact h

theorem built_commaSeparated (tooMany : Complaint) {item : Parse α} (h : Built [] item) :
    ∀ (rounds : List Token) (count : Nat), Built [] (commaSeparated tooMany item rounds count)
  | [], count => (built_listItem tooMany h count).bind fun x => .pure [x]
  | _ :: rounds, count =>
    (built_listItem tooMany h count).bind fun x =>
      .accept _
        (fun _ _ => (built_commaSeparated tooMany h rounds (count + 1)).any.bind fun xs =>
          .pure (x :: xs))
        (.pure [x])

theorem built_listed (tooMany : Complaint) {item : Parse α} (h : Built [] item) :
    Built [] (listed tooMany item) := by
  refine .lookahead fun kind => ?_
  split
  · exact .pure []
  · exact .upcoming fun ts => (built_commaSeparated tooMany h ts 0).anywhere

theorem built_itemsUntil (stop : Kind → Bool) {item : Parse α} (h : Built [] item)
    {skipping : List Token → List Token} (suffix : ∀ ts, skipping ts <:+ ts) :
    ∀ rounds : List Token, Built [] (itemsUntil stop item skipping rounds)
  | [] => .pure []
  | _ :: rounds => by
    refine .lookahead fun kind => ?_
    split
    · exact .pure []
    · exact .recovering suffix h fun o =>
        (built_itemsUntil stop h suffix rounds).bind fun xs => .pure (o.toList ++ xs)

theorem built_operatorChain (level : Level) {operand : Parse Expr} (h : Built [] operand) :
    ∀ (rounds : List Token) (left : Expr), Built [] (operatorChain level operand rounds left)
  | [], left => .pure left
  | _ :: rounds, left =>
    .accept _ (fun operator _ => h.any.bind fun right =>
      (built_operatorChain level h rounds (level.node left operator right)).any) (.pure left)

theorem built_operators {operand : Parse Expr} (h : Built [] operand) :
    ∀ levels : List Level, Built [] (operators operand levels)
  | [] => h
  | level :: tighter =>
    (built_operators h tighter).bind fun left =>
      .upcoming fun ts => (built_operatorChain level (built_operators h tighter) ts left).anywhere

theorem built_assignment {whole tighter : Parse Expr} (hw : Built [] whole)
    (ht : Built [] tighter) : Built [] (assignment whole tighter) := by
  refine ht.bind fun left => .accept _ (fun equals hk => ?_) (.pure left)
  refine hw.any.bind fun value => ?_
  have hkind : equals.kind = .equal := by simpa using hk
  split
  · exact .pure _
  · exact .recordHeld List.mem_cons_self hkind (.pure left)

theorem primary_eq (whole : Parse Expr) : primary whole = upcoming >>= fun ts =>
    match ts with
    | [] => fail .expression
    | t :: _ =>
      match Constant.ofToken? t with
      | some value => take >>= fun _ => pure (.literal value)
      | none =>
        match t.kind with
        | .identifier => take >>= fun _ => pure (.identifier t)
        | .leftParen => take >>= fun _ => do
          let inner ← whole
          discard (expect .rightParen .groupEnd)
          pure (.grouping inner)
        | _ => fail .expression := by
  funext c
  rw [bind_ok upcoming _ (x := c.ahead) (d := c) rfl]
  unfold primary
  cases hc : c.ahead with
  | nil => rfl
  | cons t rest =>
    have htake : take c = .ok t { c with ahead := rest } := by simp [take, hc]
    have hread : ∀ r : Parse Expr, r { c with ahead := rest } = (take >>= fun _ => r) c :=
      fun r => (bind_ok take (fun _ => r) htake).symm
    dsimp only
    cases Constant.ofToken? t with
    | some value => exact hread (pure (.literal value))
    | none =>
      cases t.kind with
      | identifier => exact hread (pure (.identifier t))
      | leftParen =>
        exact hread do
          let inner ← whole
          discard (expect .rightParen .groupEnd)
          pure (.grouping inner)
      | _ => rfl

theorem built_primary {whole : Parse Expr} (hw : Built [] whole) : Built [] (primary whole) := by
  rw [primary_eq]
  refine .upcoming fun ts => ?_
  split
  · exact .fail _
  · split
    · exact .take fun _ => .pure _
    · split
      · exact .take fun _ => .pure _
      · exact .take fun _ => hw.any.bind fun inner => built_expecting _ _ (.pure _)
      · exact .fail _

theorem built_callChain {whole : Parse Expr} (hw : Built [] whole) :
    ∀ (rounds : List Token) (callee : Expr), Built [] (callChain whole rounds callee)
  | [], callee => .pure callee
  | _ :: rounds, callee =>
    .accept _
      (fun _ _ => (built_listed _ hw).any.bind fun arguments =>
        (built_expect _ _).any.bind fun paren =>
          (built_callChain hw rounds (.call callee paren arguments)).any)
      (.pure callee)

theorem built_unaryOver {deeper whole : Parse Expr} (hd : Built [] deeper) (hw : Built [] whole) :
    Built [] (unaryOver deeper whole) :=
  .accept _ (fun _ _ => hd.any.bind fun _ => .pure _)
    ((built_primary hw).bind fun callee =>
      .upcoming fun ts => (built_callChain hw ts callee).anywhere)

theorem built_expression_unary (room : Nat) :
    Built [] (expression room) ∧ Built [] (unary room) := by
  induction room with
  | zero => exact ⟨.fail _, built_unaryOver (.fail _) (.fail _)⟩
  | succ room ih =>
    have hwhole : Built [] (assignment (expression room) (operators (unary room) Level.all)) :=
      built_assignment ih.1 (built_operators ih.2 Level.all)
    exact ⟨hwhole, built_unaryOver ih.2 hwhole⟩

theorem built_expression (room : Nat) : Built [] (expression room) :=
  (built_expression_unary room).1

theorem built_variableDecl {whole : Parse Expr} (hw : Built [] whole) :
    Built [] (variableDecl whole) true := by
  refine .take fun keyword => (built_expect _ _).any.bind fun name => ?_
  have hrest : ∀ initializer : Option Expr, Built [keyword] (do
      if decide (keyword.kind = .constWord) && initializer.isNone then recordHere .constantValue
      discard (expect .semicolon .declarationEnd)
      pure (Stmt.variableDecl name initializer (keyword.kind = .constWord))) := by
    intro initializer
    split
    · exact .recordHere _ (built_expecting _ _ (.pure _))
    · exact built_expecting _ _ (.pure _)
  exact .accept _ (fun _ _ => (hw.any.map some).bind fun initializer => (hrest initializer).mono
    (by simp)) (hrest none)

theorem built_functionDecl {body : Parse (List Stmt)} (hb : Built [] body) :
    Built [] (functionDecl body) true := by
  refine built_taking ?_
  refine (built_expect _ _).any.bind fun name => built_expecting _ _ ?_
  refine (built_listed _ (built_expect _ _)).any.bind fun parameters => ?_
  exact built_expecting _ _ (built_expecting _ _ (hb.any.bind fun _ => .pure _))

theorem built_block {item : Parse Stmt} (h : Built [] item) : Built [] (block item) :=
  .upcoming fun ts => ((built_itemsUntil _ h skipInBlock_suffix ts).bind fun body =>
    built_expecting _ _ (.pure body)).anywhere

theorem built_expressionStmt {whole : Parse Expr} (hw : Built [] whole) :
    Built [] (expressionStmt whole) :=
  hw.bind fun _ => built_expecting _ _ (.pure _)

theorem built_printStmt {whole : Parse Expr} (hw : Built [] whole) :
    Built [] (printStmt whole) true :=
  .take fun _ => hw.any.bind fun _ => built_expecting _ _ (.pure _)

theorem built_optional (stop : Kind) {whole : Parse Expr} (hw : Built [] whole) :
    Built [] (optional stop whole) := by
  refine .lookahead fun kind => ?_
  split
  · exact .pure none
  · exact (hw.map some).anywhere

theorem built_returnStmt (inFunction : Bool) {whole : Parse Expr} (hw : Built [] whole) :
    Built [] (returnStmt inFunction whole) true := by
  have hrest : ∀ keyword : Token, Built [keyword] (do
      let value ← optional .semicolon whole
      discard (expect .semicolon .returnEnd)
      pure (Stmt.returnStmt keyword value)) := fun keyword =>
    (built_optional _ hw).any.bind fun _ => built_expecting _ _ (.pure _)
  cases inFunction with
  | true => exact .take hrest
  | false => exact .takeRecorded .topLevelReturn hrest

theorem built_conditional {whole : Parse Expr} {branch : Parse Stmt} (hw : Built [] whole)
    (hb : Built [] branch) : Built [] (conditional whole branch) true := by
  refine built_taking (built_expecting _ _ (hw.bind fun condition => built_expecting _ _ ?_))
  refine hb.bind fun thenBranch => .accept _ (fun _ _ => ?_) (.pure _)
  exact hb.any.bind fun _ => .pure _

theorem built_whileLoop {whole : Parse Expr} {body : Parse Stmt} (hw : Built [] whole)
    (hb : Built [] body) : Built [] (whileLoop whole body) true := by
  refine .take fun keyword => built_expecting _ _ (hw.any.bind fun condition => ?_)
  exact built_expecting _ _ (hb.any.bind fun _ => .pure _)

theorem built_forInitializer {whole : Parse Expr} (hw : Built [] whole) :
    Built [] (forInitializer whole) := by
  refine .lookahead fun kind => ?_
  split
  · exact built_taking (.pure none)
  · exact (built_variableDecl hw).map some
  · exact (built_variableDecl hw).map some
  · exact ((built_expressionStmt hw).map some).anywhere

theorem built_forLoop {whole : Parse Expr} {body : Parse Stmt} (hw : Built [] whole)
    (hb : Built [] body) : Built [] (forLoop whole body) true := by
  refine .take fun keyword => built_expecting _ _ ?_
  refine (built_forInitializer hw).any.bind fun initializer => ?_
  refine (built_optional _ hw).any.bind fun condition => built_expecting _ _ ?_
  refine (built_optional _ hw).any.bind fun increment => built_expecting _ _ ?_
  exact hb.any.bind fun _ => .pure _

theorem built_statementOver (inFunction : Bool) {whole : Parse Expr} {branch item : Parse Stmt}
    (hw : Built [] whole) (hb : Built [] branch) (hi : Built [] item) :
    Built [] (statementOver inFunction whole branch item) := by
  refine .lookahead fun kind => ?_
  split
  · exact built_conditional hw hb
  · exact built_whileLoop hw hb
  · exact built_forLoop hw hb
  · exact built_returnStmt inFunction hw
  · exact built_printStmt hw
  · exact built_taking ((built_block hi).map Stmt.block)
  · exact (built_expressionStmt hw).anywhere

theorem built_declarationOver {whole : Parse Expr} {body : Parse (List Stmt)} {stmt : Parse Stmt}
    (hw : Built [] whole) (hb : Built [] body) (hs : Built [] stmt) :
    Built [] (declarationOver whole body stmt) := by
  refine .lookahead fun kind => ?_
  split
  · exact built_variableDecl hw
  · exact built_variableDecl hw
  · exact built_functionDecl hb
  · exact hs.anywhere

theorem built_statement_declaration (room : Nat) : ∀ inFunction : Bool,
    Built [] (statement room inFunction) ∧ Built [] (declaration room inFunction) := by
  induction room with
  | zero =>
    intro inFunction
    exact ⟨.fail _, built_declarationOver (built_expression 0) (.fail _) (.fail _)⟩
  | succ room ih =>
    intro inFunction
    have hstatement : Built [] (statement (room + 1) inFunction) :=
      built_statementOver inFunction (built_expression room) (ih inFunction).1 (ih inFunction).2
    exact ⟨hstatement, built_declarationOver (built_expression (room + 1))
      (built_block (ih true).2) hstatement⟩

end Routines

end Parse

/-- Whether the tokens ahead, the end of input and the tokens of the errors are as `S` says. -/
structure Cursor.Within (S : Token → Prop) (c : Cursor) : Prop where
  ahead : ∀ t ∈ c.ahead, S t
  finish : S c.finish
  errors : ∀ e ∈ c.errors, S e.token

namespace Cursor.Within

variable {S : Token → Prop} {c : Cursor}

theorem peek (h : c.Within S) : S c.peek := by
  unfold Cursor.peek
  cases hc : c.ahead with
  | nil => exact h.finish
  | cons t rest => exact h.ahead t (hc ▸ List.mem_cons_self)

theorem skip (h : c.Within S) {rest : List Token} (hrest : rest <:+ c.ahead) :
    { c with ahead := rest }.Within S :=
  ⟨fun t ht => h.ahead t (hrest.subset ht), h.finish, h.errors⟩

theorem take (h : c.Within S) : ∃ t d, Parse.take c = .ok t d ∧ S t ∧ d.Within S := by
  unfold Parse.take
  cases hc : c.ahead with
  | nil => exact ⟨c.finish, c, rfl, h.finish, h⟩
  | cons t rest =>
    have ht : t ∈ c.ahead := hc ▸ List.mem_cons_self
    exact ⟨t, _, rfl, h.ahead t ht, h.skip (hc ▸ List.suffix_cons t rest)⟩

theorem accept (h : c.Within S) (wanted : Kind → Bool) : Parse.accept wanted c = .ok none c ∨
    ∃ t d, Parse.accept wanted c = .ok (some t) d ∧ wanted t.kind = true ∧ S t ∧ d.Within S := by
  unfold Parse.accept
  cases hc : c.ahead with
  | nil => exact .inl rfl
  | cons t rest =>
    have ht : t ∈ c.ahead := hc ▸ List.mem_cons_self
    by_cases hw : wanted t.kind = true
    · exact .inr ⟨t, _, if_pos hw, hw, h.ahead t ht, h.skip (hc ▸ List.suffix_cons t rest)⟩
    · exact .inl (if_neg hw)

theorem record (h : c.Within S) {e : SyntaxError} (he : S e.token) : (c.record e).Within S := by
  refine ⟨h.ahead, h.finish, fun f hf => ?_⟩
  rcases List.mem_append.1 hf with hf | hf
  · exact h.errors f hf
  · rwa [List.mem_singleton.1 hf]

end Cursor.Within

namespace Parse

variable {α β : Type} {S : Token → Prop}

/-- Whether a routine ends within `S`, and fails only at tokens of `S`. -/
def Stays (S : Token → Prop) (r : Parse α) (c : Cursor) : Prop :=
  match r c with
  | .ok _ d => d.Within S
  | .error e d => d.Within S ∧ S e.token

theorem Stays.of_ok {r : Parse α} {f : α → Parse β} {c d : Cursor} {x : α} (h : r c = .ok x d)
    (k : Stays S (f x) d) : Stays S (r >>= f) c := by
  unfold Stays
  rw [bind_ok r f h]
  exact k

theorem Built.stays {held : List Token} {ready : Bool} {r : Parse α} (h : Built held r ready)
    (hheld : ∀ t ∈ held, S t) {c : Cursor} (hc : c.Within S) : Stays S r c := by
  induction h generalizing c with
  | pure x => exact hc
  | fail complaint => exact ⟨hc, hc.peek⟩
  | lookahead _ ih => exact .of_ok rfl (ih c.kind hheld hc)
  | upcoming _ ih => exact .of_ok rfl (ih c.ahead hheld hc)
  | take _ ih =>
    obtain ⟨t, d, htake, ht, hd⟩ := hc.take
    exact .of_ok htake (ih t (List.forall_mem_cons.2 ⟨ht, hheld⟩) hd)
  | takeRecorded complaint _ ih =>
    obtain ⟨t, d, htake, ht, hd⟩ := hc.take
    exact .of_ok htake (.of_ok rfl (ih t (List.forall_mem_cons.2 ⟨ht, hheld⟩) (hd.record ht)))
  | accept wanted _ _ ih ih' =>
    rcases hc.accept wanted with hnone | ⟨t, d, hsome, hwanted, ht, hd⟩
    · exact .of_ok hnone (ih' hheld hc)
    · exact .of_ok hsome (ih t hwanted (List.forall_mem_cons.2 ⟨ht, hheld⟩) hd)
  | recordHere complaint _ ih => exact .of_ok rfl (ih hheld (hc.record hc.peek))
  | recordHeld mem _ _ ih => exact .of_ok rfl (ih hheld (hc.record (hheld _ mem)))
  | @recovering _ _ _ _ item skipping suffix _ _ _ ih ih' =>
    have hitem := ih hheld hc
    unfold Stays at hitem
    cases hr : item c with
    | ok x d =>
      rw [hr] at hitem
      have hrun : Parse.recovering item skipping c = .ok (some x) d := by
        simp [Parse.recovering, hr]
      exact .of_ok hrun (ih' (some x) hheld hitem)
    | error e d =>
      rw [hr] at hitem
      have hrun : Parse.recovering item skipping c =
          .ok none { d.record e with ahead := skipping d.ahead } := by
        simp [Parse.recovering, hr]
      exact .of_ok hrun (ih' none hheld ((hitem.1.record hitem.2).skip (suffix _)))

end Parse

theorem Grammar.built_statements : Parse.Built [] Grammar.statements :=
  .upcoming fun ts =>
    (Parse.built_itemsUntil _ (Parse.built_statement_declaration _ _).2 Parse.skip_suffix
      ts).anywhere

/-- A failed reading has errors, and each stands at a token ahead or at the end of input. -/
theorem Grammar.errors_of_program {tokens : List Token} {errors : List SyntaxError}
    (h : Grammar.program tokens = .error errors) :
    errors ≠ [] ∧ ∀ e ∈ errors, e.token ∈ tokens.takeWhile (·.kind ≠ .endOfInput) ∨
      e.token = (Cursor.ofTokens tokens).finish := by
  set c := Cursor.ofTokens tokens with hc
  have hstart : c.Within fun t => t ∈ tokens.takeWhile (·.kind ≠ .endOfInput) ∨ t = c.finish :=
    ⟨fun _ => .inl, .inr rfl, fun _ h => absurd h List.not_mem_nil⟩
  have hstays := Grammar.built_statements.stays (fun _ h => absurd h List.not_mem_nil) hstart
  unfold Grammar.program Grammar.programFrom at h
  rw [← hc] at h
  unfold Parse.Stays at hstays
  cases hr : Grammar.statements c with
  | ok p d =>
    rw [hr] at h hstays
    cases herrors : d.errors with
    | nil => simp [Grammar.settle, herrors] at h
    | cons e es =>
      have heq : d.errors = errors := by simpa [Grammar.settle, herrors] using h
      exact ⟨by simp [← heq, herrors], heq ▸ hstays.errors⟩
  | error e d =>
    rw [hr] at h hstays
    have heq : (d.record e).errors = errors := Except.error.inj h
    exact ⟨by simp [← heq, Cursor.record], heq ▸ (hstays.1.record hstays.2).errors⟩

end Scriptlet
