import Scriptlet.Proofs.DescentRuns

/-!
What each routine reads. `parseOf` gives the parse that belongs to a routine, and `follows` says
that the routine carries it out. The loops come first: the grammar counts their rounds, and the
routines call themselves instead.
-/

namespace Scriptlet

namespace Descent

variable {α : Type} {n d : Nat}

theorem follows_listItem (tooMany : Complaint) {item : Routine α} {p : Parse α}
    (h : Follows n d item.code p) (count : Nat) :
    Follows n d (Code.listItem tooMany item count) (Parse.listItem tooMany p count) := by
  unfold Code.listItem Parse.listItem
  split
  · exact (follows_recordHere tooMany).bind fun _ => follows_run h
  · exact follows_run h

section Loops

variable {s : State}

theorem State.After.head?_ahead {s' : State} (h : s.After s')
    (hlength : s.cursor.ahead.length ≤ ([] : List Token).length) (wanted : Kind → Bool) :
    ∀ t ∈ s'.cursor.ahead.head?, wanted t.kind = false := by
  have hnone : s'.cursor.ahead = [] :=
    List.eq_nil_of_length_eq_zero (Nat.le_zero.1 (h.reaches.ahead.length_le.trans hlength))
  simp [hnone]

/-- The rounds of the loop do not run out before the tokens do. -/
theorem gives_commaSeparated {tooMany : Complaint} {item : Routine α} {p : Parse α}
    (again : Nat → Routine (List α))
    (hcode : ∀ count,
      (again count).code = Code.commaSeparated tooMany item (again (count + 1)) count)
    (h : Follows n d item.code p) (rounds : List Token) :
    ∀ (count : Nat) (s : State), s.Inside → s.nesting = n → s.functions = d →
      s.cursor.ahead.length ≤ rounds.length →
      Gives s (again count).code (Parse.commaSeparated tooMany p rounds count s.cursor) := by
  -- Each round but the last takes a comma, so a round is left as long as a token is.
  induction rounds with
  | nil =>
    intro count s hs hn hd hlength
    rw [hcode]
    refine .bind hs (follows_listItem tooMany h count s hs hn hd) fun x s' hs' _ => ?_
    exact .accept_none hs'.inside rfl (hs'.head?_ahead hlength _) (.done hs'.inside [x])
  | cons _ rounds ih =>
    intro count s hs hn hd hlength
    rw [hcode]
    refine .bind hs (follows_listItem tooMany h count s hs hn hd) fun x s' hs' _ => ?_
    refine .accept hs'.inside rfl ?_ (.done hs'.inside [x])
    intro t u hu hshorter
    have hle := hs'.reaches.ahead.length_le
    have hmore := ih (count + 1) u hu.inside (hu.nesting.trans (hs'.nesting.trans hn))
      (hu.functions.trans (hs'.functions.trans hd)) (by rw [List.length_cons] at hlength; omega)
    exact .bind hu.inside (.run hu.inside hmore) fun xs v hv _ => .done hv.inside (x :: xs)

theorem gives_operatorChain {level : Level} {tighter : List Level} {p : Parse Expr}
    (h : Follows n d (Routine.operators tighter).code p) (rounds : List Token) :
    ∀ (left : Expr) (s : State), s.Inside → s.nesting = n → s.functions = d →
      s.cursor.ahead.length ≤ rounds.length →
      Gives s (Routine.operatorChain level tighter left).code
        (Parse.operatorChain level p rounds left s.cursor) := by
  have hend : level.hasOperator .endOfInput = false := by cases level <;> rfl
  induction rounds with
  | nil =>
    intro left s hs hn hd hlength
    have hafter : s.After s := ⟨hs, rfl, rfl, .refl _⟩
    exact .accept_none hs hend (hafter.head?_ahead hlength _) (.done hs left)
  | cons _ rounds ih =>
    intro left s hs hn hd hlength
    refine .accept hs hend ?_ (.done hs left)
    intro operator s' hs' hshorter
    have hn' := hs'.nesting.trans hn
    have hd' := hs'.functions.trans hd
    refine .bind hs'.inside (.run hs'.inside (h s' hs'.inside hn' hd')) fun right u hu _ => ?_
    have hle := hu.reaches.ahead.length_le
    exact .run hu.inside (ih _ u hu.inside (hu.nesting.trans hn') (hu.functions.trans hd')
      (by rw [List.length_cons] at hlength; omega))

theorem gives_callChain {p : Parse Expr}
    (h : Follows n d Routine.arguments.code (Parse.listed .tooManyArguments p))
    (rounds : List Token) :
    ∀ (callee : Expr) (s : State), s.Inside → s.nesting = n → s.functions = d →
      s.cursor.ahead.length ≤ rounds.length →
      Gives s (Routine.callChain callee).code (Parse.callChain p rounds callee s.cursor) := by
  induction rounds with
  | nil =>
    intro callee s hs hn hd hlength
    have hafter : s.After s := ⟨hs, rfl, rfl, .refl _⟩
    exact .accept_none hs rfl (hafter.head?_ahead hlength _) (.done hs callee)
  | cons _ rounds ih =>
    intro callee s hs hn hd hlength
    refine .accept hs rfl ?_ (.done hs callee)
    intro _ s' hs' hshorter
    have hn' := hs'.nesting.trans hn
    have hd' := hs'.functions.trans hd
    refine .bind hs'.inside (.run hs'.inside (h s' hs'.inside hn' hd')) fun arguments u hu _ => ?_
    have hle := hu.reaches.ahead.length_le
    have hn'' := hu.nesting.trans hn'
    have hd'' := hu.functions.trans hd'
    refine .bind hu.inside (follows_expect (by decide) _ u hu.inside hn'' hd'') ?_
    intro paren v hv _
    have hle' := hv.reaches.ahead.length_le
    exact .run hv.inside (ih _ v hv.inside (hv.nesting.trans hn'') (hv.functions.trans hd'')
      (by rw [List.length_cons] at hlength; omega))

theorem gives_itemsUntil {stop : Kind → Bool} (hstop : stop .endOfInput = true)
    {skipper : Routine Unit} {again : Routine (List Stmt)}
    (hcode : again.code = Code.itemsUntil stop skipper again) {p : Parse Stmt}
    {skipping : List Token → List Token} (hitem : Follows n d Routine.declaration.code p)
    (hskip : Follows n d skipper.code (skipped skipping))
    (hrounds : Parse.RoundsAdvance stop p skipping) (rounds : List Token) :
    ∀ s : State, s.Inside → s.nesting = n → s.functions = d →
      s.cursor.ahead.length ≤ rounds.length →
      Gives s again.code (Parse.itemsUntil stop p skipping rounds s.cursor) := by
  induction rounds with
  | nil =>
    intro s hs hn hd hlength
    have hend : s.cursor.kind = .endOfInput := by
      rw [Cursor.kind, List.eq_nil_of_length_eq_zero (Nat.le_zero.1 hlength)]
    rw [hcode]
    refine .lookahead hs ?_
    rw [hend, hstop]
    exact .done hs []
  | cons _ rounds ih =>
    intro s hs hn hd hlength
    rw [hcode, Parse.itemsUntil,
      Parse.bind_ok Parse.lookahead _ (x := s.cursor.kind) (d := s.cursor) rfl]
    refine .lookahead hs ?_
    cases hkind : stop s.cursor.kind with
    | true => exact .done hs []
    | false =>
      have hround := hrounds s.cursor hkind
      refine .bind hs (follows_recovering hitem hskip s hs hn hd) fun x? s' hs' hx => ?_
      have hround : s'.cursor.ahead.length < s.cursor.ahead.length := by
        simpa [Parse.left, hx] using hround
      have hmore := ih s' hs'.inside (hs'.nesting.trans hn) (hs'.functions.trans hd)
        (by rw [List.length_cons] at hlength; omega)
      exact .bind hs'.inside (.run hs'.inside hmore) fun xs u hu _ =>
        .done hu.inside (x?.toList ++ xs)

theorem follows_upcoming {code : Code α} {loop : List Token → Parse α}
    (h : ∀ (rounds : List Token) (s : State), s.Inside → s.nesting = n → s.functions = d →
      s.cursor.ahead.length ≤ rounds.length → Gives s code (loop rounds s.cursor)) :
    Follows n d code (Parse.upcoming >>= loop) :=
  fun s hs hn hd => h s.cursor.ahead s hs hn hd (Nat.le_refl _)

end Loops

theorem follows_listed (tooMany : Complaint) {p : Parse α} {items : Routine (List α)}
    (h : Follows n d items.code
      (Parse.upcoming >>= fun ts => Parse.commaSeparated tooMany p ts 0)) :
    Follows n d (Code.listed items) (Parse.listed tooMany p) := by
  refine follows_lookahead.bind fun kind => ?_
  split
  · exact follows_pure []
  · exact follows_run h

theorem gives_skipped {s : State} (h : s.Inside) {skipping : List Token → List Token}
    (hstay : skipping s.cursor.ahead = s.cursor.ahead) :
    Gives s (.done ()) (skipped skipping s.cursor) := by
  rw [skipped, hstay]
  exact .done h ()

theorem follows_skipFrom (previous : Token) :
    Follows n d (Routine.skipFrom previous).code (skipped (Parse.skipFrom previous)) := by
  suffices ∀ (ahead : List Token) (previous : Token) (s : State), s.Inside →
      s.cursor.ahead = ahead → Gives s (Routine.skipFrom previous).code
        (skipped (Parse.skipFrom previous) s.cursor) from
    fun s hs _ _ => this s.cursor.ahead previous s hs rfl
  intro ahead
  induction ahead with
  | nil =>
    intro previous s hs hc
    refine .lookahead hs ?_
    rw [Cursor.kind, hc]
    exact gives_skipped hs (by rw [hc, Parse.skipFrom])
  | cons t ahead ih =>
    intro previous s hs hc
    have hkind : t.kind ≠ .endOfInput := hs.kind_ne (hc ▸ List.mem_cons_self)
    refine .lookahead hs ?_
    rw [Cursor.kind, hc]
    by_cases hstop : (previous.kind = .semicolon || t.kind.startsStatement) = true
    · rw [if_pos (by simpa [hkind] using hstop)]
      exact gives_skipped hs (by rw [hc, Parse.skipFrom, if_pos hstop])
    · rw [if_neg (by simpa [hkind] using hstop)]
      refine .take hs hc fun s' hs' hcursor => ?_
      have hskip : skipped (Parse.skipFrom previous) s.cursor =
          skipped (Parse.skipFrom t) s'.cursor := by
        rw [skipped, skipped, hc, hcursor, Parse.skipFrom, if_neg hstop]
      rw [hskip]
      exact .run hs'.inside (ih t s' hs'.inside (by rw [hcursor]))

theorem follows_skip : Follows n d Routine.skip.code (skipped Parse.skip) := by
  intro s hs hn hd
  cases hc : s.cursor.ahead with
  | nil =>
    refine .take_end hs hc ?_
    have hskip :
        skipped Parse.skip s.cursor = skipped (Parse.skipFrom s.cursor.finish) s.cursor := by
      rw [skipped, skipped, hc, Parse.skipFrom, Parse.skip]
    rw [hskip]
    exact .run hs (follows_skipFrom _ s hs hn hd)
  | cons t ahead =>
    refine .take hs hc fun s' hs' hcursor => ?_
    have hskip : skipped Parse.skip s.cursor = skipped (Parse.skipFrom t) s'.cursor := by
      rw [skipped, skipped, hc, hcursor, Parse.skip]
    rw [hskip]
    exact .run hs'.inside
      (follows_skipFrom t s' hs'.inside (hs'.nesting.trans hn) (hs'.functions.trans hd))

theorem follows_skipInBlock : Follows n d Routine.skipInBlock.code (skipped Parse.skipInBlock) := by
  suffices ∀ (ahead : List Token) (s : State), s.Inside → s.cursor.ahead = ahead →
      Gives s Routine.skipInBlock.code (skipped Parse.skipInBlock s.cursor) from
    fun s hs _ _ => this s.cursor.ahead s hs rfl
  intro ahead
  induction ahead with
  | nil =>
    intro s hs hc
    refine .lookahead hs ?_
    rw [Cursor.kind, hc]
    exact gives_skipped hs (by rw [hc, Parse.skipInBlock])
  | cons t ahead ih =>
    intro s hs hc
    have hkind : t.kind ≠ .endOfInput := hs.kind_ne (hc ▸ List.mem_cons_self)
    refine .lookahead hs ?_
    rw [Cursor.kind, hc]
    by_cases hbrace : t.kind = .rightBrace
    · rw [if_pos (by simp [hbrace])]
      exact gives_skipped hs (by rw [hc, Parse.skipInBlock, if_pos hbrace])
    · rw [if_neg (by simp [hbrace, hkind])]
      refine .take hs hc fun s' hs' hcursor => ?_
      have hnext : s'.cursor.kind.startsStatement = ahead.head?.any (·.kind.startsStatement) := by
        rw [hcursor]
        cases ahead <;> rfl
      refine .loseBrace (.lookahead hs'.inside ?_) t
      rw [hnext]
      by_cases hstop : (t.kind = .semicolon || ahead.head?.any (·.kind.startsStatement)) = true
      · have hskip : skipped Parse.skipInBlock s.cursor = .ok () s'.cursor := by
          rw [skipped, hc, hcursor, Parse.skipInBlock, if_neg hbrace, if_pos hstop]
        rw [if_pos hstop, hskip]
        exact .done hs'.inside ()
      · have hskip : skipped Parse.skipInBlock s.cursor =
            skipped Parse.skipInBlock s'.cursor := by
          rw [skipped, skipped, hc, hcursor, Parse.skipInBlock, if_neg hbrace, if_neg hstop]
        rw [if_neg hstop, hskip]
        exact .run hs'.inside (ih s' hs'.inside (by rw [hcursor]))

theorem follows_closing {kind : Kind} (hend : kind ≠ .endOfInput) (complaint : Complaint) (x : α) :
    Follows n d (do discard (Code.expect kind complaint); pure x)
      (do discard (Parse.expect kind complaint); pure x) :=
  (follows_expect hend complaint).discard.bind fun _ => follows_pure x

section Routines

variable {whole operand : Parse Expr} {body : Parse (List Stmt)} {branch item : Parse Stmt}

theorem follows_argumentsFrom (hw : Follows n d Routine.expression.code whole) (count : Nat) :
    Follows n d (Routine.argumentsFrom count).code
      (Parse.upcoming >>= fun ts => Parse.commaSeparated .tooManyArguments whole ts count) :=
  follows_upcoming fun rounds => gives_commaSeparated .argumentsFrom (fun _ => rfl) hw rounds count

theorem follows_arguments (hw : Follows n d Routine.expression.code whole) :
    Follows n d Routine.arguments.code (Parse.listed .tooManyArguments whole) :=
  follows_listed _ (follows_argumentsFrom hw 0)

theorem follows_primary (hw : Follows n d Routine.expression.code whole) :
    Follows n d Routine.primary.code (Parse.primary whole) := by
  intro s hs hn hd
  refine .peek hs ?_
  show Gives s (Code.primaryAt s.cursor.peek) _
  unfold Parse.primary Cursor.peek Code.primaryAt
  cases hc : s.cursor.ahead with
  | nil =>
    have hkind := hs.kind_finish
    have hconstant : Constant.ofToken? s.cursor.finish = none := by
      simp [Constant.ofToken?, hkind]
    simp only [List.headD_nil, hconstant, hkind]
    exact follows_fail _ s hs hn hd
  | cons t rest =>
    simp only [List.headD_cons]
    cases Constant.ofToken? t with
    | some value =>
      refine .take hs hc fun s' hs' hcursor => ?_
      have hdone := Gives.done hs'.inside (Expr.literal value)
      rw [hcursor] at hdone
      exact hdone
    | none =>
      cases t.kind with
      | identifier =>
        refine .take hs hc fun s' hs' hcursor => ?_
        have hdone := Gives.done hs'.inside (Expr.identifier t)
        rw [hcursor] at hdone
        exact hdone
      | leftParen =>
        refine .take hs hc fun s' hs' hcursor => ?_
        have hclosing : ∀ inner, Follows n d
            (do discard (Code.expect .rightParen .groupEnd); pure (Expr.grouping inner))
            (do discard (Parse.expect .rightParen .groupEnd); pure (Expr.grouping inner)) :=
          fun inner => follows_closing (by decide) _ _
        have hinner := ((follows_run hw).bind hclosing) s' hs'.inside (hs'.nesting.trans hn)
          (hs'.functions.trans hd)
        rw [hcursor] at hinner
        exact hinner
      | _ => exact follows_fail _ s hs hn hd

theorem follows_callChain (hw : Follows n d Routine.expression.code whole) (callee : Expr) :
    Follows n d (Routine.callChain callee).code
      (Parse.upcoming >>= fun ts => Parse.callChain whole ts callee) :=
  follows_upcoming fun rounds => gives_callChain (follows_arguments hw) rounds callee

theorem follows_call (hw : Follows n d Routine.expression.code whole) :
    Follows n d Routine.call.code (Parse.call whole) :=
  (follows_run (follows_primary hw)).bind fun callee => follows_run (follows_callChain hw callee)

theorem follows_unary (hw : Follows n d Routine.expression.code whole)
    (ho : Follows n d Routine.operand.code operand) :
    Follows n d Routine.unary.code (Parse.unaryOver operand whole) :=
  .accept rfl (fun _ => (follows_run ho).bind fun _ => follows_pure _)
    (follows_run (follows_call hw))

theorem follows_operators (hu : Follows n d Routine.unary.code operand) (levels : List Level) :
    Follows n d (Routine.operators levels).code (Parse.operators operand levels) := by
  induction levels with
  | nil => exact follows_run hu
  | cons level tighter ih =>
    exact (follows_run ih).bind fun left =>
      follows_run (follows_upcoming fun rounds => gives_operatorChain ih rounds left)

theorem follows_assignment (hw : Follows n d Routine.expression.code whole)
    (ho : Follows n d (Routine.operators Level.all).code operand) :
    Follows n d Routine.assignment.code (Parse.assignment whole operand) := by
  refine (follows_run ho).bind fun left => .accept rfl (fun equals => ?_) (follows_pure left)
  refine (follows_run hw).bind fun value => ?_
  cases left with
  | identifier name => exact follows_pure _
  | _ => exact (follows_record _).bind fun _ => follows_pure _

theorem follows_parametersFrom (count : Nat) :
    Follows n d (Routine.parametersFrom count).code (Parse.upcoming >>= fun ts =>
      Parse.commaSeparated .tooManyParameters (Parse.expect .identifier .parameterName) ts count) :=
  follows_upcoming fun rounds =>
    gives_commaSeparated .parametersFrom (fun _ => rfl) (follows_expect (by decide) _) rounds count

theorem follows_parameters :
    Follows n d Routine.parameters.code
      (Parse.listed .tooManyParameters (Parse.expect .identifier .parameterName)) :=
  follows_listed _ (follows_parametersFrom 0)

theorem follows_optional (hw : Follows n d Routine.expression.code whole) (stop : Kind) :
    Follows n d (Routine.optional stop).code (Parse.optional stop whole) := by
  refine follows_lookahead.bind fun kind => ?_
  split
  · exact follows_pure none
  · exact (follows_run hw).map some

theorem follows_variableDecl (hw : Follows n d Routine.expression.code whole) :
    Follows n d Routine.variableDecl.code (Parse.variableDecl whole) := by
  refine follows_take.bind fun keyword => (follows_expect (by decide) _).bind fun name => ?_
  have hrest : ∀ initializer : Option Expr, Follows n d (do
      if decide (keyword.kind = .constWord) && initializer.isNone then
        Code.recordHere .constantValue
      discard (Code.expect .semicolon .declarationEnd)
      pure (Stmt.variableDecl name initializer (keyword.kind = .constWord))) (do
      if decide (keyword.kind = .constWord) && initializer.isNone then
        Parse.recordHere .constantValue
      discard (Parse.expect .semicolon .declarationEnd)
      pure (Stmt.variableDecl name initializer (keyword.kind = .constWord))) := by
    intro initializer
    split
    · exact (follows_recordHere _).bind fun _ => follows_closing (by decide) _ _
    · exact follows_closing (by decide) _ _
  exact .accept rfl (fun _ => ((follows_run hw).map some).bind hrest) (hrest none)

theorem follows_functionDecl (hb : Follows n (d + 1) Routine.body.code body) :
    Follows n d Routine.functionDecl.code (Parse.functionDecl body) := by
  refine follows_take.discard.bind fun _ => (follows_expect (by decide) _).bind fun name => ?_
  refine (follows_expect (by decide) _).discard.bind fun _ => ?_
  refine (follows_run follows_parameters).bind fun parameters => ?_
  refine (follows_expect (by decide) _).discard.bind fun _ => ?_
  rw [Parse.discard_eq_bind, bind_assoc]
  refine (follows_expect (by decide) _).bind fun brace => ?_
  exact (follows_run (follows_functionBody brace hb)).bind fun _ => follows_pure _

theorem follows_expressionStmt (hw : Follows n d Routine.expression.code whole) :
    Follows n d Routine.expressionStmt.code (Parse.expressionStmt whole) :=
  (follows_run hw).bind fun _ => follows_closing (by decide) _ _

theorem follows_printStmt (hw : Follows n d Routine.expression.code whole) :
    Follows n d Routine.printStmt.code (Parse.printStmt whole) :=
  follows_take.bind fun _ => (follows_run hw).bind fun _ => follows_closing (by decide) _ _

theorem follows_returnStmt (hw : Follows n d Routine.expression.code whole) :
    Follows n d Routine.returnStmt.code (Parse.returnStmt (0 < d) whole) := by
  refine follows_take.bind fun keyword => .functions ?_
  have hrest : Follows n d (do
      let value ← Code.run (.optional .semicolon)
      discard (Code.expect .semicolon .returnEnd)
      pure (Stmt.returnStmt keyword value)) (do
      let value ← Parse.optional .semicolon whole
      discard (Parse.expect .semicolon .returnEnd)
      pure (Stmt.returnStmt keyword value)) :=
    (follows_run (follows_optional hw _)).bind fun _ => follows_closing (by decide) _ _
  by_cases hd : d = 0
  · subst hd
    exact (follows_record _).bind fun _ => hrest
  · have hpos : 0 < d := Nat.pos_of_ne_zero hd
    simp only [hd, hpos, if_false, decide_true, Bool.not_true, Bool.false_eq_true]
    exact hrest

theorem follows_conditional (hw : Follows n d Routine.expression.code whole)
    (hb : Follows n d Routine.statement.code branch) :
    Follows n d Routine.conditional.code (Parse.conditional whole branch) := by
  refine follows_take.discard.bind fun _ => (follows_expect (by decide) _).discard.bind fun _ => ?_
  refine (follows_run hw).bind fun condition => ?_
  refine (follows_expect (by decide) _).discard.bind fun _ => ?_
  refine (follows_run hb).bind fun thenBranch => .accept rfl (fun _ => ?_) (follows_pure _)
  exact (follows_run hb).bind fun _ => follows_pure _

theorem follows_whileLoop (hw : Follows n d Routine.expression.code whole)
    (hb : Follows n d Routine.statement.code branch) :
    Follows n d Routine.whileLoop.code (Parse.whileLoop whole branch) := by
  refine follows_take.bind fun keyword => (follows_expect (by decide) _).discard.bind fun _ => ?_
  refine (follows_run hw).bind fun condition => ?_
  refine (follows_expect (by decide) _).discard.bind fun _ => ?_
  exact (follows_run hb).bind fun _ => follows_pure _

theorem follows_forInitializer (hw : Follows n d Routine.expression.code whole) :
    Follows n d Routine.forInitializer.code (Parse.forInitializer whole) := by
  refine follows_lookahead.bind fun kind => ?_
  cases kind with
  | semicolon => exact follows_take.discard.bind fun _ => follows_pure none
  | letWord => exact (follows_run (follows_variableDecl hw)).map some
  | constWord => exact (follows_run (follows_variableDecl hw)).map some
  | _ => exact (follows_run (follows_expressionStmt hw)).map some

theorem follows_forLoop (hw : Follows n d Routine.expression.code whole)
    (hb : Follows n d Routine.statement.code branch) :
    Follows n d Routine.forLoop.code (Parse.forLoop whole branch) := by
  refine follows_take.bind fun keyword => (follows_expect (by decide) _).discard.bind fun _ => ?_
  refine (follows_run (follows_forInitializer hw)).bind fun initializer => ?_
  refine (follows_run (follows_optional hw _)).bind fun condition => ?_
  refine (follows_expect (by decide) _).discard.bind fun _ => ?_
  refine (follows_run (follows_optional hw _)).bind fun increment => ?_
  refine (follows_expect (by decide) _).discard.bind fun _ => ?_
  exact (follows_run hb).bind fun _ => follows_pure _

theorem follows_declaration (hw : Follows n d Routine.expression.code whole)
    (hb : Follows n (d + 1) Routine.body.code body)
    (hs : Follows n d Routine.statement.code branch) :
    Follows n d Routine.declaration.code (Parse.declarationOver whole body branch) := by
  refine follows_lookahead.bind fun kind => ?_
  cases kind with
  | letWord => exact follows_run (follows_variableDecl hw)
  | constWord => exact follows_run (follows_variableDecl hw)
  | functionWord => exact follows_run (follows_functionDecl hb)
  | _ => exact follows_run hs

theorem follows_blockItems (hi : Follows n d Routine.declaration.code item)
    (hrounds : Parse.RoundsAdvance (fun kind => kind = .rightBrace || kind = .endOfInput) item
      Parse.skipInBlock) :
    Follows n d Routine.blockItems.code (Parse.upcoming >>= Parse.itemsUntil
      (fun kind => kind = .rightBrace || kind = .endOfInput) item Parse.skipInBlock) :=
  follows_upcoming fun rounds =>
    gives_itemsUntil rfl rfl hi follows_skipInBlock hrounds rounds

theorem follows_block (hi : Follows n d Routine.declaration.code item)
    (hrounds : Parse.RoundsAdvance (fun kind => kind = .rightBrace || kind = .endOfInput) item
      Parse.skipInBlock) :
    Follows n d Routine.block.code (Parse.block item) :=
  (follows_run (follows_blockItems hi hrounds)).bind fun _ => follows_closing (by decide) _ _

theorem follows_plain (hw : Follows n d Routine.expression.code whole)
    (hb : Follows n d Routine.statement.code branch)
    (hblock : Follows n d Routine.block.code (Parse.block item)) :
    Follows n d Routine.plain.code (Parse.statementOver (0 < d) whole branch item) := by
  refine follows_lookahead.bind fun kind => ?_
  cases kind with
  | ifWord => exact follows_run (follows_conditional hw hb)
  | whileWord => exact follows_run (follows_whileLoop hw hb)
  | forWord => exact follows_run (follows_forLoop hw hb)
  | returnWord => exact follows_run (follows_returnStmt hw)
  | printWord => exact follows_run (follows_printStmt hw)
  | leftBrace => exact follows_take.discard.bind fun _ => (follows_run hblock).map Stmt.block
  | _ => exact follows_run (follows_expressionStmt hw)

end Routines

def operandWithin : Nat → Parse Expr
  | 0 => Parse.fail .tooMuchNesting
  | room + 1 => Parse.unary room

def bodyWithin (inFunction : Bool) : Nat → Parse (List Stmt)
  | 0 => Parse.fail .tooMuchNesting
  | room + 1 => Parse.block (Parse.declaration room inFunction)

open Parse in
/-- The parse that a routine carries out. -/
def parseOf (room : Nat) (inFunction : Bool) : {α : Type} → Routine α → Parse α
  | _, .expression => expression room
  | _, .assignment => assignment (expression room) (operators (unary room) Level.all)
  | _, .operators levels => operators (unary room) levels
  | _, .operatorChain level tighter left => do
    operatorChain level (operators (unary room) tighter) (← upcoming) left
  | _, .operand => operandWithin room
  | _, .unary => unary room
  | _, .call => call (expression room)
  | _, .callChain callee => do callChain (expression room) (← upcoming) callee
  | _, .primary => primary (expression room)
  | _, .arguments => listed .tooManyArguments (expression room)
  | _, .argumentsFrom count => do
    commaSeparated .tooManyArguments (expression room) (← upcoming) count
  | _, .parameter => expect .identifier .parameterName
  | _, .parameters => listed .tooManyParameters (expect .identifier .parameterName)
  | _, .parametersFrom count => do
    commaSeparated .tooManyParameters (expect .identifier .parameterName) (← upcoming) count
  | _, .optional stop => optional stop (expression room)
  | _, .variableDecl => variableDecl (expression room)
  | _, .functionDecl => functionDecl (bodyWithin true room)
  | _, .functionBody _ => bodyWithin true room
  | _, .body => bodyWithin inFunction room
  | _, .block => block (declaration room inFunction)
  | _, .blockItems => do
    itemsUntil (fun kind => kind = .rightBrace || kind = .endOfInput)
      (declaration room inFunction) skipInBlock (← upcoming)
  | _, .expressionStmt => expressionStmt (expression room)
  | _, .printStmt => printStmt (expression room)
  | _, .returnStmt => returnStmt inFunction (expression room)
  | _, .conditional => conditional (expression room) (statement room inFunction)
  | _, .whileLoop => whileLoop (expression room) (statement room inFunction)
  | _, .forInitializer => forInitializer (expression room)
  | _, .forLoop => forLoop (expression room) (statement room inFunction)
  | _, .statement => statement room inFunction
  | _, .plain =>
    statementOver inFunction (expression room) (statement room inFunction)
      (declaration room inFunction)
  | _, .declaration => declaration room inFunction
  | _, .skip => skipped skip
  | _, .skipFrom previous => skipped (skipFrom previous)
  | _, .skipInBlock => skipped skipInBlock
  | _, .statements => do
    itemsUntil (· = .endOfInput) (declaration room inFunction) skip (← upcoming)
  | _, .wholeExpression => do
    let value ← expression room
    if (← lookahead) ≠ .endOfInput then recordHere .endOfExpression
    pure value

theorem unary_eq (room : Nat) :
    Parse.unary room = Parse.unaryOver (operandWithin room) (Parse.expression room) := by
  cases room <;> rfl

theorem declaration_eq (room : Nat) (inFunction : Bool) :
    Parse.declaration room inFunction = Parse.declarationOver (Parse.expression room)
      (bodyWithin true room) (Parse.statement room inFunction) := by
  cases room <;> rfl

theorem follows_level (room : Nat)
    (he : ∀ d, Follows n d Routine.expression.code (Parse.expression room))
    (ho : ∀ d, Follows n d Routine.operand.code (operandWithin room))
    (hs : ∀ d, Follows n d Routine.statement.code (Parse.statement room (0 < d)))
    (hb : ∀ d, Follows n d Routine.body.code (bodyWithin (0 < d) room)) (d : Nat)
    (r : Routine α) : Follows n d r.code (parseOf room (0 < d) r) := by
  have hunary : Follows n d Routine.unary.code (Parse.unary room) := by
    rw [unary_eq]
    exact follows_unary (he d) (ho d)
  have hoperators := follows_operators hunary
  have hbody : Follows n (d + 1) Routine.body.code (bodyWithin true room) := by
    simpa using hb (d + 1)
  have hdeclaration : Follows n d Routine.declaration.code (Parse.declaration room (0 < d)) := by
    rw [declaration_eq]
    exact follows_declaration (he d) hbody (hs d)
  have hblock := follows_block hdeclaration (Parse.rounds_advance_in_block room _)
  cases r with
  | expression => exact he d
  | assignment => exact follows_assignment (he d) (hoperators _)
  | operators levels => exact hoperators levels
  | operatorChain level tighter left =>
    exact follows_upcoming fun rounds => gives_operatorChain (hoperators tighter) rounds left
  | operand => exact ho d
  | unary => exact hunary
  | call => exact follows_call (he d)
  | callChain callee => exact follows_callChain (he d) callee
  | primary => exact follows_primary (he d)
  | arguments => exact follows_arguments (he d)
  | argumentsFrom count => exact follows_argumentsFrom (he d) count
  | parameter => exact follows_expect (by decide) _
  | parameters => exact follows_parameters
  | parametersFrom count => exact follows_parametersFrom count
  | optional stop => exact follows_optional (he d) stop
  | variableDecl => exact follows_variableDecl (he d)
  | functionDecl => exact follows_functionDecl hbody
  | functionBody brace => exact follows_functionBody brace hbody
  | body => exact hb d
  | block => exact hblock
  | blockItems =>
    exact follows_blockItems hdeclaration (Parse.rounds_advance_in_block room _)
  | expressionStmt => exact follows_expressionStmt (he d)
  | printStmt => exact follows_printStmt (he d)
  | returnStmt => exact follows_returnStmt (he d)
  | conditional => exact follows_conditional (he d) (hs d)
  | whileLoop => exact follows_whileLoop (he d) (hs d)
  | forInitializer => exact follows_forInitializer (he d)
  | forLoop => exact follows_forLoop (he d) (hs d)
  | statement => exact hs d
  | plain => exact follows_plain (he d) (hs d) hblock
  | declaration => exact hdeclaration
  | skip => exact follows_skip
  | skipFrom previous => exact follows_skipFrom previous
  | skipInBlock => exact follows_skipInBlock
  | statements =>
    exact follows_upcoming fun rounds =>
      gives_itemsUntil rfl rfl hdeclaration follows_skip (Parse.rounds_advance_at_top room _) rounds
  | wholeExpression =>
    refine (follows_run (he d)).bind fun value => follows_lookahead.bind fun kind => ?_
    dsimp only
    by_cases hend : kind = .endOfInput
    · rw [if_neg (not_not.2 hend), if_neg (not_not.2 hend)]
      exact follows_pure value
    · rw [if_pos hend, if_pos hend]
      exact (follows_recordHere .endOfExpression).bind fun _ => follows_pure value

/-- Every routine carries out its parse, with the room that the counter of levels leaves. -/
theorem follows (n d : Nat) (r : Routine α) :
    Follows n d r.code (parseOf (Grammar.nestingLimit - n) (0 < d) r) := by
  -- The induction is on the room: a routine that opens a level calls routines of the next one.
  generalize hroom : Grammar.nestingLimit - n = room
  induction room generalizing α n d with
  | zero =>
    have hfull : Grammar.nestingLimit ≤ n := by omega
    exact follows_level 0 (fun d => follows_nested_full _ hfull)
      (fun d => follows_nested_full _ hfull) (fun d => follows_nested_full _ hfull)
      (fun d => follows_nested_full _ hfull) d r
  | succ room ih =>
    have hlimit : n < Grammar.nestingLimit := by omega
    have hinner {β : Type} (d : Nat) (r : Routine β) :
        Follows n d (Code.nested r) (parseOf room (0 < d) r) :=
      follows_nested hlimit (ih (n + 1) d r (by omega))
    exact follows_level (room + 1) (fun d => hinner d .assignment) (fun d => hinner d .unary)
      (fun d => hinner d .plain) (fun d => hinner d .block) d r

end Descent

end Scriptlet
