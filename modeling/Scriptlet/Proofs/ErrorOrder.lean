import Scriptlet.Proofs.Braces

/-!
Syntax errors come in the order of the source. What a run records is read off the states it comes
to: each error with the index of the next token at that time. The error is about that token, or
about the keyword just taken if a `return` stands outside of functions. Only an assignment to
something that cannot be assigned to is reported later, when its value has been read; its token is
the `=`, somewhere before.

A code keeps this order if it keeps it from every index on. A routine that fails blames the token
where it stops, so that its error is in order whoever records it.
-/

namespace Scriptlet

namespace Descent

def freshErrors (s s' : State) : List (SyntaxError × Nat) :=
  (s'.errors.drop s.errors.length).map fun e => (e, s'.current)

/-- The errors that were recorded on the way, each with the index of the next token at that time. -/
def recorded (s : State) : List Event → List (SyntaxError × Nat)
  | [] => []
  | .reached s' :: events => freshErrors s s' ++ recorded s' events
  | .lost _ :: events => recorded s events

section Recorded

variable {α β : Type} {code : Code α} {s s' : State} {events : List Event}
  {result : EStateM.Result SyntaxError State α}

theorem Runs.recorded_append (h : Runs code s events result) (more : List Event) :
    recorded s (events ++ more) = recorded s events ++ recorded (State.reached result) more := by
  induction h generalizing more with
  | done x s => rfl
  | raise e s => rfl
  | act performed _ ih =>
    simp only [List.cons_append, recorded, ih, List.append_assoc]
  | lose _ ih => exact ih more
  | returned _ _ ih ih' =>
    rw [List.append_assoc, ih, ih, List.append_assoc]
    exact congrArg _ (ih' more)
  | failed _ _ ih ih' =>
    rw [List.append_assoc, ih, ih, List.append_assoc]
    exact congrArg _ (ih' more)

def Action.writes : Action β → List SyntaxError
  | .record e => [e]
  | _ => []

theorem Action.perform_frame {action : Action β} {y : β}
    (performed : action.perform s = some (y, s')) :
    s'.tokens = s.tokens ∧ s'.errors = s.errors ++ action.writes := by
  have hnone : s.errors = s.errors ++ [] := (List.append_nil _).symm
  cases action with
  | peek =>
    obtain ⟨_, -, heq⟩ := Option.map_eq_some_iff.1 performed
    cases heq
    exact ⟨rfl, hnone⟩
  | take =>
    obtain ⟨_, -, heq⟩ := Option.map_eq_some_iff.1 performed
    cases heq
    split
    · exact ⟨rfl, hnone⟩
    · exact ⟨rfl, hnone⟩
  | record e =>
    cases performed
    exact ⟨rfl, rfl⟩
  | _ =>
    cases performed
    exact ⟨rfl, hnone⟩

theorem Action.freshErrors_perform {action : Action β} {y : β}
    (performed : action.perform s = some (y, s')) :
    freshErrors s s' = action.writes.map fun e => (e, s'.current) := by
  rw [freshErrors, (Action.perform_frame performed).2, List.drop_left]

theorem Action.errors_perform {action : Action β} {y : β}
    (performed : action.perform s = some (y, s')) :
    s.errors ++ (freshErrors s s').map Prod.fst = s'.errors := by
  have hid : (Prod.fst ∘ fun e : SyntaxError => (e, s'.current)) = id := rfl
  rw [Action.freshErrors_perform performed, List.map_map, hid, List.map_id,
    (Action.perform_frame performed).2]

/-- Nothing that is recorded is lost, and nothing else is. -/
theorem Runs.errors_recorded (h : Runs code s events result) :
    s.errors ++ (recorded s events).map Prod.fst = (State.reached result).errors := by
  induction h with
  | done x s => exact List.append_nil _
  | raise e s => exact List.append_nil _
  | act performed _ ih =>
    rw [recorded, List.map_append, ← List.append_assoc, Action.errors_perform performed, ih]
  | lose _ ih => exact ih
  | returned called _ ih ih' =>
    rw [called.recorded_append, List.map_append, ← List.append_assoc, ih]
    exact ih'
  | failed called _ ih ih' =>
    rw [called.recorded_append, List.map_append, ← List.append_assoc, ih]
    exact ih'

end Recorded

structure Recording where
  error : SyntaxError
  index : Nat
  /-- The index of the next token when the error was recorded. -/
  cursor : Nat

/-- Whether an error's token stands where it should. -/
structure Recording.Located (tokens : List Token) (r : Recording) : Prop where
  token : tokens[r.index]? = some r.error.token
  target : r.error.complaint = .invalidTarget → r.error.token.kind = .equal ∧ r.index < r.cursor
  near : r.error.complaint ≠ .invalidTarget →
    r.index = r.cursor ∨ r.error.complaint = .topLevelReturn ∧ r.index + 1 = r.cursor

/-- Whether errors stand in the order of their tokens, invalid targets apart. -/
structure InSourceOrder (tokens : List Token) (recordings : List Recording) : Prop where
  located : ∀ r ∈ recordings, r.Located tokens
  ordered : (recordings.filter (·.error.complaint ≠ .invalidTarget)).Pairwise (·.index ≤ ·.index)

/-- Whether what was recorded up to an index is in order and no error is about a later token. -/
def Tidy (tokens : List Token) (i : Nat) (log : List (SyntaxError × Nat)) : Prop :=
  ∃ recordings : List Recording, recordings.map (fun r => (r.error, r.cursor)) = log ∧
    InSourceOrder tokens recordings ∧ ∀ r ∈ recordings, r.index ≤ i

section Tidy

variable {tokens : List Token} {i j : Nat} {log : List (SyntaxError × Nat)}

theorem InSourceOrder.append {recordings : List Recording} {r : Recording}
    (h : InSourceOrder tokens recordings) (hr : r.Located tokens)
    (hlast : r.error.complaint ≠ .invalidTarget → ∀ r' ∈ recordings, r'.index ≤ r.index) :
    InSourceOrder tokens (recordings ++ [r]) := by
  refine ⟨?_, ?_⟩
  · intro r' hr'
    rcases List.mem_append.1 hr' with hold | hnew
    · exact h.located r' hold
    · rw [List.mem_singleton.1 hnew]
      exact hr
  · rw [List.filter_append, List.pairwise_append]
    refine ⟨h.ordered, List.Pairwise.filter _ (List.pairwise_singleton _ _), ?_⟩
    intro r' hr' r'' hr''
    obtain ⟨hmem, hcomplaint⟩ := List.mem_filter.1 hr''
    rw [List.mem_singleton.1 hmem] at hcomplaint ⊢
    exact hlast (of_decide_eq_true hcomplaint) r' (List.mem_filter.1 hr').1

theorem tidy_nil (tokens : List Token) (i : Nat) : Tidy tokens i [] :=
  ⟨[], rfl, ⟨by simp, List.Pairwise.nil⟩, by simp⟩

theorem Tidy.mono (h : Tidy tokens i log) (hij : i ≤ j) : Tidy tokens j log := by
  obtain ⟨recordings, hmap, horder, hbound⟩ := h
  exact ⟨recordings, hmap, horder, fun r hr => (hbound r hr).trans hij⟩

theorem Recording.Located.index_le {r : Recording} (h : r.Located tokens) : r.index ≤ r.cursor := by
  by_cases htarget : r.error.complaint = .invalidTarget
  · exact (h.target htarget).2.le
  · have hnear := h.near htarget
    omega

theorem Tidy.append {r : Recording} (h : Tidy tokens i log) (hr : r.Located tokens)
    (hi : i ≤ r.cursor) (hlast : r.error.complaint ≠ .invalidTarget → i ≤ r.index) :
    Tidy tokens r.cursor (log ++ [(r.error, r.cursor)]) := by
  obtain ⟨recordings, rfl, horder, hbound⟩ := h
  have hordered : InSourceOrder tokens (recordings ++ [r]) :=
    horder.append hr fun hne r' hr' => (hbound r' hr').trans (hlast hne)
  refine ⟨recordings ++ [r], List.map_append, hordered, ?_⟩
  intro r' hr'
  rcases List.mem_append.1 hr' with hold | hnew
  · exact (hbound r' hold).trans hi
  · rw [List.mem_singleton.1 hnew]
    exact hr.index_le

theorem Tidy.report {e : SyntaxError} (h : Tidy tokens i log) (ht : tokens[i]? = some e.token)
    (hcomplaint : e.complaint ≠ .invalidTarget)
    (hnear : i = j ∨ e.complaint = .topLevelReturn ∧ i + 1 = j) :
    Tidy tokens j (log ++ [(e, j)]) := by
  have hlocated : Recording.Located tokens ⟨e, i, j⟩ :=
    ⟨ht, fun htarget => absurd htarget hcomplaint, fun _ => hnear⟩
  exact h.append hlocated hlocated.index_le fun _ => le_rfl

theorem Tidy.target {t : Token} (h : Tidy tokens i log) (ht : tokens[j]? = some t)
    (hkind : t.kind = .equal) (hji : j < i) :
    Tidy tokens i (log ++ [(⟨.invalidTarget, t⟩, i)]) := by
  have hlocated : Recording.Located tokens ⟨⟨.invalidTarget, t⟩, j, i⟩ :=
    ⟨ht, fun _ => ⟨hkind, hji⟩, fun hne => absurd rfl hne⟩
  exact h.append hlocated le_rfl fun hne => absurd rfl hne

end Tidy

/-- What can be said of an error that is raised: it is about the next token. -/
structure Blames (tokens : List Token) (i : Nat) (e : SyntaxError) : Prop where
  token : tokens[i]? = some e.token
  complaint : e.complaint ≠ .invalidTarget

/-- What holds after a code that started at or behind an index. -/
def EndsTidy (tokens : List Token) (start : Nat) {α : Type} :
    Except SyntaxError α → Nat → List (SyntaxError × Nat) → Prop
  | .ok _, i, log => start ≤ i ∧ Tidy tokens i log
  | .error e, i, log => start ≤ i ∧ Tidy tokens i log ∧ Blames tokens i e

def Routine.anywhere : {α : Type} → Routine α → Bool
  | _, .returnStmt => false
  | _, _ => true

/-- What a routine needs of the token it is called at: behind it the next index comes. -/
def Routine.Starts (tokens : List Token) {α : Type} (r : Routine α) (i : Nat) : Prop :=
  r.anywhere = false → ∀ t, tokens[i]? = some t → t.kind ≠ .endOfInput

theorem Routine.starts_of_anywhere {tokens : List Token} {α : Type} {r : Routine α}
    (h : r.anywhere = true) (i : Nat) : r.Starts tokens i := by
  intro hfalse
  rw [h] at hfalse
  cases hfalse

def Action.wpAt (tokens : List Token) : {β : Type} → Action β →
    (β → Nat → List (SyntaxError × Nat) → Prop) → Nat → List (SyntaxError × Nat) → Prop
  | _, .peek, next, i, log => ∀ t, tokens[i]? = some t → next t i log
  | _, .take, next, i, log => ∀ t, tokens[i]? = some t →
    next t (if t.kind = .endOfInput then i else i + 1) log
  | _, .record e, next, i, log => next () i (log ++ [(e, i)])
  | _, .nesting, next, i, log => ∀ n, next n i log
  | _, .enter, next, i, log => next () i log
  | _, .leave, next, i, log => next () i log
  | _, .functions, next, i, log => ∀ n, next n i log
  | _, .enterFunction, next, i, log => next () i log
  | _, .leaveFunction, next, i, log => next () i log

/-- What has to hold before a code. A call needs order and keeps it. -/
def Code.wpAt (tokens : List Token) {α : Type}
    (post : Except SyntaxError α → Nat → List (SyntaxError × Nat) → Prop) :
    Code α → Nat → List (SyntaxError × Nat) → Prop
  | .done x, i, log => post (.ok x) i log
  | .raise e, i, log => post (.error e) i log
  | .act action next, i, log => action.wpAt tokens (fun y => wpAt tokens post (next y)) i log
  | .lose _ next, i, log => wpAt tokens post next i log
  | .attempt r next, i, log =>
    r.Starts tokens i ∧ Tidy tokens i log ∧ ∀ result j log',
      EndsTidy tokens i result j log' → wpAt tokens post (next result) j log'

section WpAt

variable {α β : Type} {tokens : List Token} {i : Nat} {log : List (SyntaxError × Nat)}

theorem Action.wpAt_mono {action : Action β}
    {next next' : β → Nat → List (SyntaxError × Nat) → Prop}
    (h : ∀ y i log, next y i log → next' y i log)
    (hwp : action.wpAt tokens next i log) : action.wpAt tokens next' i log := by
  cases action with
  | peek => exact fun t ht => h _ _ _ (hwp t ht)
  | take => exact fun t ht => h _ _ _ (hwp t ht)
  | nesting => exact fun n => h _ _ _ (hwp n)
  | functions => exact fun n => h _ _ _ (hwp n)
  | _ => exact h _ _ _ hwp

theorem Code.wpAt_mono {code : Code α}
    {post post' : Except SyntaxError α → Nat → List (SyntaxError × Nat) → Prop}
    (h : ∀ result i log, post result i log → post' result i log)
    (hwp : code.wpAt tokens post i log) : code.wpAt tokens post' i log := by
  induction code generalizing i log with
  | done x => exact h _ _ _ hwp
  | raise e => exact h _ _ _ hwp
  | act action next ih => exact Action.wpAt_mono (fun y _ _ hy => ih y hy) hwp
  | lose brace next ih => exact ih hwp
  | attempt r next ih =>
    obtain ⟨hstarts, htidy, hnext⟩ := hwp
    exact ⟨hstarts, htidy, fun result j log' hj => ih result (hnext result j log' hj)⟩

def between (tokens : List Token) (f : α → Code β)
    (post : Except SyntaxError β → Nat → List (SyntaxError × Nat) → Prop) :
    Except SyntaxError α → Nat → List (SyntaxError × Nat) → Prop
  | .ok x => (f x).wpAt tokens post
  | .error e => post (.error e)

theorem Code.wpAt_bind {code : Code α} {f : α → Code β}
    {post : Except SyntaxError β → Nat → List (SyntaxError × Nat) → Prop}
    (h : code.wpAt tokens (between tokens f post) i log) :
    (code >>= f).wpAt tokens post i log := by
  induction code generalizing i log with
  | done x => exact h
  | raise e => exact h
  | act action next ih => exact Action.wpAt_mono (fun y _ _ hy => ih y hy) h
  | lose brace next ih => exact ih h
  | attempt r next ih =>
    obtain ⟨hstarts, htidy, hnext⟩ := h
    exact ⟨hstarts, htidy, fun result j log' hj => ih result (hnext result j log' hj)⟩

theorem Code.wpAt_lookahead {f : Kind → Code α}
    {post : Except SyntaxError α → Nat → List (SyntaxError × Nat) → Prop}
    (h : ∀ t, tokens[i]? = some t → (f t.kind).wpAt tokens post i log) :
    (Code.lookahead >>= f).wpAt tokens post i log := h

theorem Code.wpAt_accept {wanted : Kind → Bool} {f : Option Token → Code α}
    {post : Except SyntaxError α → Nat → List (SyntaxError × Nat) → Prop}
    (taken : ∀ t, tokens[i]? = some t → wanted t.kind = true →
      (f (some t)).wpAt tokens post (if t.kind = .endOfInput then i else i + 1) log)
    (left : (f none).wpAt tokens post i log) :
    (Code.accept wanted >>= f).wpAt tokens post i log := by
  intro t ht
  show ((if wanted t.kind then Code.take >>= fun t => pure (some t) else pure none :
    Code (Option Token)) >>= f).wpAt tokens post i log
  cases hwanted : wanted t.kind with
  | false => exact left
  | true =>
    -- The token that is taken is the one that was looked at.
    intro t' ht'
    obtain rfl : t = t' := Option.some.inj (ht.symm.trans ht')
    exact taken t ht hwanted

theorem EndsTidy.of_le {start : Nat} {result : Except SyntaxError α} {j : Nat}
    (h : EndsTidy tokens i result j log) (hi : start ≤ i) :
    EndsTidy tokens start result j log := by
  cases result with
  | ok x => exact ⟨hi.trans h.1, h.2⟩
  | error e => exact ⟨hi.trans h.1, h.2⟩

theorem EndsTidy.record {start : Nat} {e : SyntaxError}
    (h : EndsTidy tokens start (.error e : Except SyntaxError α) i log) :
    Tidy tokens i (log ++ [(e, i)]) := by
  obtain ⟨-, htidy, hblames⟩ := h
  exact htidy.report hblames.token hblames.complaint (.inl rfl)

end WpAt

def InOrder (tokens : List Token) {α : Type} (code : Code α) : Prop :=
  ∀ start i log, start ≤ i → Tidy tokens i log →
    code.wpAt tokens (EndsTidy tokens start) i log

section InOrder

variable {α β : Type} {tokens : List Token}

theorem inOrder_pure (x : α) : InOrder tokens (pure x) := fun _ _ _ hi h => ⟨hi, h⟩

theorem InOrder.bind {code : Code α} {f : α → Code β} (h : InOrder tokens code)
    (hf : ∀ x, InOrder tokens (f x)) : InOrder tokens (code >>= f) := by
  intro start i log hi htidy
  refine Code.wpAt_bind (Code.wpAt_mono ?_ (h start i log hi htidy))
  intro result j log' hj
  cases result with
  | ok x => exact hf x start j log' hj.1 hj.2
  | error e => exact hj

theorem InOrder.map {code : Code α} (h : InOrder tokens code) (f : α → β) :
    InOrder tokens (f <$> code) :=
  h.bind fun x => inOrder_pure (f x)

theorem InOrder.discard {code : Code α} (h : InOrder tokens code) : InOrder tokens (discard code) :=
  h.bind fun _ => inOrder_pure ()

theorem inOrder_lookahead : InOrder tokens Code.lookahead := fun _ _ _ hi h _ _ => ⟨hi, h⟩

theorem inOrder_take : InOrder tokens Code.take := by
  intro start i log hi h t _
  have hforward : i ≤ if t.kind = .endOfInput then i else i + 1 := by split <;> omega
  exact ⟨hi.trans hforward, h.mono hforward⟩

theorem inOrder_recordHere {complaint : Complaint} (hcomplaint : complaint ≠ .invalidTarget) :
    InOrder tokens (Code.recordHere complaint) :=
  fun _ _ _ hi h _ ht => ⟨hi, h.report ht hcomplaint (.inl rfl)⟩

theorem inOrder_fail {complaint : Complaint} (hcomplaint : complaint ≠ .invalidTarget) :
    InOrder tokens (Code.fail complaint : Code α) :=
  fun _ _ _ hi h _ ht => ⟨hi, h, ht, hcomplaint⟩

theorem Code.wpAt_run {r : Routine α} {start i : Nat} {log : List (SyntaxError × Nat)}
    (hi : start ≤ i) (h : Tidy tokens i log) (hstarts : r.Starts tokens i) :
    (Code.run r).wpAt tokens (EndsTidy tokens start) i log := by
  refine ⟨hstarts, h, ?_⟩
  intro result j log' hj
  cases result with
  | ok x => exact hj.of_le hi
  | error e => exact hj.of_le hi

theorem inOrder_run {r : Routine α} (hanywhere : r.anywhere = true) :
    InOrder tokens (Code.run r) :=
  fun _ i _ hi h => Code.wpAt_run hi h (Routine.starts_of_anywhere hanywhere i)

theorem inOrder_accept (wanted : Kind → Bool) : InOrder tokens (Code.accept wanted) := by
  refine inOrder_lookahead.bind fun kind => ?_
  split
  · exact inOrder_take.bind fun t => inOrder_pure (some t)
  · exact inOrder_pure none

theorem inOrder_expect (kind : Kind) {complaint : Complaint}
    (hcomplaint : complaint ≠ .invalidTarget) : InOrder tokens (Code.expect kind complaint) := by
  refine (inOrder_accept _).bind fun t? => ?_
  cases t? with
  | some t => exact inOrder_pure t
  | none => exact inOrder_fail hcomplaint

theorem inOrder_ended {code : Code α} (h : InOrder tokens code) (kind : Kind)
    {complaint : Complaint} (hcomplaint : complaint ≠ .invalidTarget) (f : α → β) :
    InOrder tokens
      (code >>= fun x => discard (Code.expect kind complaint) >>= fun _ => pure (f x)) :=
  h.bind fun x => (inOrder_expect kind hcomplaint).discard.bind fun _ => inOrder_pure (f x)

theorem inOrder_nested {r : Routine α} (hanywhere : r.anywhere = true) :
    InOrder tokens (Code.nested r) := by
  intro start i log hi h n
  show (if Grammar.nestingLimit ≤ n then _ else _ : Code α).wpAt tokens _ i log
  split
  · exact inOrder_fail (by decide) start i log hi h
  · exact Code.wpAt_run hi h (Routine.starts_of_anywhere hanywhere i)

theorem inOrder_recovering {item : Routine α} {skipping : Routine Unit}
    (hitem : item.anywhere = true) (hskipping : skipping.anywhere = true) :
    InOrder tokens (Code.recovering item skipping) := by
  intro start i log hi h
  refine ⟨Routine.starts_of_anywhere hitem i, h, ?_⟩
  intro result j log' hj
  cases result with
  | ok x => exact hj.of_le hi
  | error e =>
    have hskip : InOrder tokens (Code.run skipping >>= fun _ => (pure none : Code (Option α))) :=
      (inOrder_run hskipping).bind fun _ => inOrder_pure none
    exact hskip start j _ (hi.trans hj.1) hj.record

theorem inOrder_itemsUntil (stop : Kind → Bool) {skipping : Routine Unit}
    {again : Routine (List Stmt)} (hskipping : skipping.anywhere = true)
    (hagain : again.anywhere = true) :
    InOrder tokens (Code.itemsUntil stop skipping again) := by
  refine inOrder_lookahead.bind fun kind => ?_
  split
  · exact inOrder_pure []
  · exact (inOrder_recovering rfl hskipping).bind fun x? =>
      (inOrder_run hagain).bind fun xs => inOrder_pure (x?.toList ++ xs)

theorem inOrder_listed {items : Routine (List α)} (hitems : items.anywhere = true) :
    InOrder tokens (Code.listed items) := by
  refine inOrder_lookahead.bind fun kind => ?_
  split
  · exact inOrder_pure []
  · exact inOrder_run hitems

theorem inOrder_commaSeparated {item : Routine α} {again : Routine (List α)} {tooMany : Complaint}
    (htooMany : tooMany ≠ .invalidTarget) (count : Nat) (hitem : item.anywhere = true)
    (hagain : again.anywhere = true) :
    InOrder tokens (Code.commaSeparated tooMany item again count) := by
  have hlist : InOrder tokens (Code.listItem tooMany item count) := by
    unfold Code.listItem
    split
    · exact (inOrder_recordHere htooMany).bind fun _ => inOrder_run hitem
    · exact inOrder_run hitem
  refine hlist.bind fun x => (inOrder_accept _).bind fun comma? => ?_
  cases comma? with
  | some _ => exact (inOrder_run hagain).bind fun xs => inOrder_pure (x :: xs)
  | none => exact inOrder_pure [x]

theorem inOrder_loseBrace {code : Code α} (t : Token) (h : InOrder tokens code) :
    InOrder tokens (Code.loseBrace t code) := by
  unfold Code.loseBrace
  split
  · exact h
  · exact h

end InOrder

section Routines

variable {α : Type} {tokens : List Token}

theorem inOrder_expression : InOrder tokens (Code.run .expression) := inOrder_run rfl

theorem inOrder_statement : InOrder tokens (Code.run .statement) := inOrder_run rfl

theorem inOrder_assignment : InOrder tokens Routine.assignment.code := by
  refine (inOrder_run rfl).bind fun left start i log hi h => ?_
  refine Code.wpAt_accept (fun equals hequals hkind => ?_) (inOrder_pure left start i log hi h)
  have hequal : equals.kind = .equal := of_decide_eq_true hkind
  rw [if_neg (by rw [hequal]; decide)]
  refine Code.wpAt_bind (Code.wpAt_mono ?_
    (inOrder_expression (i + 1) (i + 1) log le_rfl (h.mono (Nat.le_succ i))))
  intro result j log' hj
  cases result with
  | error e => exact hj.of_le (hi.trans (Nat.le_succ i))
  | ok value =>
    obtain ⟨hij, htidy⟩ := hj
    have hstart : start ≤ j := (hi.trans (Nat.le_succ i)).trans hij
    cases left with
    | identifier name => exact ⟨hstart, htidy⟩
    -- The value has been read, and the `=` before it is blamed.
    | _ => exact ⟨hstart, htidy.target hequals hequal hij⟩

theorem inOrder_operatorChain (level : Level) (tighter : List Level) (left : Expr) :
    InOrder tokens (Routine.operatorChain level tighter left).code := by
  refine (inOrder_accept _).bind fun operator? => ?_
  cases operator? with
  | none => exact inOrder_pure left
  | some operator =>
    exact (inOrder_run rfl).bind fun right => inOrder_run rfl

theorem inOrder_operators (levels : List Level) :
    InOrder tokens (Routine.operators levels).code := by
  cases levels with
  | nil => exact inOrder_run rfl
  | cons level tighter =>
    exact (inOrder_run rfl).bind fun left => inOrder_run rfl

theorem inOrder_unary : InOrder tokens Routine.unary.code := by
  refine (inOrder_accept _).bind fun operator? => ?_
  cases operator? with
  | none => exact inOrder_run rfl
  | some operator => exact (inOrder_run rfl).bind fun right => inOrder_pure _

theorem inOrder_callChain (callee : Expr) : InOrder tokens (Routine.callChain callee).code := by
  refine (inOrder_accept _).bind fun paren? => ?_
  cases paren? with
  | none => exact inOrder_pure callee
  | some paren =>
    exact (inOrder_run rfl).bind fun arguments =>
      (inOrder_expect _ (by decide)).bind fun close => inOrder_run rfl

theorem inOrder_primaryAt (t : Token) : InOrder tokens (Code.primaryAt t) := by
  unfold Code.primaryAt
  split
  · exact inOrder_take.discard.bind fun _ => inOrder_pure _
  · split
    · exact inOrder_take.discard.bind fun _ => inOrder_pure _
    · exact inOrder_take.discard.bind fun _ =>
        inOrder_ended inOrder_expression .rightParen (by decide) Expr.grouping
    · exact inOrder_fail (by decide)

theorem inOrder_optional (stop : Kind) : InOrder tokens (Routine.optional stop).code := by
  refine inOrder_lookahead.bind fun kind => ?_
  split
  · exact inOrder_pure none
  · exact inOrder_expression.map some

theorem inOrder_variableDecl : InOrder tokens Routine.variableDecl.code := by
  refine inOrder_take.bind fun keyword =>
    (inOrder_expect .identifier (by decide)).bind fun name => ?_
  have hrest : ∀ initializer : Option Expr, InOrder tokens (do
      if decide (keyword.kind = .constWord) && initializer.isNone then
        Code.recordHere .constantValue
      discard (Code.expect .semicolon .declarationEnd)
      pure (Stmt.variableDecl name initializer (keyword.kind = .constWord))) := by
    intro initializer
    have hend : InOrder tokens (discard (Code.expect .semicolon .declarationEnd)) :=
      (inOrder_expect _ (by decide)).discard
    split
    · exact (inOrder_recordHere (by decide)).bind fun _ => hend.bind fun _ => inOrder_pure _
    · exact hend.bind fun _ => inOrder_pure _
  refine (inOrder_accept _).bind fun equals? => ?_
  cases equals? with
  | some _ => exact (inOrder_expression.map some).bind hrest
  | none => exact hrest none

theorem inOrder_functionDecl : InOrder tokens Routine.functionDecl.code := by
  refine inOrder_take.discard.bind fun _ => (inOrder_expect _ (by decide)).bind fun name => ?_
  refine (inOrder_expect _ (by decide)).discard.bind fun _ => ?_
  refine (inOrder_run rfl).bind fun parameters => ?_
  refine (inOrder_expect _ (by decide)).discard.bind fun _ => ?_
  refine (inOrder_expect _ (by decide)).bind fun brace => ?_
  exact (inOrder_run rfl).bind fun body => inOrder_pure _

theorem inOrder_functionBody (brace : Token) :
    InOrder tokens (Routine.functionBody brace).code := by
  intro start i log hi h
  refine ⟨Routine.starts_of_anywhere rfl i, h, ?_⟩
  intro result j log' hj
  cases result with
  | ok body => exact hj.of_le hi
  | error e => exact hj.of_le hi

theorem wpAt_returnStmt {start i : Nat} {log : List (SyntaxError × Nat)} (hi : start ≤ i)
    (h : Tidy tokens i log) (hstarts : Routine.returnStmt.Starts tokens i) :
    Routine.returnStmt.code.wpAt tokens (EndsTidy tokens start) i log := by
  intro keyword hkeyword functions
  rw [if_neg (hstarts rfl keyword hkeyword)]
  have hrest : InOrder tokens (Code.run (.optional .semicolon) >>= fun value =>
      discard (Code.expect .semicolon .returnEnd) >>= fun _ =>
        pure (Stmt.returnStmt keyword value)) :=
    inOrder_ended (inOrder_run rfl) .semicolon (by decide) _
  have hstart : start ≤ i + 1 := hi.trans (Nat.le_succ i)
  show Code.wpAt tokens _ (if functions = 0 then _ else _ : Code Stmt) (i + 1) log
  split
  · exact hrest start (i + 1) _ hstart (h.report hkeyword nofun (.inr ⟨rfl, rfl⟩))
  · exact hrest start (i + 1) log hstart (h.mono (Nat.le_succ i))

theorem inOrder_conditional : InOrder tokens Routine.conditional.code := by
  refine inOrder_take.discard.bind fun _ => (inOrder_expect _ (by decide)).discard.bind fun _ => ?_
  refine inOrder_expression.bind fun _ => (inOrder_expect _ (by decide)).discard.bind fun _ => ?_
  refine inOrder_statement.bind fun _ => (inOrder_accept _).bind fun else? => ?_
  cases else? with
  | some _ => exact inOrder_statement.bind fun _ => inOrder_pure _
  | none => exact inOrder_pure _

theorem inOrder_whileLoop : InOrder tokens Routine.whileLoop.code := by
  refine inOrder_take.bind fun _ => (inOrder_expect _ (by decide)).discard.bind fun _ => ?_
  refine inOrder_expression.bind fun _ => (inOrder_expect _ (by decide)).discard.bind fun _ => ?_
  exact inOrder_statement.bind fun _ => inOrder_pure _

theorem inOrder_forInitializer : InOrder tokens Routine.forInitializer.code := by
  refine inOrder_lookahead.bind fun kind => ?_
  split
  · exact inOrder_take.discard.bind fun _ => inOrder_pure none
  · exact (inOrder_run rfl).map some
  · exact (inOrder_run rfl).map some
  · exact (inOrder_run rfl).map some

theorem inOrder_forLoop : InOrder tokens Routine.forLoop.code := by
  refine inOrder_take.bind fun _ => (inOrder_expect _ (by decide)).discard.bind fun _ => ?_
  refine (inOrder_run rfl).bind fun _ => (inOrder_run rfl).bind fun _ => ?_
  refine (inOrder_expect _ (by decide)).discard.bind fun _ => ?_
  refine (inOrder_run rfl).bind fun _ => ?_
  refine (inOrder_expect _ (by decide)).discard.bind fun _ => ?_
  exact inOrder_statement.bind fun _ => inOrder_pure _

theorem inOrder_plain : InOrder tokens Routine.plain.code := by
  intro start i log hi h
  refine Code.wpAt_lookahead fun t ht => ?_
  split
  · exact inOrder_run rfl start i log hi h
  · exact inOrder_run rfl start i log hi h
  · exact inOrder_run rfl start i log hi h
  · next hkind =>
    refine Code.wpAt_run hi h fun _ t' ht' => ?_
    obtain rfl : t = t' := Option.some.inj (ht.symm.trans ht')
    rw [hkind]
    decide
  · exact inOrder_run rfl start i log hi h
  · have hblock : InOrder tokens (Stmt.block <$> Code.run .block) :=
      (inOrder_run rfl).map Stmt.block
    exact (inOrder_take.discard.bind fun _ => hblock) start i log hi h
  · exact inOrder_run rfl start i log hi h

theorem inOrder_declaration : InOrder tokens Routine.declaration.code := by
  refine inOrder_lookahead.bind fun kind => ?_
  split <;> exact inOrder_run rfl

theorem inOrder_skipFrom (previous : Token) : InOrder tokens (Routine.skipFrom previous).code := by
  refine inOrder_lookahead.bind fun kind => ?_
  split
  · exact inOrder_pure ()
  · exact inOrder_take.bind fun t => inOrder_run rfl

theorem inOrder_skipInBlock : InOrder tokens Routine.skipInBlock.code := by
  refine inOrder_lookahead.bind fun kind => ?_
  split
  · exact inOrder_pure ()
  · refine inOrder_take.bind fun t => inOrder_loseBrace t (inOrder_lookahead.bind fun kind => ?_)
    split
    · exact inOrder_pure ()
    · exact inOrder_run rfl

theorem inOrder_wholeExpression : InOrder tokens Routine.wholeExpression.code := by
  refine inOrder_expression.bind fun value => inOrder_lookahead.bind fun kind => ?_
  dsimp only
  split
  · exact (inOrder_recordHere (by decide)).bind fun _ => inOrder_pure value
  · exact inOrder_pure value

/-- Every routine that may be called at any token keeps the order. -/
theorem Routine.inOrder (r : Routine α) (hanywhere : r.anywhere = true) :
    InOrder tokens r.code := by
  cases r with
  | expression => exact inOrder_nested rfl
  | assignment => exact inOrder_assignment
  | operators levels => exact inOrder_operators levels
  | operatorChain level tighter left => exact inOrder_operatorChain level tighter left
  | operand => exact inOrder_nested rfl
  | unary => exact inOrder_unary
  | call => exact (inOrder_run rfl).bind fun _ => inOrder_run rfl
  | callChain callee => exact inOrder_callChain callee
  | primary => exact fun start i log hi h t _ => inOrder_primaryAt t start i log hi h
  | arguments => exact inOrder_listed rfl
  | argumentsFrom count => exact inOrder_commaSeparated (by decide) count rfl rfl
  | parameter => exact inOrder_expect _ (by decide)
  | parameters => exact inOrder_listed rfl
  | parametersFrom count => exact inOrder_commaSeparated (by decide) count rfl rfl
  | optional stop => exact inOrder_optional stop
  | variableDecl => exact inOrder_variableDecl
  | functionDecl => exact inOrder_functionDecl
  | functionBody brace => exact inOrder_functionBody brace
  | body => exact inOrder_nested rfl
  | block => exact inOrder_ended (inOrder_run rfl) _ (by decide) id
  | blockItems => exact inOrder_itemsUntil _ rfl rfl
  | expressionStmt => exact inOrder_ended inOrder_expression _ (by decide) _
  | printStmt =>
    exact inOrder_take.bind fun keyword =>
      inOrder_ended inOrder_expression _ (by decide) (Stmt.print keyword)
  | returnStmt => cases hanywhere
  | conditional => exact inOrder_conditional
  | whileLoop => exact inOrder_whileLoop
  | forInitializer => exact inOrder_forInitializer
  | forLoop => exact inOrder_forLoop
  | statement => exact inOrder_nested rfl
  | plain => exact inOrder_plain
  | declaration => exact inOrder_declaration
  | skip => exact inOrder_take.bind fun previous => inOrder_run rfl
  | skipFrom previous => exact inOrder_skipFrom previous
  | skipInBlock => exact inOrder_skipInBlock
  | statements => exact inOrder_itemsUntil _ rfl rfl
  | wholeExpression => exact inOrder_wholeExpression

theorem Routine.wpAt_code (r : Routine α) {i : Nat} {log : List (SyntaxError × Nat)}
    (hstarts : r.Starts tokens i) (h : Tidy tokens i log) :
    r.code.wpAt tokens (EndsTidy tokens i) i log := by
  cases hanywhere : r.anywhere with
  | true => exact r.inOrder hanywhere i i log le_rfl h
  | false =>
    cases r with
    | returnStmt => exact wpAt_returnStmt le_rfl h hstarts
    | _ => cases hanywhere

end Routines

section Runs

variable {α β : Type} {s s' : State} {log : List (SyntaxError × Nat)}

theorem Action.perform_wpAt {action : Action β}
    {next : β → Nat → List (SyntaxError × Nat) → Prop} {y : β}
    (performed : action.perform s = some (y, s'))
    (hwp : action.wpAt s.tokens next s.current log) :
    next y s'.current (log ++ freshErrors s s') := by
  rw [Action.freshErrors_perform performed]
  have hnone : log ++ [] = log := List.append_nil log
  cases action with
  | peek =>
    obtain ⟨t, ht, heq⟩ := Option.map_eq_some_iff.1 performed
    cases heq
    exact hnone.symm ▸ hwp y ht
  | take =>
    obtain ⟨t, ht, heq⟩ := Option.map_eq_some_iff.1 performed
    cases heq
    rw [apply_ite State.current]
    exact hnone.symm ▸ hwp y ht
  | record e =>
    cases performed
    exact hwp
  | nesting =>
    cases performed
    exact hnone.symm ▸ hwp _
  | functions =>
    cases performed
    exact hnone.symm ▸ hwp _
  | _ =>
    cases performed
    exact hnone.symm ▸ hwp

/-- A run ends as its precondition says, with what it recorded added to the log. -/
theorem Runs.wpAt {code : Code α} {events : List Event}
    {result : EStateM.Result SyntaxError State α} (h : Runs code s events result) :
    ∀ {post : Except SyntaxError α → Nat → List (SyntaxError × Nat) → Prop}
      {log : List (SyntaxError × Nat)}, code.wpAt s.tokens post s.current log →
      post (outcome result) (State.reached result).current (log ++ recorded s events) ∧
        (State.reached result).tokens = s.tokens := by
  -- The induction is on the run; a call ends in order because every routine does.
  induction h with
  | done x s =>
    intro post log hwp
    rw [recorded, List.append_nil]
    exact ⟨hwp, rfl⟩
  | raise e s =>
    intro post log hwp
    rw [recorded, List.append_nil]
    exact ⟨hwp, rfl⟩
  | act performed _ ih =>
    intro post log hwp
    have hnext := Action.perform_wpAt performed hwp
    have htokens := (Action.perform_frame performed).1
    rw [recorded, ← List.append_assoc, ← htokens]
    rw [← htokens] at hnext
    exact ih hnext
  | lose _ ih =>
    intro post log hwp
    exact ih hwp
  | returned called _ ih ih' =>
    intro post log hwp
    obtain ⟨hstarts, htidy, hnext⟩ := hwp
    obtain ⟨hends, htokens⟩ := ih (Routine.wpAt_code _ hstarts htidy)
    have hrest := hnext _ _ _ hends
    rw [called.recorded_append, ← List.append_assoc, ← htokens]
    rw [← htokens] at hrest
    exact ih' hrest
  | failed called _ ih ih' =>
    intro post log hwp
    obtain ⟨hstarts, htidy, hnext⟩ := hwp
    obtain ⟨hends, htokens⟩ := ih (Routine.wpAt_code _ hstarts htidy)
    have hrest := hnext _ _ _ hends
    rw [called.recorded_append, ← List.append_assoc, ← htokens]
    rw [← htokens] at hrest
    exact ih' hrest

end Runs

/-- A routine at the outermost place: if it fails, its error is recorded behind the others. -/
def Code.reported {α : Type} (r : Routine α) : Code (Option α) :=
  .attempt r fun
    | .ok x => .done (some x)
    | .error e => do
      record e
      return none

/-- Whether a routine that reads a token list records exactly these errors, in source order. -/
def ReportsInOrder {α : Type} (r : Routine α) (tokens : List Token) (errors : List SyntaxError) :
    Prop :=
  ∃ events x? s recordings, Runs (Code.reported r) (.ofTokens tokens) events (.ok x? s) ∧
    recordings.map (fun r => (r.error, r.cursor)) = recorded (.ofTokens tokens) events ∧
    recordings.map (·.error) = errors ∧ InSourceOrder (State.ofTokens tokens).tokens recordings

section Reported

variable {α : Type} {tokens : List Token} {r : Routine α}

theorem inOrder_reported (hanywhere : r.anywhere = true) : InOrder tokens (Code.reported r) := by
  intro start i log hi h
  refine ⟨Routine.starts_of_anywhere hanywhere i, h, ?_⟩
  intro result j log' hj
  cases result with
  | ok x => exact hj.of_le hi
  | error e => exact ⟨hi.trans hj.1, hj.record⟩

theorem runs_reported {s : State} {result : EStateM.Result SyntaxError Cursor α}
    {errors : List SyntaxError} (hends : EndsWith r s (s.result result))
    (h : Grammar.settle result = .error errors) :
    errors ≠ [] ∧ ∃ events x? s', Runs (Code.reported r) s events (.ok x? s') ∧
      s'.errors = errors := by
  obtain ⟨events, hruns, -⟩ := hends.runs
  cases result with
  | ok x c =>
    rw [Grammar.settle] at h
    split at h
    · cases h
    · next hne =>
      obtain rfl := Except.error.inj h
      exact ⟨by simpa using hne, _, _, _, .returned hruns (.done _ _), rfl⟩
  | error e c =>
    obtain rfl := Except.error.inj h
    exact ⟨by simp [Cursor.record], _, _, _, .failed hruns (.act rfl (.done _ _)), rfl⟩

theorem reportsInOrder_of_settle {result : EStateM.Result SyntaxError Cursor α}
    {errors : List SyntaxError} (hanywhere : r.anywhere = true)
    (hends : EndsWith r (.ofTokens tokens) ((State.ofTokens tokens).result result))
    (h : Grammar.settle result = .error errors) :
    errors ≠ [] ∧ ReportsInOrder r tokens errors := by
  obtain ⟨hne, events, x?, s, hruns, rfl⟩ := runs_reported hends h
  have hwp := inOrder_reported hanywhere 0 0 [] le_rfl (tidy_nil (State.ofTokens tokens).tokens 0)
  obtain ⟨⟨-, recordings, hlog, horder, -⟩, -⟩ := hruns.wpAt hwp
  refine ⟨hne, events, x?, s, recordings, hruns, hlog, ?_, horder⟩
  calc recordings.map (·.error)
      = (recordings.map fun r => (r.error, r.cursor)).map Prod.fst := by rw [List.map_map]; rfl
    _ = (State.ofTokens tokens).errors ++ (recorded (.ofTokens tokens) events).map Prod.fst := by
        rw [hlog]
        rfl
    _ = s.errors := hruns.errors_recorded

end Reported

/-- Syntax errors come in source order. There is at least one, each is about a token of the list or
the end of input that was added, and their indices never decrease, those of invalid targets apart.
An invalid target is reported at an `=` that stands before the next token of that time. -/
theorem syntax_errors_in_source_order (tokens : List Token) (errors : List SyntaxError) :
    (Grammar.program tokens = .error errors →
      errors ≠ [] ∧ ReportsInOrder .statements tokens errors) ∧
    (Grammar.expression tokens = .error errors →
      errors ≠ [] ∧ ReportsInOrder .wholeExpression tokens errors) := by
  obtain ⟨after, hstart⟩ := State.stands_ofTokens tokens
  have hprogram := ends_with_parse .statements hstart.inside
  have hexpression := ends_with_parse .wholeExpression hstart.inside
  rw [hstart.cursor_eq] at hprogram hexpression
  exact ⟨reportsInOrder_of_settle rfl hprogram, reportsInOrder_of_settle rfl hexpression⟩

/-- Two assignments to numbers, one inside the other, and a `return` without an end. -/
def nestedTargets : List Token :=
  [⟨.number, "1", some (.number 1), ⟨1, 1⟩⟩, ⟨.equal, "=", none, ⟨1, 3⟩⟩,
    ⟨.number, "2", some (.number 2), ⟨1, 5⟩⟩, ⟨.equal, "=", none, ⟨1, 7⟩⟩,
    ⟨.number, "3", some (.number 3), ⟨1, 9⟩⟩, ⟨.semicolon, ";", none, ⟨1, 10⟩⟩,
    ⟨.returnWord, "return", none, ⟨2, 1⟩⟩]

def nestedTargetErrors : List SyntaxError :=
  [⟨.invalidTarget, ⟨.equal, "=", none, ⟨1, 7⟩⟩⟩, ⟨.invalidTarget, ⟨.equal, "=", none, ⟨1, 3⟩⟩⟩]

theorem syntax_errors_in_source_order_nested_targets :
    (∃ errors, Grammar.program nestedTargets = .error errors ∧
      errors = nestedTargetErrors ++ [⟨.topLevelReturn, ⟨.returnWord, "return", none, ⟨2, 1⟩⟩⟩,
        ⟨.expression, .finish ⟨2, 7⟩⟩] ∧
      ReportsInOrder .statements nestedTargets errors) ∧
    ∃ errors, Grammar.expression nestedTargets = .error errors ∧
      errors = nestedTargetErrors ++ [⟨.endOfExpression, ⟨.semicolon, ";", none, ⟨1, 10⟩⟩⟩] ∧
      ReportsInOrder .wholeExpression nestedTargets errors :=
  ⟨⟨_, rfl, rfl, ((syntax_errors_in_source_order _ _).1 rfl).2⟩,
    ⟨_, rfl, rfl, ((syntax_errors_in_source_order _ _).2 rfl).2⟩⟩

end Descent

end Scriptlet
