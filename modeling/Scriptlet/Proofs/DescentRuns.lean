import Scriptlet.Proofs.Descent
import Scriptlet.Proofs.Progress

/-!
Every routine ends, wherever it starts, and reads what the grammar reads. A state stands where a
cursor stands; a run from it gives what the parse from the cursor gives, moves the state to where
the parse ends, and leaves the counters as they were. The room that a parse has is what the counter
of levels leaves, and a parse is inside a function if the other counter is not zero.
-/

namespace Scriptlet

namespace Descent

namespace State

/-- The tokens from the next one to the first end of input, with the recorded errors. -/
def cursor (s : State) : Cursor where
  ahead := (s.tokens.drop s.current).takeWhile (·.kind ≠ .endOfInput)
  finish := ((s.tokens.drop s.current).find? (·.kind = .endOfInput)).getD (.finish .first)
  errors := s.errors

def moved (s : State) (c : Cursor) : State :=
  { s with current := s.last - c.ahead.length, errors := c.errors }

/-- Whether the next token is the first end of input or stands before it. -/
structure Inside (s : State) : Prop where
  ended : s.last < s.tokens.length
  current : s.current ≤ s.last

/-- The token list of a state around its cursor. -/
structure Stands (s : State) (read : List Token) (c : Cursor) (after : List Token) : Prop where
  tokens : s.tokens = read ++ (c.ahead ++ c.finish :: after)
  current : s.current = read.length
  errors : s.errors = c.errors
  before : ∀ t ∈ read ++ c.ahead, t.kind ≠ .endOfInput
  finish : c.finish.kind = .endOfInput

namespace Stands

variable {s : State} {read after : List Token} {c : Cursor}

theorem last_eq (h : s.Stands read c after) : s.last = read.length + c.ahead.length := by
  have hnone : (read ++ c.ahead).findIdx (fun t => decide (t.kind = .endOfInput)) =
      (read ++ c.ahead).length := by
    rw [List.findIdx_eq_length]
    intro t ht
    simpa using h.before t ht
  have hfinish : (c.finish :: after).findIdx (fun t => decide (t.kind = .endOfInput)) = 0 := by
    simp [List.findIdx_cons, h.finish]
  rw [last, h.tokens, ← List.append_assoc, List.findIdx_append, hnone, if_neg (lt_irrefl _),
    hfinish, List.length_append, Nat.zero_add]

theorem cursor_eq (h : s.Stands read c after) : s.cursor = c := by
  have hahead : ∀ t ∈ c.ahead, t.kind ≠ .endOfInput :=
    fun t ht => h.before t (List.mem_append_right read ht)
  have hdrop : s.tokens.drop s.current = c.ahead ++ c.finish :: after := by
    rw [h.tokens, h.current, List.drop_left]
  have htake : (c.ahead ++ c.finish :: after).takeWhile (·.kind ≠ .endOfInput) = c.ahead := by
    rw [List.takeWhile_append_of_pos (by simpa using hahead)]
    simp [h.finish]
  have hfind : (c.ahead ++ c.finish :: after).find? (·.kind = .endOfInput) = some c.finish := by
    refine List.find?_eq_some_iff_append.2 ⟨by simpa using h.finish, c.ahead, after, rfl, ?_⟩
    simpa using hahead
  rw [cursor, hdrop, htake, hfind, h.errors]
  rfl

theorem inside (h : s.Stands read c after) : s.Inside := by
  refine ⟨?_, ?_⟩
  · rw [h.last_eq, h.tokens]
    simp only [List.length_append, List.length_cons]
    omega
  · rw [h.last_eq, h.current]
    omega

theorem move (h : s.Stands read c after) {d : Cursor} (hd : c.Reaches d) :
    ∃ read', (s.moved d).Stands read' d after := by
  obtain ⟨more, hmore⟩ := hd.ahead
  have hlast := h.last_eq
  refine ⟨read ++ more, ⟨?_, ?_, rfl, ?_, hd.finish ▸ h.finish⟩⟩
  · rw [moved, h.tokens, ← hmore, hd.finish]
    simp
  · rw [← hmore, List.length_append] at hlast
    simp only [moved, List.length_append]
    omega
  · intro t ht
    refine h.before t ?_
    rw [← hmore]
    simpa using ht

end Stands

variable {s : State} {c : Cursor}

theorem Inside.stands (h : s.Inside) : ∃ read after, s.Stands read s.cursor after := by
  have hend : ∃ t ∈ s.tokens, decide (t.kind = .endOfInput) = true :=
    List.findIdx_lt_length.1 h.ended
  obtain ⟨finish, hfind⟩ := Option.isSome_iff_exists.1 (List.find?_isSome.2 hend)
  obtain ⟨hfinish, before, after, htokens, hbefore⟩ := List.find?_eq_some_iff_append.1 hfind
  have hstart : (⟨s.tokens, 0, s.errors, s.functions, s.nesting⟩ : State).Stands []
      ⟨before, finish, s.errors⟩ after :=
    ⟨htokens, rfl, rfl, by simpa using hbefore, by simpa using hfinish⟩
  have hlast : s.last = before.length := hstart.last_eq.trans (Nat.zero_add _)
  have hcurrent := h.current
  have hstands : s.Stands (before.take s.current)
      ⟨before.drop s.current, finish, s.errors⟩ after := by
    refine ⟨?_, ?_, rfl, ?_, by simpa using hfinish⟩
    · rw [htokens, ← List.append_assoc, List.take_append_drop]
    · rw [List.length_take]
      omega
    · rw [List.take_append_drop]
      simpa using hbefore
  exact ⟨_, after, hstands.cursor_eq ▸ hstands⟩

theorem Inside.move (h : s.Inside) (hc : s.cursor.Reaches c) :
    (s.moved c).Inside ∧ (s.moved c).cursor = c := by
  obtain ⟨read, after, hstands⟩ := h.stands
  obtain ⟨read', hmoved⟩ := hstands.move hc
  exact ⟨hmoved.inside, hmoved.cursor_eq⟩

theorem Inside.current_eq (h : s.Inside) : s.current + s.cursor.ahead.length = s.last := by
  obtain ⟨read, after, hstands⟩ := h.stands
  rw [hstands.last_eq, hstands.current]

theorem Inside.moved_cursor (h : s.Inside) : s.moved s.cursor = s := by
  have hcurrent := h.current_eq
  unfold moved
  rw [← hcurrent, Nat.add_sub_cancel]
  rfl

theorem Inside.getElem?_current (h : s.Inside) : s.tokens[s.current]? = some s.cursor.peek := by
  obtain ⟨read, after, hstands⟩ := h.stands
  rw [hstands.tokens, hstands.current, List.getElem?_append_right (Nat.le_refl _), Nat.sub_self,
    Cursor.peek]
  cases s.cursor.ahead <;> rfl

theorem Inside.kind_finish (h : s.Inside) : s.cursor.finish.kind = .endOfInput := by
  obtain ⟨read, after, hstands⟩ := h.stands
  exact hstands.finish

theorem Inside.kind_peek (h : s.Inside) : s.cursor.peek.kind = s.cursor.kind := by
  unfold Cursor.peek Cursor.kind
  cases s.cursor.ahead with
  | nil => exact h.kind_finish
  | cons t rest => rfl

theorem Inside.kind_ne (h : s.Inside) {t : Token} (ht : t ∈ s.cursor.ahead) :
    t.kind ≠ .endOfInput := by
  obtain ⟨read, after, hstands⟩ := h.stands
  exact hstands.before t (List.mem_append_right read ht)

theorem Inside.perform_take (h : s.Inside) {t : Token} {ahead : List Token}
    (hc : s.cursor.ahead = t :: ahead) :
    Action.take.perform s = some (t, s.moved { s.cursor with ahead := ahead }) := by
  have hcurrent := h.current_eq
  have hkind : t.kind ≠ .endOfInput := h.kind_ne (hc ▸ List.mem_cons_self)
  have hnext : s.moved { s.cursor with ahead := ahead } = { s with current := s.current + 1 } := by
    rw [hc, List.length_cons] at hcurrent
    unfold moved
    rw [← hcurrent]
    simp only [cursor, State.mk.injEq, true_and, and_true]
    omega
  rw [Action.perform, h.getElem?_current, Cursor.peek, hc, hnext]
  simp [hkind]

structure Leads (s m : State) : Prop where
  tokens : m.tokens = s.tokens
  forward : s.current ≤ m.current
  inside : m.current ≤ m.last
  nesting : m.nesting ≤ max Grammar.nestingLimit s.nesting
  errors : s.errors <+: m.errors

theorem Leads.trans {m e : State} (h : s.Leads m) (k : m.Leads e) : s.Leads e := by
  have hnesting : e.nesting ≤ max Grammar.nestingLimit s.nesting :=
    k.nesting.trans (max_le (le_max_left _ _) h.nesting)
  exact ⟨k.tokens.trans h.tokens, h.forward.trans k.forward, k.inside, hnesting,
    h.errors.trans k.errors⟩

theorem Inside.leads_moved (h : s.Inside) (hc : s.cursor.Reaches c) : s.Leads (s.moved c) := by
  have hcurrent := h.current_eq
  have hlength := hc.ahead.length_le
  refine ⟨rfl, ?_, (h.move hc).1.current, le_max_right _ _, hc.errors⟩
  show s.current ≤ s.last - c.ahead.length
  omega

/-- From one state to a later one with the same counters. -/
structure After (s s' : State) : Prop where
  inside : s'.Inside
  nesting : s'.nesting = s.nesting
  functions : s'.functions = s.functions
  reaches : s.cursor.Reaches s'.cursor

theorem Inside.after (h : s.Inside) (hc : s.cursor.Reaches c) : s.After (s.moved c) := by
  obtain ⟨hinside, hcursor⟩ := h.move hc
  exact ⟨hinside, rfl, rfl, hcursor.symm ▸ hc⟩

def result {α : Type} (s : State) :
    EStateM.Result SyntaxError Cursor α → EStateM.Result SyntaxError State α
  | .ok x c => .ok x (s.moved c)
  | .error e c => .error e (s.moved c)

end State

section Gives

variable {α β : Type} {s : State} {c : Cursor}

def ending : EStateM.Result SyntaxError Cursor α → Cursor
  | .ok _ c => c
  | .error _ c => c

/-- Whether a run of the code ends as a parse ended, at a place further on. -/
structure Gives (s : State) (code : Code α) (result : EStateM.Result SyntaxError Cursor α) :
    Prop where
  reaches : s.cursor.Reaches (ending result)
  ends : ∃ events, Runs code s events (s.result result) ∧ ∀ m, .reached m ∈ events → s.Leads m

theorem Gives.done (h : s.Inside) (x : α) : Gives s (.done x) (.ok x s.cursor) := by
  refine ⟨.refl _, [], ?_, by simp⟩
  rw [State.result, h.moved_cursor]
  exact .done x s

theorem Gives.raise (h : s.Inside) (e : SyntaxError) :
    Gives s (.raise e : Code α) (.error e s.cursor) := by
  refine ⟨.refl _, [], ?_, by simp⟩
  rw [State.result, h.moved_cursor]
  exact .raise e s

theorem Gives.done_at (h : s.Inside) (hc : s.cursor.Reaches c) (x : α) :
    Gives (s.moved c) (.done x) (.ok x c) := by
  obtain ⟨hinside, hcursor⟩ := h.move hc
  have hdone := Gives.done hinside x
  rwa [hcursor] at hdone

theorem Gives.raise_at (h : s.Inside) (hc : s.cursor.Reaches c) (e : SyntaxError) :
    Gives (s.moved c) (.raise e : Code α) (.error e c) := by
  obtain ⟨hinside, hcursor⟩ := h.move hc
  have hraise := Gives.raise (α := α) hinside e
  rwa [hcursor] at hraise

theorem Gives.step (h : s.Inside) {action : Action β} {next : β → Code α} {y : β}
    {result : EStateM.Result SyntaxError Cursor α}
    (performed : action.perform s = some (y, s.moved c)) (hc : s.cursor.Reaches c)
    (rest : Gives (s.moved c) (next y) result) : Gives s (.act action next) result := by
  obtain ⟨hreach, events, hruns, hleads⟩ := rest
  have hmoved := h.leads_moved hc
  rw [(h.move hc).2] at hreach
  refine ⟨hc.trans hreach, _, .act performed hruns, ?_⟩
  intro m hm
  rcases List.mem_cons.1 hm with heq | hm
  · cases heq
    exact hmoved
  · exact hmoved.trans (hleads m hm)

theorem Gives.look (h : s.Inside) {action : Action β} {next : β → Code α} {y : β}
    {result : EStateM.Result SyntaxError Cursor α} (performed : action.perform s = some (y, s))
    (rest : Gives s (next y) result) : Gives s (.act action next) result := by
  have hmoved := h.moved_cursor
  exact .step h (hmoved.symm ▸ performed) (.refl _) (hmoved.symm ▸ rest)

theorem Gives.peek (h : s.Inside) {next : Token → Code α}
    {result : EStateM.Result SyntaxError Cursor α} (rest : Gives s (next s.cursor.peek) result) :
    Gives s (.act .peek next) result := by
  refine .look h ?_ rest
  rw [Action.perform, h.getElem?_current]
  rfl

theorem Gives.lookahead (h : s.Inside) {f : Kind → Code α}
    {result : EStateM.Result SyntaxError Cursor α} (rest : Gives s (f s.cursor.kind) result) :
    Gives s (Code.lookahead >>= f) result := by
  rw [← h.kind_peek] at rest
  exact .peek h rest

theorem Gives.take (h : s.Inside) {next : Token → Code α} {t : Token} {ahead : List Token}
    (hc : s.cursor.ahead = t :: ahead) {result : EStateM.Result SyntaxError Cursor α}
    (rest : ∀ s', s.After s' → s'.cursor = { s.cursor with ahead := ahead } →
      Gives s' (next t) result) : Gives s (.act .take next) result := by
  have hreach : s.cursor.Reaches { s.cursor with ahead := ahead } :=
    .read (hc ▸ List.suffix_cons t ahead)
  exact .step h (h.perform_take hc) hreach (rest _ (h.after hreach) (h.move hreach).2)

theorem Gives.take_end (h : s.Inside) {next : Token → Code α} (hc : s.cursor.ahead = [])
    {result : EStateM.Result SyntaxError Cursor α} (rest : Gives s (next s.cursor.finish) result) :
    Gives s (.act .take next) result := by
  refine .look h ?_ rest
  rw [Action.perform, h.getElem?_current, Cursor.peek, hc]
  simp [h.kind_finish]

theorem Gives.record (h : s.Inside) (e : SyntaxError) {next : Unit → Code α}
    {result : EStateM.Result SyntaxError Cursor α}
    (rest : Gives (s.moved (s.cursor.record e)) (next ()) result) :
    Gives s (.act (.record e) next) result := by
  have hcurrent : s.last - (s.cursor.record e).ahead.length = s.current :=
    Nat.sub_eq_of_eq_add h.current_eq.symm
  refine .step h ?_ (.record _ e) rest
  rw [Action.perform, State.moved, hcurrent]
  rfl

theorem Gives.bind {p : Parse α} {g : α → Parse β} {code : Code α} {f : α → Code β} (h : s.Inside)
    (first : Gives s code (p s.cursor))
    (rest : ∀ x s', s.After s' → p s.cursor = .ok x s'.cursor → Gives s' (f x) (g x s'.cursor)) :
    Gives s (code >>= f) ((p >>= g) s.cursor) := by
  obtain ⟨hreach, events, hruns, hleads⟩ := first
  cases hp : p s.cursor with
  | error e c =>
    rw [hp] at hreach hruns
    rw [Parse.bind_error p g hp]
    exact ⟨hreach, events, hruns.bind_error f, hleads⟩
  | ok x c =>
    rw [hp] at hreach hruns
    rw [Parse.bind_ok p g hp]
    have hreach : s.cursor.Reaches c := hreach
    have hmoved := h.leads_moved hreach
    have hcursor := (h.move hreach).2
    have hrest := rest x _ (h.after hreach) (hcursor.symm ▸ hp)
    rw [hcursor] at hrest
    obtain ⟨hreach', more, hruns', hleads'⟩ := hrest
    rw [hcursor] at hreach'
    refine ⟨hreach.trans hreach', events ++ more, hruns.bind_ok hruns', ?_⟩
    intro m hm
    rcases List.mem_append.1 hm with hm | hm
    · exact hleads m hm
    · exact hmoved.trans (hleads' m hm)

theorem Gives.accept_none (h : s.Inside) {wanted : Kind → Bool} (hend : wanted .endOfInput = false)
    (hnone : ∀ t ∈ s.cursor.ahead.head?, wanted t.kind = false) {f : Option Token → Code α}
    {result : EStateM.Result SyntaxError Cursor α} (rest : Gives s (f none) result) :
    Gives s (Code.accept wanted >>= f) result := by
  have hkind : wanted s.cursor.kind = false := by
    rw [Cursor.kind]
    cases hc : s.cursor.ahead with
    | nil => exact hend
    | cons t ahead => exact hnone t (by simp [hc])
  rw [← h.kind_peek] at hkind
  refine .peek h ?_
  show Gives s ((if wanted s.cursor.peek.kind then _ else _ : Code (Option Token)) >>= f) result
  rw [hkind]
  exact rest

theorem Gives.accept (h : s.Inside) {wanted : Kind → Bool} (hend : wanted .endOfInput = false)
    {f : Option Token → Code α} {g : Option Token → Parse α}
    (taken : ∀ t s', s.After s' → s'.cursor.ahead.length < s.cursor.ahead.length →
      Gives s' (f (some t)) (g (some t) s'.cursor))
    (refused : Gives s (f none) (g none s.cursor)) :
    Gives s (Code.accept wanted >>= f) ((Parse.accept wanted >>= g) s.cursor) := by
  rcases Parse.accept_cases wanted s.cursor with ⟨hnone, heq⟩ | ⟨t, rest, hc, hwanted, heq⟩
  · rw [Parse.bind_ok _ _ heq]
    exact .accept_none h hend hnone refused
  · have hkind : wanted s.cursor.peek.kind = true := by
      rw [Cursor.peek, hc]
      exact hwanted
    rw [Parse.bind_ok _ _ heq]
    refine .peek h ?_
    show Gives s ((if wanted s.cursor.peek.kind then _ else _ : Code (Option Token)) >>= f) _
    rw [hkind]
    refine .take h hc fun s' hs' hcursor => ?_
    have hrest := taken t s' hs' (by simp [hcursor, hc])
    rwa [hcursor] at hrest

theorem Gives.attempt {r : Routine β} {p : Parse β} {next : Except SyntaxError β → Code α}
    {g : EStateM.Result SyntaxError Cursor β → EStateM.Result SyntaxError Cursor α} (h : s.Inside)
    (called : Gives s r.code (p s.cursor))
    (returned : ∀ x c, s.cursor.Reaches c → Gives (s.moved c) (next (.ok x)) (g (.ok x c)))
    (failed : ∀ e c, s.cursor.Reaches c → Gives (s.moved c) (next (.error e)) (g (.error e c))) :
    Gives s (.attempt r next) (g (p s.cursor)) := by
  obtain ⟨hreach, events, hruns, hleads⟩ := called
  have hmoved := h.leads_moved hreach
  have hcursor := (h.move hreach).2
  have hall : ∀ more : List Event, (∀ m, .reached m ∈ more →
      (s.moved (ending (p s.cursor))).Leads m) → ∀ m, .reached m ∈ events ++ more → s.Leads m := by
    intro more hmore m hm
    rcases List.mem_append.1 hm with hm | hm
    · exact hleads m hm
    · exact hmoved.trans (hmore m hm)
  cases hp : p s.cursor with
  | ok x c =>
    rw [hp] at hreach hruns hcursor hall
    obtain ⟨hreach', more, hruns', hleads'⟩ := returned x c hreach
    exact ⟨hreach.trans (hcursor ▸ hreach'), events ++ more, .returned hruns hruns',
      hall more hleads'⟩
  | error e c =>
    rw [hp] at hreach hruns hcursor hall
    obtain ⟨hreach', more, hruns', hleads'⟩ := failed e c hreach
    exact ⟨hreach.trans (hcursor ▸ hreach'), events ++ more, .failed hruns hruns',
      hall more hleads'⟩

theorem Gives.run {r : Routine α} {p : Parse α} (h : s.Inside)
    (called : Gives s r.code (p s.cursor)) : Gives s (Code.run r) (p s.cursor) :=
  .attempt (g := id) h called (fun x _ hc => .done_at h hc x)
    fun e _ hc => .raise_at h hc e

theorem Gives.lose {code : Code α} {result : EStateM.Result SyntaxError Cursor α}
    (h : Gives s code result) (brace : Token) : Gives s (.lose brace code) result := by
  obtain ⟨hreach, events, hruns, hleads⟩ := h
  refine ⟨hreach, _, .lose hruns, ?_⟩
  intro m hm
  rcases List.mem_cons.1 hm with heq | hm
  · cases heq
  · exact hleads m hm

theorem Gives.loseBrace {code : Code α} {result : EStateM.Result SyntaxError Cursor α}
    (h : Gives s code result) (t : Token) : Gives s (Code.loseBrace t code) result := by
  unfold Code.loseBrace
  split
  · exact h.lose t
  · exact h

/-- A call between two steps, of which the second takes the first back. -/
theorem Gives.bracket {s' : State} (up down : Action Unit) {r : Routine α}
    (next : Except SyntaxError α → Code α) {result : EStateM.Result SyntaxError Cursor α}
    (h : s.Inside) (hup : up.perform s = some ((), s')) (hcursor : s'.cursor = s.cursor)
    (hleads : s.Leads s') (hdown : ∀ c, down.perform (s'.moved c) = some ((), s.moved c))
    (called : Gives s' r.code result)
    (returned : ∀ x c, s.cursor.Reaches c → Gives (s.moved c) (next (.ok x)) (.ok x c))
    (failed : ∀ e c, s.cursor.Reaches c → Gives (s.moved c) (next (.error e)) (.error e c)) :
    Gives s (.act up fun _ => .attempt r fun y => .act down fun _ => next y) result := by
  obtain ⟨hreach, events, hruns, hinner⟩ := called
  rw [hcursor] at hreach
  have hback := h.leads_moved hreach
  have hall : ∀ more : List Event, (∀ m, .reached m ∈ more → (s.moved (ending result)).Leads m) →
      ∀ m, .reached m ∈ Event.reached s' :: (events ++ Event.reached (s.moved (ending result)) ::
        more) → s.Leads m := by
    intro more hmore m hm
    rcases List.mem_cons.1 hm with heq | hm
    · cases heq
      exact hleads
    · rcases List.mem_append.1 hm with hm | hm
      · exact hleads.trans (hinner m hm)
      · rcases List.mem_cons.1 hm with heq | hm
        · cases heq
          exact hback
        · exact hback.trans (hmore m hm)
  cases result with
  | ok x c =>
    obtain ⟨-, more, hruns', hleads'⟩ := returned x c hreach
    exact ⟨hreach, _, .act hup (.returned hruns (.act (hdown c) hruns')), hall more hleads'⟩
  | error e c =>
    obtain ⟨-, more, hruns', hleads'⟩ := failed e c hreach
    exact ⟨hreach, _, .act hup (.failed hruns (.act (hdown c) hruns')), hall more hleads'⟩

end Gives

section Follows

variable {α β : Type} {n d : Nat}

/-- Whether a code does what a parse does, from every state with these counters. -/
def Follows (n d : Nat) (code : Code α) (p : Parse α) : Prop :=
  ∀ s : State, s.Inside → s.nesting = n → s.functions = d → Gives s code (p s.cursor)

theorem Follows.bind {p : Parse α} {g : α → Parse β} {code : Code α} {f : α → Code β}
    (first : Follows n d code p) (rest : ∀ x, Follows n d (f x) (g x)) :
    Follows n d (code >>= f) (p >>= g) := by
  intro s hs hn hd
  refine .bind hs (first s hs hn hd) fun x s' hs' _ => ?_
  exact rest x s' hs'.inside (hs'.nesting.trans hn) (hs'.functions.trans hd)

theorem follows_pure (x : α) : Follows n d (pure x) (pure x) :=
  fun _ hs _ _ => .done hs x

theorem Follows.map {p : Parse α} {code : Code α} (h : Follows n d code p) (f : α → β) :
    Follows n d (f <$> code) (f <$> p) := by
  rw [Parse.map_eq_bind]
  exact h.bind fun x => follows_pure (f x)

theorem Follows.discard {p : Parse α} {code : Code α} (h : Follows n d code p) :
    Follows n d (discard code) (discard p) := by
  rw [Parse.discard_eq_bind]
  exact h.bind fun _ => follows_pure ()

theorem follows_lookahead : Follows n d Code.lookahead Parse.lookahead := by
  intro s hs _ _
  refine .peek hs ?_
  rw [Parse.lookahead, ← hs.kind_peek]
  exact .done hs _

theorem follows_take : Follows n d Code.take Parse.take := by
  intro s hs _ _
  cases hc : s.cursor.ahead with
  | nil =>
    refine .take_end hs hc ?_
    rw [Parse.take, hc]
    exact .done hs _
  | cons t rest =>
    refine .take hs hc fun s' hs' hcursor => ?_
    have hdone := Gives.done hs'.inside t
    rw [hcursor] at hdone
    rw [Parse.take, hc]
    exact hdone

theorem Follows.accept {wanted : Kind → Bool} (hend : wanted .endOfInput = false)
    {f : Option Token → Code α} {g : Option Token → Parse α}
    (taken : ∀ t, Follows n d (f (some t)) (g (some t))) (refused : Follows n d (f none) (g none)) :
    Follows n d (Code.accept wanted >>= f) (Parse.accept wanted >>= g) := by
  intro s hs hn hd
  refine .accept hs hend (fun t s' hs' _ => ?_) (refused s hs hn hd)
  exact taken t s' hs'.inside (hs'.nesting.trans hn) (hs'.functions.trans hd)

theorem follows_fail (complaint : Complaint) :
    Follows n d (Code.fail complaint : Code α) (Parse.fail complaint) :=
  fun _ hs _ _ => .peek hs (.raise hs _)

theorem follows_expect {kind : Kind} (hend : kind ≠ .endOfInput) (complaint : Complaint) :
    Follows n d (Code.expect kind complaint) (Parse.expect kind complaint) :=
  .accept (by simpa using hend.symm) follows_pure (follows_fail complaint)

theorem follows_record (e : SyntaxError) : Follows n d (Code.record e) (Parse.record e) := by
  intro s hs _ _
  exact .record hs e (.done_at hs (.record _ e) ())

theorem follows_recordHere (complaint : Complaint) :
    Follows n d (Code.recordHere complaint) (Parse.recordHere complaint) := by
  intro s hs _ _
  exact .peek hs (.record hs _ (.done_at hs (.record _ _) ()))

theorem follows_run {r : Routine α} {p : Parse α} (h : Follows n d r.code p) :
    Follows n d (Code.run r) p :=
  fun s hs hn hd => .run hs (h s hs hn hd)

def skipped (skipping : List Token → List Token) : Parse Unit := fun c =>
  .ok () { c with ahead := skipping c.ahead }

theorem follows_recovering {item : Routine α} {skipper : Routine Unit} {p : Parse α}
    {skipping : List Token → List Token} (hitem : Follows n d item.code p)
    (hskip : Follows n d skipper.code (skipped skipping)) :
    Follows n d (Code.recovering item skipper) (Parse.recovering p skipping) := by
  intro s hs hn hd
  refine .attempt (p := p) (g := fun
    | .ok x c => .ok (some x) c
    | .error e c => .ok none { c.record e with ahead := skipping c.ahead }) hs
    (hitem s hs hn hd) ?_ ?_
  · exact fun x c hc => .done_at hs hc (some x)
  · intro e c hc
    -- The error is recorded where the item ended, and the skipping starts there.
    obtain ⟨hinside, hcursor⟩ := hs.move hc
    obtain ⟨hinside', hcursor'⟩ := hinside.move (.record _ e)
    have hrest :=
      ((follows_run hskip).bind fun _ => follows_pure (none : Option α)) _ hinside' hn hd
    rw [hcursor', hcursor] at hrest
    refine .record hinside e ?_
    rw [hcursor]
    exact hrest

theorem Follows.functions {f : Nat → Code α} {p : Parse α} (h : Follows n d (f d) p) :
    Follows n d (Code.perform .functions >>= f) p := by
  intro s hs hn hd
  refine .look hs rfl ?_
  rw [hd]
  exact h s hs hn hd

theorem follows_nested {r : Routine α} {p : Parse α} (hn : n < Grammar.nestingLimit)
    (h : Follows (n + 1) d r.code p) : Follows n d (Code.nested r) p := by
  intro s hs hns hd
  refine .look hs rfl ?_
  show Gives s (if Grammar.nestingLimit ≤ s.nesting then Code.fail .tooMuchNesting
    else .act .enter fun _ => .attempt r fun y => .act .leave fun _ => Code.ofExcept y) _
  rw [if_neg (by omega)]
  have hdeeper : ({ s with nesting := s.nesting + 1 } : State).Inside := ⟨hs.ended, hs.current⟩
  have hcalled := h _ hdeeper (by simp only; omega) hd
  refine .bracket .enter .leave Code.ofExcept hs rfl rfl ?_ (fun c => rfl) hcalled ?_ ?_
  · have hlevel : s.nesting + 1 ≤ Grammar.nestingLimit := by omega
    exact ⟨rfl, Nat.le_refl _, hs.current, le_max_of_le_left hlevel, List.prefix_refl _⟩
  · exact fun x c hc => .done_at hs hc x
  · exact fun e c hc => .raise_at hs hc e

theorem follows_nested_full (r : Routine α) (hn : Grammar.nestingLimit ≤ n) :
    Follows n d (Code.nested r) (Parse.fail .tooMuchNesting) := by
  intro s hs hns hd
  refine .look hs rfl ?_
  show Gives s (if Grammar.nestingLimit ≤ s.nesting then Code.fail .tooMuchNesting
    else .act .enter fun _ => .attempt r fun y => .act .leave fun _ => Code.ofExcept y) _
  rw [if_pos (by omega)]
  exact follows_fail .tooMuchNesting s hs hns hd

theorem follows_functionBody {p : Parse (List Stmt)} (brace : Token)
    (h : Follows n (d + 1) Routine.body.code p) :
    Follows n d (Routine.functionBody brace).code p := by
  intro s hs hn hd
  have hinner : ({ s with functions := s.functions + 1 } : State).Inside :=
    ⟨hs.ended, hs.current⟩
  have hcalled := h _ hinner hn (by simp only; omega)
  refine .bracket .enterFunction .leaveFunction (Code.ofBody brace) hs rfl rfl ?_ (fun c => rfl)
    hcalled ?_ ?_
  · exact ⟨rfl, Nat.le_refl _, hs.current, le_max_right _ _, List.prefix_refl _⟩
  · exact fun x c hc => .done_at hs hc x
  · exact fun e c hc => (Gives.raise_at hs hc e).lose brace

end Follows

end Descent

end Scriptlet
