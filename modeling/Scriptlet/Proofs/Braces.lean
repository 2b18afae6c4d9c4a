import Scriptlet.Proofs.MatchingBraces
import Scriptlet.Proofs.ParsingEnds

/-!
Where blocks close. After an error inside a block, tokens are thrown away up to the next brace that
closes, and an opening brace may be among them; the block then ends at a brace that closes something
else. It ends as many levels too early as opening braces were thrown away, and so behind its own
closing brace if and only if there were none. Without an error none is thrown away.
-/

namespace Scriptlet

namespace Descent

def Event.isLost : Event → Bool
  | .lost _ => true
  | .reached _ => false

/-- How many opening braces a run throws away. -/
def lostBraces (events : List Event) : Nat := events.countP (·.isLost)

theorem lostBraces_append (events more : List Event) :
    lostBraces (events ++ more) = lostBraces events + lostBraces more :=
  List.countP_append

theorem lostBraces_cons_lost (brace : Token) (events : List Event) :
    lostBraces (.lost brace :: events) = 1 + lostBraces events := by
  rw [lostBraces, List.countP_cons_of_pos rfl, Nat.add_comm, lostBraces]

theorem State.Inside.kind_peek_ne {s : State} (h : s.Inside) {levels : Nat} {rest : List Token}
    (hbraces : behindBraces levels s.cursor.ahead = some rest) (hlevels : 0 < levels) :
    s.cursor.peek.kind ≠ .endOfInput := by
  obtain ⟨t, ts, hc⟩ := exists_cons_of_behindBraces hbraces hlevels
  have hmem : t ∈ s.cursor.ahead := hc ▸ List.mem_cons_self
  rw [Cursor.peek, hc]
  exact h.kind_ne hmem

/-- A step keeps count of the braces ahead; `extra` levels more are open than it knows of. -/
theorem Action.perform_braces {β : Type} {action : Action β} {next : β → Nat → Token → Prop}
    {s s' : State} {y : β} {levels extra : Nat} {rest : List Token}
    (performed : action.perform s = some (y, s')) (h : s.Inside)
    (hwp : action.wp next levels s.cursor.peek)
    (hbraces : behindBraces (levels + extra) s.cursor.ahead = some rest) :
    ∃ left, next y left s'.cursor.peek ∧
      behindBraces (left + extra) s'.cursor.ahead = some rest ∧ s'.Inside := by
  cases action with
  | peek =>
    rw [Action.perform, h.getElem?_current] at performed
    cases performed
    exact ⟨levels, hwp, hbraces, h⟩
  | take =>
    obtain ⟨hlevels, hnext⟩ := hwp
    obtain ⟨t, ts, hc⟩ := exists_cons_of_behindBraces hbraces (Nat.add_pos_left hlevels extra)
    have hpeek : s.cursor.peek = t := by rw [Cursor.peek, hc]; rfl
    have hreach : s.cursor.Reaches { s.cursor with ahead := ts } :=
      .read (hc ▸ List.suffix_cons t ts)
    obtain ⟨hinside, hcursor⟩ := h.move hreach
    rw [h.perform_take hc] at performed
    obtain ⟨rfl, rfl⟩ := Prod.mk.inj (Option.some.inj performed)
    rw [hc, behindBraces_cons (Nat.add_pos_left hlevels extra), levelsBehind_add hlevels]
      at hbraces
    have hahead : behindBraces (levelsBehind t.kind levels + extra)
        (s.moved { s.cursor with ahead := ts }).cursor.ahead = some rest := by
      rw [hcursor]
      exact hbraces
    rw [hpeek] at hnext
    refine ⟨_, hnext _ fun hleft => ?_, hahead, hinside⟩
    exact hinside.kind_peek_ne hahead (Nat.add_pos_left hleft extra)
  | nesting =>
    cases performed
    exact ⟨levels, hwp _, hbraces, h⟩
  | functions =>
    cases performed
    exact ⟨levels, hwp _, hbraces, h⟩
  | _ =>
    cases performed
    exact ⟨levels, hwp, hbraces, ⟨h.ended, h.current⟩⟩

def outcome {α : Type} : EStateM.Result SyntaxError State α → Except SyntaxError α
  | .ok x _ => .ok x
  | .error e _ => .error e

/-- A run keeps count of the braces ahead, with those that it throws away. -/
theorem Runs.braces {α : Type} {code : Code α} {s : State} {events : List Event}
    {result : EStateM.Result SyntaxError State α} (h : Runs code s events result) :
    ∀ {post : Except SyntaxError α → Nat → Token → Prop} {levels extra : Nat} {rest : List Token},
      s.Inside → code.wp post levels s.cursor.peek →
      behindBraces (levels + extra) s.cursor.ahead = some rest →
      ∃ left, post (outcome result) left (State.reached result).cursor.peek ∧
        behindBraces (left + (extra + lostBraces events)) (State.reached result).cursor.ahead =
          some rest ∧ (State.reached result).Inside := by
  -- The induction is on the run. Of a called routine only its contract is used, so that the calls
  -- of a routine by itself need no other argument.
  induction h with
  | done x s =>
    intro post levels extra rest hs hwp hbraces
    exact ⟨levels, hwp, hbraces, hs⟩
  | raise e s =>
    intro post levels extra rest hs hwp hbraces
    exact ⟨levels, hwp, hbraces, hs⟩
  | act performed _ ih =>
    intro post levels extra rest hs hwp hbraces
    obtain ⟨left, hnext, hbraces', hs'⟩ := Action.perform_braces performed hs hwp hbraces
    exact ih hs' hnext hbraces'
  | lose _ ih =>
    intro post levels extra rest hs hwp hbraces
    obtain ⟨hlevels, hnext⟩ := hwp
    -- One level less is known of, and one more is open besides.
    have heq : levels - 1 + (extra + 1) = levels + extra := by omega
    rw [lostBraces_cons_lost, ← Nat.add_assoc extra]
    exact ih hs hnext (heq ▸ hbraces)
  | returned _ _ ih ih' =>
    intro post levels extra rest hs hwp hbraces
    obtain ⟨hlevels, hblock, hstarts, hnext⟩ := hwp
    have ht := hs.kind_peek_ne hbraces (Nat.add_pos_left hlevels extra)
    obtain ⟨left, hafter, hbraces', hs'⟩ :=
      ih hs (Routine.meets _ hblock levels _ hlevels ht hstarts) hbraces
    rw [lostBraces_append, ← Nat.add_assoc extra]
    exact ih' hs' (hnext _ _ _ hafter) hbraces'
  | failed _ _ ih ih' =>
    intro post levels extra rest hs hwp hbraces
    obtain ⟨hlevels, hblock, hstarts, hnext⟩ := hwp
    have ht := hs.kind_peek_ne hbraces (Nat.add_pos_left hlevels extra)
    obtain ⟨left, hafter, hbraces', hs'⟩ :=
      ih hs (Routine.meets _ hblock levels _ hlevels ht hstarts) hbraces
    rw [lostBraces_append, ← Nat.add_assoc extra]
    exact ih' hs' (hnext _ _ _ hafter) hbraces'

/-- A block whose closing brace is there is read to an end. It ends as many levels too early as
opening braces were thrown away inside it, so behind its own brace only if there were none, and
there were none if no error was recorded. -/
theorem block_ends_lost_braces_early (s : State) (rest : List Token) (h : s.Inside)
    (hrest : behindBraces 1 s.cursor.ahead = some rest) :
    ∃ events body s', Runs Routine.block.code s events (.ok body s') ∧
      Parse.block (Parse.declaration (Grammar.nestingLimit - s.nesting) (0 < s.functions))
        s.cursor = .ok body s'.cursor ∧
      behindBraces (lostBraces events) s'.cursor.ahead = some rest ∧
      (s'.cursor.ahead = rest ↔ lostBraces events = 0) ∧
      (s'.errors = s.errors → lostBraces events = 0) := by
  have hfollows : Follows s.nesting s.functions Routine.block.code
      (Parse.block (Parse.declaration (Grammar.nestingLimit - s.nesting) (0 < s.functions))) :=
    follows s.nesting s.functions .block
  obtain ⟨hreaches, events, hruns, -⟩ := hfollows s h rfl rfl
  have ht := h.kind_peek_ne hrest Nat.one_pos
  have hstart : behindBraces (1 + 0) s.cursor.ahead = some rest := hrest
  obtain ⟨left, hafter, hbraces, -⟩ :=
    hruns.braces h (Routine.meets .block rfl 1 _ Nat.one_pos ht rfl) hstart
  cases hp : Parse.block
      (Parse.declaration (Grammar.nestingLimit - s.nesting) (0 < s.functions)) s.cursor with
  | error e c =>
    rw [hp] at hafter
    obtain ⟨-, n, hn, -⟩ := hafter
    cases hn
  | ok body c =>
    rw [hp] at hreaches hruns hafter hbraces
    obtain ⟨-, hleft, -⟩ := hafter
    obtain rfl : left = 0 := Nat.succ.inj hleft
    rw [Nat.zero_add, Nat.zero_add] at hbraces
    have hcursor : (s.moved c).cursor = c := (h.move hreaches).2
    have hiff : (s.moved c).cursor.ahead = rest ↔ lostBraces events = 0 :=
      eq_iff_of_behindBraces hbraces
    refine ⟨events, body, s.moved c, hruns, congrArg _ hcursor.symm, hbraces, hiff, ?_⟩
    intro herrors
    have hclean : behindBraces 1 s.cursor.ahead = some c.ahead :=
      Parse.behindBraces_of_block hp herrors
    refine hiff.1 ?_
    rw [hcursor]
    exact Option.some.inj (hclean.symm.trans hrest)

/-- The state behind the first brace of a block in which a pair of braces stands for an operand. -/
def bracesAsOperand : State where
  tokens := [⟨.leftBrace, "\x7b", none, ⟨1, 1⟩⟩, ⟨.number, "1", some (.number 1), ⟨1, 3⟩⟩,
    ⟨.plus, "+", none, ⟨1, 5⟩⟩, ⟨.leftBrace, "\x7b", none, ⟨1, 7⟩⟩,
    ⟨.rightBrace, "\x7d", none, ⟨1, 9⟩⟩, ⟨.rightBrace, "\x7d", none, ⟨1, 11⟩⟩, .finish ⟨1, 12⟩]
  current := 1
  errors := []
  functions := 0
  nesting := 1

theorem block_bracesAsOperand :
    ∃ c, Parse.block (Parse.declaration (Grammar.nestingLimit - 1) false) bracesAsOperand.cursor =
        .ok [] c ∧ c.ahead = [⟨.rightBrace, "\x7d", none, ⟨1, 11⟩⟩] :=
  ⟨_, rfl, rfl⟩

/-- The first of the two closing braces ends the block, though the second one belongs to it, and the
second one is reported as an error of its own. -/
theorem block_ends_at_inner_brace :
    behindBraces 1 bracesAsOperand.cursor.ahead = some [] ∧
    (∃ c, Parse.block (Parse.declaration (Grammar.nestingLimit - 1) false)
        bracesAsOperand.cursor = .ok [] c ∧ c.ahead ≠ []) ∧
    Grammar.program bracesAsOperand.tokens =
      .error [⟨.expression, ⟨.leftBrace, "\x7b", none, ⟨1, 7⟩⟩⟩,
        ⟨.expression, ⟨.rightBrace, "\x7d", none, ⟨1, 11⟩⟩⟩] := by
  obtain ⟨c, hparse, hahead⟩ := block_bracesAsOperand
  refine ⟨rfl, ⟨c, hparse, ?_⟩, rfl⟩
  rw [hahead]
  exact List.cons_ne_nil _ _

theorem block_ends_lost_braces_early_braces_as_operand :
    bracesAsOperand.Inside ∧ behindBraces 1 bracesAsOperand.cursor.ahead = some [] ∧
    ∃ events body s', Runs Routine.block.code bracesAsOperand events (.ok body s') ∧
      lostBraces events ≠ 0 := by
  have hinside : bracesAsOperand.Inside := ⟨by decide, by decide⟩
  obtain ⟨events, body, s', hruns, hparse', -, hiff, -⟩ :=
    block_ends_lost_braces_early bracesAsOperand [] hinside rfl
  refine ⟨hinside, rfl, events, body, s', hruns, fun hlost => ?_⟩
  obtain ⟨c, hparse, hahead⟩ := block_bracesAsOperand
  have hcursor : s'.cursor = c := (EStateM.Result.ok.inj (hparse'.symm.trans hparse)).2
  rw [← hcursor, hiff.2 hlost] at hahead
  cases hahead

end Descent

end Scriptlet
