import Scriptlet.Proofs.Padding
import Scriptlet.Proofs.ScopeHygiene

/-!
Runs cannot see padding. Two runs of the same code on machines that are the same but for padding end
with the same result or the same error, in machines that are the same but for padding again. Code
that declares a name needs its own scope to be no padding, since the name has to come to be bound in
a frame that both machines have. The runs may check the stack at different times, so how much it
holds has to be measured by the calls in progress.
-/

namespace Scriptlet

/-- Whether the stack holds as long as no more than some number of calls are in progress. A stack
that never runs out is measured in this way as well. -/
def Host.CountsCalls (host : Host) : Prop :=
  ∀ check check' depth, host.stack check' depth = host.stack check depth

namespace Padding

variable {p q r : Padding} {tight : Bool}

/-- Machines that are the same but for padding. If they are tight, there is none between the two
scopes. -/
structure Matches (p : Padding) (tight : Bool) (m m' : Machine) : Prop where
  stores : p.Stores m.frames m'.frames
  scope : p.Leads m'.frames m.scope m'.scope
  unpadded : tight = true → m'.scope = p.frame m.scope
  depth : m'.depth = m.depth
  watched : m'.watched = m.watched
  reserved : m'.reserved = m.reserved
  identity : m'.nextIdentity = m.nextIdentity
  calls : m'.nativeCalls = m.nativeCalls
  output : m'.output = m.output

theorem matches_own {m : Machine} (h : m.Linked) :
    (own m.frames.size (Nat.zero_lt_of_lt h.scope)).Matches true m m where
  stores := stores_own _ h.frames
  scope := leads_own _ m.frames h.scope
  unpadded _ := (frame_own _ h.scope).symm
  depth := rfl
  watched := rfl
  reserved := rfl
  identity := rfl
  calls := rfl
  output := rfl

/-- What two runs leave as it was: the padding that there was on the right, and on the left the
scope, the calls in progress and whether the stack is watched. -/
structure Leaves (p q : Padding) (m m' after after' : Machine) : Prop where
  kept : p.Kept q m'.frames after'.frames
  scope : after.scope = m.scope
  depth : after.depth = m.depth
  watched : after.watched = m.watched

/-- Runs that end in the same way: with results that correspond, or with the same error. -/
inductive SameEnd (p : Padding) (tight : Bool) {α : Type} (R : Padding → α → α → Prop)
    (m m' : Machine) :
    EStateM.Result RuntimeError Machine α → EStateM.Result RuntimeError Machine α → Prop where
  | ok {q : Padding} {x x' : α} {after after' : Machine} (leaves : p.Leaves q m m' after after')
      (result : R q x x') (same : q.Matches tight after after') :
      SameEnd p tight R m m' (.ok x after) (.ok x' after')
  | error {q : Padding} {e : RuntimeError} {after after' : Machine}
      (leaves : p.Leaves q m m' after after') (same : q.Matches tight after after') :
      SameEnd p tight R m m' (.error e after) (.error e after')

/-- Runs that end in the same way wherever they start on machines that match, with these places or
more. -/
def Aligned (p : Padding) (tight : Bool) {α : Type} (R : Padding → α → α → Prop)
    (run run' : Eval α) : Prop :=
  ∀ q, p ≤ q → ∀ m m', q.Matches tight m m' → q.SameEnd tight R m m' (run m) (run' m')

def Same {α : Type} (_ : Padding) (x x' : α) : Prop := x' = x

theorem Leaves.refl (p : Padding) (m m' : Machine) : p.Leaves p m m' m m' :=
  ⟨.refl p m'.frames, rfl, rfl, rfl⟩

theorem Leaves.trans {m m' middle middle' after after' : Machine}
    (h : p.Leaves q m m' middle middle') (k : q.Leaves r middle middle' after after') :
    p.Leaves r m m' after after' :=
  ⟨h.kept.trans k.kept, k.scope.trans h.scope, k.depth.trans h.depth, k.watched.trans h.watched⟩

theorem Matches.back {inside : Bool} {m m' after after' : Machine} (h : p.Matches tight m m')
    (hkept : p.Kept q m'.frames after'.frames) (k : q.Matches inside after after') :
    q.Matches tight { after with scope := m.scope } { after' with scope := m'.scope } where
  stores := k.stores
  scope := h.scope.kept hkept
  unpadded htight := (h.unpadded htight).trans (frame_of_le hkept.le h.scope.known).symm
  depth := k.depth
  watched := k.watched
  reserved := k.reserved
  identity := k.identity
  calls := k.calls
  output := k.output

theorem Matches.back_right {inside : Bool} {m m' after after' : Machine} (h : p.Matches tight m m')
    (hkept : p.Kept q m'.frames after'.frames) (hscope : after.scope = m.scope)
    (k : q.Matches inside after after') :
    q.Matches tight after { after' with scope := m'.scope } := by
  have hback := h.back hkept k
  rwa [← hscope] at hback

theorem Matches.entering {m m' : Machine} (h : p.Matches tight m m') {frame frame' : Frame}
    (hframe : p.Alike m'.frames frame frame') :
    (p.extend m'.frames.size h.stores.next_apart).Matches true (m.entering frame)
      (m'.entering frame') := by
  have hplace := p.frame_extend h.stores.next_apart
  have hscope : (m.entering frame).scope = p.size := by
    simp [Machine.entering, Machine.modifyFrames, h.stores.size]
  have hscope' : (m'.entering frame').scope = m'.frames.size := by
    simp [Machine.entering, Machine.modifyFrames]
  refine { h with stores := h.stores.push hframe, scope := ?_, unpadded := fun _ => ?_ }
  · rw [hscope, hscope']
    exact .of_eq (by simp) hplace
  · rw [hscope, hscope', hplace]

theorem Matches.padded {m m' : Machine} (h : p.Matches tight m m') :
    p.Matches false m (m'.entering ⟨[], some m'.scope⟩) := by
  have hscope' : (m'.entering ⟨[], some m'.scope⟩).scope = m'.frames.size := by
    simp [Machine.entering, Machine.modifyFrames]
  refine { h with stores := h.stores.pad _, scope := ?_, unpadded := fun hf => ?_ }
  · rw [hscope']
    refine .past h.stores.next_apart ?_ (h.scope.kept (p.kept_push _ _))
    exact (Frames.frame?_push _ _).trans (if_pos rfl)
  · cases hf

section Results

variable {α β : Type} {R : Padding → α → α → Prop} {S : Padding → β → β → Prop}

theorem SameEnd.of_leaves {m m' middle middle' : Machine}
    {result result' : EStateM.Result RuntimeError Machine α}
    (h : p.Leaves q m m' middle middle') (k : q.SameEnd tight R middle middle' result result') :
    p.SameEnd tight R m m' result result' := by
  cases k with
  | ok leaves hresult same => exact .ok (h.trans leaves) hresult same
  | error leaves same => exact .error (h.trans leaves) same

/-- One run after another, from machines that match. -/
theorem SameEnd.bind {run run' : Eval α} {next next' : α → Eval β} {m m' : Machine}
    (h : p.SameEnd tight R m m' (run m) (run' m'))
    (k : ∀ q x x' after after', p.Leaves q m m' after after' → R q x x' →
      q.Matches tight after after' → q.SameEnd tight S after after' (next x after)
        (next' x' after')) :
    p.SameEnd tight S m m' ((run >>= next) m) ((run' >>= next') m') := by
  generalize hleft : run m = result at h
  generalize hright : run' m' = result' at h
  cases h with
  | ok leaves hx hafter =>
    rw [Eval.bind_ok hleft, Eval.bind_ok hright]
    exact (k _ _ _ _ _ leaves hx hafter).of_leaves leaves
  | error leaves hafter =>
    rw [Eval.bind_error hleft, Eval.bind_error hright]
    exact .error leaves hafter

theorem SameEnd.inFrame {run run' : Eval α} {m m' : Machine} (hm : p.Matches tight m m')
    {frame frame' : Frame}
    (h : (p.extend m'.frames.size hm.stores.next_apart).SameEnd true R (m.entering frame)
      (m'.entering frame') (run (m.entering frame)) (run' (m'.entering frame'))) :
    p.SameEnd tight R m m' (Eval.inFrame frame run m) (Eval.inFrame frame' run' m') := by
  have hextend := p.kept_extend hm.stores.next_apart frame'
  generalize hleft : run (m.entering frame) = result at h
  generalize hright : run' (m'.entering frame') = result' at h
  cases h with
  | ok leaves hx hafter =>
    have hkept := hextend.trans leaves.kept
    rw [Eval.inFrame_ok hleft, Eval.inFrame_ok hright]
    exact .ok ⟨hkept, rfl, leaves.depth, leaves.watched⟩ hx (hm.back hkept hafter)
  | error leaves hafter =>
    have hkept := hextend.trans leaves.kept
    rw [Eval.inFrame_error hleft, Eval.inFrame_error hright]
    exact .error ⟨hkept, rfl, leaves.depth, leaves.watched⟩ (hm.back hkept hafter)

namespace Aligned

variable {run run' : Eval α}

theorem of_le (h : p.Aligned tight R run run') (hle : p ≤ q) : q.Aligned tight R run run' :=
  fun r hr => h r (le_trans hle hr)

theorem pure {x x' : α} (h : ∀ q, p ≤ q → R q x x') :
    p.Aligned tight R (Pure.pure x) (Pure.pure x') :=
  fun q hq m m' hm => .ok (.refl q m m') (h q hq) hm

theorem raise (fault : Fault) (token : Token) :
    p.Aligned tight R (Eval.raise fault token) (Eval.raise fault token) :=
  fun q _ m m' hm => .error (.refl q m m') hm

theorem bind {next next' : α → Eval β} (h : p.Aligned tight R run run')
    (k : ∀ q, p ≤ q → ∀ x x', R q x x' → q.Aligned tight S (next x) (next' x')) :
    p.Aligned tight S (run >>= next) (run' >>= next') := by
  intro q hq m m' hm
  refine (h q hq m m' hm).bind fun r x x' after after' leaves hx hafter => ?_
  exact k r (le_trans hq leaves.kept.le) x x' hx r (le_refl r) after after' hafter

theorem map {f : α → β} (h : p.Aligned tight R run run')
    (hf : ∀ q, p ≤ q → ∀ x x', R q x x' → ∀ r, q ≤ r → S r (f x) (f x')) :
    p.Aligned tight S (f <$> run) (f <$> run') := by
  rw [← bind_pure_comp f run, ← bind_pure_comp f run']
  exact h.bind fun q hq x x' hx => pure (hf q hq x x' hx)

theorem discard (h : p.Aligned tight R run run') :
    p.Aligned tight Same (discard run) (discard run') :=
  h.map fun _ _ _ _ _ _ _ => rfl

theorem thenNormal {run run' : Eval Unit} (h : p.Aligned tight Same run run') :
    p.Aligned tight Flows
      (do
        run
        Pure.pure .normal)
      (do
        run'
        Pure.pure .normal) :=
  h.bind fun _ _ _ _ _ => pure fun _ _ => .normal

theorem inFrame (h : p.Aligned true R run run') {frame frame' : Frame}
    (hframe : ∀ q, p ≤ q → ∀ frames, q.Alike frames frame frame') :
    p.Aligned tight R (Eval.inFrame frame run) (Eval.inFrame frame' run') := by
  intro q hq m m' hm
  have hle := q.le_extend hm.stores.next_apart
  exact .inFrame hm (h _ (le_trans hq hle) _ _ (hm.entering (hframe q hq m'.frames)))

theorem inScope (h : p.Aligned true R run run') :
    p.Aligned tight R (Eval.inScope run) (Eval.inScope run') := by
  intro q hq m m' hm
  have hle := q.le_extend hm.stores.next_apart
  exact .inFrame hm (h _ (le_trans hq hle) _ _ (hm.entering ⟨rfl, by simp, .some hm.scope⟩))

/-- A scope that only the run on the right has. -/
theorem inPadding (h : p.Aligned false R run run') :
    p.Aligned tight R run (Eval.inScope run') := by
  intro q hq m m' hm
  have hpush := q.kept_push m'.frames ⟨[], some m'.scope⟩
  have hend := h q hq _ _ hm.padded
  generalize run m = result at hend ⊢
  generalize hright : run' (m'.entering ⟨[], some m'.scope⟩) = result' at hend
  cases hend with
  | ok leaves hx hafter =>
    have hkept := hpush.trans leaves.kept
    rw [Eval.inScope, Eval.inFrame_ok hright]
    exact .ok ⟨hkept, leaves.scope, leaves.depth, leaves.watched⟩ hx
      (hm.back_right hkept leaves.scope hafter)
  | error leaves hafter =>
    have hkept := hpush.trans leaves.kept
    rw [Eval.inScope, Eval.inFrame_error hright]
    exact .error ⟨hkept, leaves.scope, leaves.depth, leaves.watched⟩
      (hm.back_right hkept leaves.scope hafter)

theorem inCall (h : p.Aligned tight R run run') :
    p.Aligned tight R (Eval.inCall run) (Eval.inCall run') := by
  intro q hq m m' hm
  have hcalled : q.Matches tight { m with depth := m.depth + 1 }
      { m' with depth := m'.depth + 1 } :=
    { hm with depth := congrArg (· + 1) hm.depth }
  have hend := h q hq _ _ hcalled
  generalize hleft : run { m with depth := m.depth + 1 } = result at hend
  generalize hright : run' { m' with depth := m'.depth + 1 } = result' at hend
  cases hend with
  | ok leaves hx hafter =>
    rw [Eval.inCall_ok hleft, Eval.inCall_ok hright]
    exact .ok ⟨leaves.kept, leaves.scope, congrArg (· - 1) leaves.depth, leaves.watched⟩ hx
      { hafter with depth := congrArg (· - 1) hafter.depth }
  | error leaves hafter =>
    rw [Eval.inCall_error hleft, Eval.inCall_error hright]
    exact .error ⟨leaves.kept, leaves.scope, congrArg (· - 1) leaves.depth, leaves.watched⟩
      { hafter with depth := congrArg (· - 1) hafter.depth }

end Aligned

end Results

theorem aligned_settle {α : Type} {R : Padding → α → α → Prop} (token : Token)
    {result : Except Fault α} (h : ∀ x, result = .ok x → ∀ q, p ≤ q → R q x x) :
    p.Aligned tight R (Eval.settle token result) (Eval.settle token result) := by
  cases result with
  | ok x => exact .pure (h x rfl)
  | error fault => exact .raise fault token

theorem aligned_lookUp (name : Token) :
    p.Aligned tight Values (Eval.lookUp name) (Eval.lookUp name) := by
  intro q hq m m' hm
  unfold Eval.lookUp
  rcases hm.stores.get hm.scope name.lexeme with ⟨v, v', hv, hv', hvalues⟩ | ⟨fault, hf, hf'⟩
  · rw [hv, hv']
    exact .ok (.refl q m m') hvalues hm
  · rw [hf, hf']
    exact .error (.refl q m m') hm

theorem Matches.define {m m' : Machine} (h : p.Matches tight m m') {owner : FrameId}
    (howner : owner < p.size) (name : String) {v v' : Value} (hv : p.Values v v')
    (constant : Bool) :
    p.Leaves p m m' (m.modifyFrames (·.define owner name ⟨v, constant⟩))
        (m'.modifyFrames (·.define (p.frame owner) name ⟨v', constant⟩)) ∧
      p.Matches tight (m.modifyFrames (·.define owner name ⟨v, constant⟩))
        (m'.modifyFrames (·.define (p.frame owner) name ⟨v', constant⟩)) := by
  obtain ⟨rfl, hwithin⟩ := hv
  have hkept := kept_define howner m'.frames name ⟨v.rename p.names, constant⟩
  exact ⟨⟨hkept, rfl, rfl, rfl⟩, { h with
    stores := h.stores.define howner name hwithin
    scope := h.scope.kept hkept }⟩

theorem aligned_assign (name : Token) {v v' : Value} (hv : p.Values v v') :
    p.Aligned tight Same (Eval.assign name v) (Eval.assign name v') := by
  intro q hq m m' hm
  unfold Eval.assign
  rcases hm.stores.target hm.scope name.lexeme with ⟨owner, howner, ho, ho'⟩ | ⟨fault, hf, hf'⟩
  · obtain ⟨hleaves, hafter⟩ := hm.define howner name.lexeme (hv.mono hq) false
    rw [ho, ho']
    exact .ok hleaves rfl hafter
  · rw [hf, hf']
    exact .error (.refl q m m') hm

theorem aligned_define (name : Token) {v v' : Value} (hv : p.Values v v') (constant : Bool) :
    p.Aligned true Same (Eval.define name ⟨v, constant⟩) (Eval.define name ⟨v', constant⟩) := by
  intro q hq m m' hm
  obtain ⟨hleaves, hafter⟩ := hm.define hm.scope.known name.lexeme (hv.mono hq) constant
  unfold Eval.define
  rw [hm.unpadded rfl]
  exact .ok hleaves rfl hafter

theorem aligned_write (keyword : Token) (text : String) :
    p.Aligned tight Same (Eval.write keyword text) (Eval.write keyword text) := by
  intro q hq m m' hm
  have hleaves : q.Leaves q m m' (m.modifyOutput (·.write text)) (m'.modifyOutput (·.write text)) :=
    ⟨.refl q m'.frames, rfl, rfl, rfl⟩
  have hafter : q.Matches tight (m.modifyOutput (·.write text)) (m'.modifyOutput (·.write text)) :=
    { hm with output := congrArg (·.write text) hm.output }
  unfold Eval.write
  rw [hm.output]
  dsimp only
  split
  · exact .ok hleaves rfl hafter
  · exact .error hleaves hafter

theorem aligned_makeClosure (name : Token) (parameters : List Token) (body : List Stmt) :
    p.Aligned true Values (Eval.makeClosure name parameters body)
      (Eval.makeClosure name parameters body) := by
  intro q hq m m' hm
  refine .ok ⟨.refl q m'.frames, rfl, rfl, rfl⟩ ⟨?_, hm.scope.known⟩
    { hm with identity := congrArg (· + 1) hm.identity }
  rw [Value.rename, closure_names, hm.unpadded rfl, hm.identity]

theorem aligned_guardBuiltin (settings : Settings) (name : Token) :
    p.Aligned true Same (Eval.guardBuiltin settings name) (Eval.guardBuiltin settings name) := by
  intro q hq m m' hm
  have hglobal : m'.scope = Machine.globals ↔ m.scope = Machine.globals := by
    rw [hm.unpadded rfl]
    constructor
    · intro h
      exact frame_inj hm.scope.known q.size_pos (h.trans q.frame_globals.symm)
    · intro h
      rw [h, q.frame_globals]
  unfold Eval.guardBuiltin
  simp only [hglobal, hm.reserved]
  split
  · exact .error (.refl q m m') hm
  · exact .ok (.refl q m m') rfl hm

theorem leaves_checked (p : Padding) (m m' : Machine) : p.Leaves p m m' m.checked m'.checked :=
  ⟨.refl p m'.frames, rfl, rfl, rfl⟩

theorem Matches.checked {m m' : Machine} (h : p.Matches tight m m') :
    p.Matches tight m.checked m'.checked :=
  { h with }

variable {host : Host}

theorem aligned_checkStack (counts : host.CountsCalls) (token : Token) :
    p.Aligned tight Same (Eval.checkStack host token) (Eval.checkStack host token) := by
  intro q hq m m' hm
  have hsame : (!m'.watched || host.stack m'.stackChecks m'.depth) =
      (!m.watched || host.stack m.stackChecks m.depth) := by
    rw [hm.watched, hm.depth, counts m.stackChecks m'.stackChecks]
  unfold Eval.checkStack
  dsimp only
  rw [hsame]
  split
  · exact .ok (q.leaves_checked m m') rfl hm.checked
  · exact .error (q.leaves_checked m m') hm.checked

theorem aligned_guardCall (counts : host.CountsCalls) (paren : Token) :
    p.Aligned tight Same (Eval.guardCall host paren) (Eval.guardCall host paren) := by
  have hdepth : p.Aligned tight Same (Eval.guardDepth host.settings paren)
      (Eval.guardDepth host.settings paren) := by
    intro q hq m m' hm
    unfold Eval.guardDepth
    rw [hm.depth]
    split
    · exact .error (.refl q m m') hm
    · exact .ok (.refl q m m') rfl hm
  exact hdepth.bind fun _ _ _ _ _ => aligned_checkStack counts paren

theorem aligned_guardArity (paren : Token) (expected : Nat) {arguments arguments' : List Value}
    (ha : p.Lists arguments arguments') :
    p.Aligned tight Same (guardArity paren expected arguments)
      (guardArity paren expected arguments') := by
  unfold guardArity
  rw [ha.renamed, List.length_map]
  split
  · exact .pure fun _ _ => rfl
  · exact .raise _ paren

theorem aligned_applyNative (functional : host.natives.Functional) (paren : Token) (code : Nat)
    {arguments arguments' : List Value} (ha : p.Lists arguments arguments') :
    p.Aligned tight Values (Eval.applyNative host paren code arguments)
      (Eval.applyNative host paren code arguments') := by
  intro q hq m m' hm
  obtain ⟨rfl, hwithin⟩ := ha.mono hq
  have hleaves : q.Leaves q m m' { m with nativeCalls := m.nativeCalls + 1 }
      { m' with nativeCalls := m'.nativeCalls + 1 } :=
    ⟨.refl q m'.frames, rfl, rfl, rfl⟩
  have hcounted : q.Matches tight { m with nativeCalls := m.nativeCalls + 1 }
      { m' with nativeCalls := m'.nativeCalls + 1 } :=
    { hm with calls := congrArg (· + 1) hm.calls }
  have hresult :
      (host.natives code m'.nativeCalls (arguments.map (Value.rename q.names)) m'.heap).1 =
      (host.natives code m.nativeCalls arguments m.heap).1.map (Value.rename q.names) := by
    rw [hm.calls]
    exact functional.respects ⟨rfl, rfl⟩ _ _ _ _ _ fun v _ w _ => q.equals_names v w
  rw [Eval.applyNative_of_heap (functional.heap ..), Eval.applyNative_of_heap (functional.heap ..),
    hresult]
  cases hrun : (host.natives code m.nativeCalls arguments m.heap).1 with
  | error message => exact .error hleaves hcounted
  | ok value => exact .ok hleaves ⟨rfl, functional.within hrun hwithin⟩ hcounted

def Calls (call : Caller) : Prop :=
  ∀ (p : Padding) (tight : Bool) callee callee' paren arguments arguments',
    p.Values callee callee' → p.Lists arguments arguments' →
    p.Aligned tight Values (call callee paren arguments) (call callee' paren arguments')

variable {call : Caller}

mutual

theorem evaluate_padded (counts : host.CountsCalls) (hcall : Calls call) :
    (e : Expr) → (p : Padding) →
    p.Aligned tight Values (evaluate host call e) (evaluate host call e)
  | .literal value, _ => by
    simp only [evaluate]
    exact .pure fun q _ => .plain q (Value.plain_ofConstant value)
  | .identifier name, _ => aligned_lookUp name
  | .grouping inner, p => by
    simp only [evaluate]
    exact evaluate_padded counts hcall inner p
  | .unary operator operand, p => by
    apply (aligned_checkStack counts operator).bind
    intro o _ _ _ _
    apply (evaluate_padded counts hcall operand o).bind
    rintro q _ v _ ⟨rfl, _⟩
    have hsame : Value.applyUnary operator (v.rename q.names) = Value.applyUnary operator v :=
      Value.applyUnary_rename operator v
    rw [hsame]
    exact aligned_settle operator fun _ h r _ => .plain r (Value.plain_applyUnary h)
  | .binary left operator right, p => by
    apply (aligned_checkStack counts operator).bind
    intro o _ _ _ _
    apply (evaluate_padded counts hcall left o).bind
    intro q _ v v' hv
    apply (evaluate_padded counts hcall right q).bind
    rintro r hr w _ ⟨rfl, _⟩
    obtain ⟨rfl, _⟩ := hv.mono hr
    have hsame : Value.applyBinary operator (v.rename r.names) (w.rename r.names) =
        Value.applyBinary operator v w :=
      Value.applyBinary_rename operator (r.equals_names v w)
    rw [hsame]
    exact aligned_settle operator fun _ h _ _ => .plain _ (Value.plain_applyBinary h)
  | .logical left operator right, p => by
    apply (aligned_checkStack counts operator).bind
    intro o _ _ _ _
    apply (evaluate_padded counts hcall left o).bind
    intro q _ v v' hv
    have hsame : Value.decides operator v' = Value.decides operator v := by
      rw [hv.renamed]
      exact Value.decides_rename operator v
    rw [hsame]
    apply (aligned_settle (R := Same) operator fun _ _ _ _ => rfl).bind
    rintro r hr _ decided rfl
    cases decided with
    | true => exact .pure fun s hs => hv.mono (le_trans hr hs)
    | false => exact evaluate_padded counts hcall right r
  | .assignment name value, p => by
    apply (aligned_checkStack counts name).bind
    intro o _ _ _ _
    apply (evaluate_padded counts hcall value o).bind
    intro q _ v v' hv
    apply (aligned_assign name hv).bind
    intro r hr _ _ _
    exact .pure fun s hs => hv.mono (le_trans hr hs)
  | .call callee paren arguments, p => by
    apply (aligned_checkStack counts paren).bind
    intro o _ _ _ _
    apply (evaluate_padded counts hcall callee o).bind
    intro q _ f f' hf
    apply (evaluateAll_padded counts hcall arguments q).bind
    intro r hr vs vs' hvs
    exact hcall r tight f f' paren vs vs' (hf.mono hr) hvs

theorem evaluateAll_padded (counts : host.CountsCalls) (hcall : Calls call) :
    (es : List Expr) → (p : Padding) →
    p.Aligned tight Lists (evaluateAll host call es) (evaluateAll host call es)
  | [], _ => .pure fun _ _ => ⟨rfl, by simp⟩
  | e :: es, p => by
    apply (evaluate_padded counts hcall e p).bind
    intro q _ v v' hv
    apply (evaluateAll_padded counts hcall es q).bind
    intro r hr vs vs' hvs
    exact .pure fun s hs => (hvs.cons (hv.mono hr)).mono hs

end

theorem evaluateOr_padded (counts : host.CountsCalls) (hcall : Calls call) (absent : Value)
    (habsent : absent.Plain) (o : Option Expr) (p : Padding) :
    p.Aligned tight Values (evaluateOr host call absent o) (evaluateOr host call absent o) := by
  cases o with
  | some e => exact evaluate_padded counts hcall e p
  | none => exact .pure fun q _ => .plain q habsent

theorem runLoop_padded (limit : Nat) (keyword : Token) {condition condition' : Eval Bool}
    {body body' : Eval Flow} {increment increment' : Eval Unit}
    (hcondition : p.Aligned tight Same condition condition')
    (hbody : p.Aligned tight Flows body body')
    (hincrement : p.Aligned tight Same increment increment') (rounds : Nat) :
    p.Aligned tight Flows (runLoop limit keyword condition body increment rounds)
      (runLoop limit keyword condition' body' increment' rounds) := by
  induction rounds with
  | zero =>
    apply hcondition.bind
    rintro q _ _ holds rfl
    cases holds with
    | true => exact .raise _ keyword
    | false => exact .pure fun _ _ => .normal
  | succ rounds ih =>
    apply hcondition.bind
    rintro q hq _ holds rfl
    cases holds with
    | false => exact .pure fun _ _ => .normal
    | true =>
      apply (hbody.of_le hq).bind
      intro r hr flow flow' hflow
      cases hflow with
      | returning value => exact .pure fun _ hs => .returning (value.mono hs)
      | normal =>
        apply (hincrement.of_le (le_trans hq hr)).bind
        exact fun s hs _ _ _ => ih.of_le (le_trans (le_trans hq hr) hs)

theorem isTruthy_padded {run run' : Eval Value} (h : p.Aligned tight Values run run') :
    p.Aligned tight Same (Value.isTruthy <$> run) (Value.isTruthy <$> run') := by
  refine h.map fun q _ v v' hv r _ => ?_
  rw [hv.renamed]
  exact v.isTruthy_rename

mutual

theorem execute_padded (counts : host.CountsCalls) (hcall : Calls call) :
    (s : Stmt) → {tight : Bool} → tight = true ∨ s.declared = [] → (p : Padding) →
    p.Aligned tight Flows (execute host call s) (execute host call s)
  | .expression value, _, _, p => (evaluate_padded counts hcall value p).discard.thenNormal
  | .print keyword value, _, _, p => by
    apply (evaluate_padded counts hcall value p).bind
    rintro q _ v _ ⟨rfl, _⟩
    rw [Value.text_rename]
    exact (aligned_write keyword _).thenNormal
  | .block body, _, _, p => by
    simp only [execute]
    exact (executeAll_padded counts hcall body p).inScope
  | .conditional condition thenBranch elseBranch, tight, h, p => by
    have hbranches : (tight = true ∨ thenBranch.declared = []) ∧
        (tight = true ∨ Stmt.declaredIfAny elseBranch = []) := by
      rw [Stmt.declared, List.append_eq_nil_iff] at h
      exact ⟨h.imp_right And.left, h.imp_right And.right⟩
    rw [execute_conditional]
    apply (evaluate_padded counts hcall condition p).bind
    rintro q _ v _ ⟨rfl, _⟩
    rw [Value.isTruthy_rename]
    cases v.isTruthy with
    | true => exact execute_padded counts hcall thenBranch hbranches.1 q
    | false => exact executeIfAny_padded counts hcall elseBranch hbranches.2 q
  | .whileLoop keyword condition body, tight, h, p => by
    simp only [execute]
    apply (aligned_checkStack counts keyword).bind
    intro q _ _ _ _
    exact runLoop_padded _ keyword (isTruthy_padded (evaluate_padded counts hcall condition q))
      (execute_padded counts hcall body h q) (.pure fun _ _ => rfl) _
  | .forLoop keyword initializer condition increment body, _, _, p => by
    rw [execute_forLoop]
    apply (aligned_checkStack counts keyword).bind
    intro o _ _ _ _
    apply Aligned.inScope
    apply (executeIfAny_padded counts hcall initializer (.inl rfl) o).discard.bind
    intro q _ _ _ _
    exact runLoop_padded _ keyword
      (isTruthy_padded (evaluateOr_padded counts hcall (.boolean true) trivial condition q))
      (execute_padded counts hcall body (.inl rfl) q)
      (evaluateOr_padded counts hcall .nil trivial increment q).discard _
  | .variableDecl name initializer constant, tight, h, p => by
    obtain rfl : tight = true := h.resolve_right (List.cons_ne_nil _ _)
    apply (aligned_guardBuiltin host.settings name).bind
    intro q _ _ _ _
    apply (evaluateOr_padded counts hcall .nil trivial initializer q).bind
    intro r _ v v' hv
    exact (aligned_define name hv constant).thenNormal
  | .functionDecl name parameters body, tight, h, p => by
    obtain rfl : tight = true := h.resolve_right (List.cons_ne_nil _ _)
    apply (aligned_guardBuiltin host.settings name).bind
    intro q _ _ _ _
    apply (aligned_makeClosure name parameters body).bind
    intro r _ v v' hv
    exact (aligned_define name hv false).thenNormal
  | .returnStmt _ value, _, _, p => by
    simp only [execute]
    exact (evaluateOr_padded counts hcall .nil trivial value p).map
      fun q _ v v' hv r hr => .returning (hv.mono hr)

theorem executeIfAny_padded (counts : host.CountsCalls) (hcall : Calls call) : (o : Option Stmt) →
    {tight : Bool} → tight = true ∨ Stmt.declaredIfAny o = [] → (p : Padding) →
    p.Aligned tight Flows (executeIfAny host call o) (executeIfAny host call o)
  | some s, _, h, p => execute_padded counts hcall s h p
  | none, _, _, _ => .pure fun _ _ => .normal

theorem executeAll_padded (counts : host.CountsCalls) (hcall : Calls call) : (ss : List Stmt) →
    (p : Padding) →
    p.Aligned true Flows (executeAll host call ss) (executeAll host call ss)
  | [], _ => .pure fun _ _ => .normal
  | s :: ss, p => by
    apply (execute_padded counts hcall s (.inl rfl) p).bind
    intro q _ flow flow' hflow
    cases hflow with
    | returning value => exact .pure fun _ hr => .returning (value.mono hr)
    | normal => exact executeAll_padded counts hcall ss q

end

theorem alike_frame {f f' : Closure} (hf : p.Values (.function f) (.function f'))
    {arguments arguments' : List Value} (ha : p.Lists arguments arguments') (frames : Frames) :
    p.Alike frames (f.frame arguments) (f'.frame arguments') := by
  obtain rfl : f' = f.rename p.names := Value.function.inj hf.renamed
  have henclosing : (f.frame arguments).enclosing = some f.scope := Frame.enclosing_defineAll _ _ _
  rw [ha.renamed, f.frame_rename]
  refine ⟨rfl, Frame.values_defineAll (by simp) ha.within, ?_⟩
  rw [Frame.rename, henclosing]
  exact .some (.here hf.within)

theorem calls_callValue (counts : host.CountsCalls) (functional : host.natives.Functional) :
    (calls : Nat) → Calls (callValue host calls)
  | calls, p, tight, .native f, _, paren, arguments, arguments', ⟨rfl, _⟩, ha => by
    rw [Value.rename, callValue_native, callValue_native]
    apply (aligned_guardArity paren _ ha).bind
    intro q hq _ _ _
    apply (aligned_guardCall counts paren).bind
    intro r hr _ _ _
    exact (aligned_applyNative functional paren f.code (ha.mono (le_trans hq hr))).inCall
  | 0, p, tight, .function f, _, paren, arguments, arguments', ⟨rfl, _⟩, ha => by
    rw [Value.rename, closure_names, callValue, callValue]
    apply (aligned_guardArity paren _ ha).bind
    intro q _ _ _ _
    apply (aligned_guardCall counts paren).bind
    intro r _ _ _ _
    exact .raise _ paren
  | calls + 1, p, tight, .function f, callee', paren, arguments, arguments', hf, ha => by
    have hbody := executeAll_padded counts (calls_callValue counts functional calls) f.body
    obtain rfl : callee' = .function { f with scope := p.frame f.scope } := by
      rw [hf.renamed, Value.rename, closure_names]
    rw [callValue_function, callValue_function]
    apply (aligned_guardArity paren _ ha).bind
    intro q hq _ _ _
    apply (aligned_guardCall counts paren).bind
    intro r hr _ _ _
    have hle := le_trans hq hr
    apply ((hbody r).inFrame fun s hs => alike_frame (hf.mono (le_trans hle hs))
      (ha.mono (le_trans hle hs))).inCall.bind
    intro s _ flow flow' hflow
    cases hflow with
    | returning value => exact .pure fun _ ht => value.mono ht
    | normal => exact .pure fun t _ => .plain t trivial
  | calls, p, tight, .nil, _, paren, _, _, ⟨rfl, _⟩, _ => by cases calls <;> exact .raise _ paren
  | calls, p, tight, .boolean _, _, paren, _, _, ⟨rfl, _⟩, _ => by
    cases calls <;> exact .raise _ paren
  | calls, p, tight, .number _, _, paren, _, _, ⟨rfl, _⟩, _ => by
    cases calls <;> exact .raise _ paren
  | calls, p, tight, .string _, _, paren, _, _, ⟨rfl, _⟩, _ => by
    cases calls <;> exact .raise _ paren

end Padding

end Scriptlet
