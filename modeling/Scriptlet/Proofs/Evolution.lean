import Scriptlet.Machine.Execute
import Scriptlet.Proofs.FrameChains

/-!
What a run can do to a machine, said once: it binds names, writes, takes new identities, counts calls
of host functions and checks of the stack, and does all this also inside new frames and calls, which
it leaves again. Whatever holds after every such change holds after every run. Functions of the host
could do anything to the frames that they reach; a host whose functions keep off them is detached.
-/

namespace Scriptlet

/-- Whether the frame that a value refers to is one of the first `size`. -/
def Value.Within (size : Nat) : Value → Prop
  | .function f => f.scope < size
  | _ => True

theorem Value.Within.mono {size more : Nat} (h : size ≤ more) {value : Value}
    (hv : value.Within size) : value.Within more := by
  cases value with
  | function f => exact Nat.lt_of_lt_of_le hv h
  | _ => trivial

structure Frame.Linked (size : Nat) (frame : Frame) : Prop where
  enclosing : ∀ next ∈ frame.enclosing, next < size
  values : ∀ entry ∈ frame.bindings, entry.2.value.Within size

/-- Whether a machine refers only to frames that it has. -/
structure Machine.Linked (m : Machine) : Prop where
  scope : m.scope < m.frames.size
  frames : ∀ id frame, m.frames.frame? id = some frame → frame.Linked m.frames.size

theorem Frame.Linked.mono {size more : Nat} (h : size ≤ more) {frame : Frame}
    (hf : frame.Linked size) : frame.Linked more :=
  ⟨fun next hn => Nat.lt_of_lt_of_le (hf.enclosing next hn) h,
    fun entry he => (hf.values entry he).mono h⟩

theorem Frame.mem_put {name : String} {binding : Binding} {entry : String × Binding} :
    ∀ {entries}, entry ∈ Frame.put name binding entries → entry = (name, binding) ∨ entry ∈ entries
  | [], h => .inl (List.mem_singleton.1 h)
  | first :: rest, h => by
    unfold Frame.put at h
    split at h
    · rcases List.mem_cons.1 h with h | h
      · exact .inl h
      · exact .inr (List.mem_cons_of_mem _ h)
    · rcases List.mem_cons.1 h with h | h
      · exact .inr (h ▸ List.mem_cons_self)
      · exact (Frame.mem_put h).imp_right (List.mem_cons_of_mem _)

theorem Frame.values_define {P : Value → Prop} {frame : Frame}
    (hf : ∀ entry ∈ frame.bindings, P entry.2.value) (name : String) {binding : Binding}
    (hb : P binding.value) : ∀ entry ∈ (frame.define name binding).bindings, P entry.2.value := by
  intro entry he
  rcases Frame.mem_put he with rfl | he
  · exact hb
  · exact hf entry he

theorem Frame.values_defineAll {P : Value → Prop} {frame : Frame}
    (hf : ∀ entry ∈ frame.bindings, P entry.2.value) {names : List String} {values : List Value}
    (hv : ∀ v ∈ values, P v) :
    ∀ entry ∈ (frame.defineAll names values).bindings, P entry.2.value := by
  unfold Frame.defineAll
  have hentries : ∀ entry ∈ names.zip values, P entry.2 :=
    fun entry he => hv entry.2 (List.of_mem_zip he).2
  generalize names.zip values = entries at hentries
  induction entries generalizing frame with
  | nil => exact hf
  | cons entry entries ih =>
    obtain ⟨hfirst, hrest⟩ := List.forall_mem_cons.1 hentries
    exact ih (Frame.values_define hf entry.1 hfirst) hrest

theorem Frame.enclosing_defineAll (frame : Frame) (names : List String) (values : List Value) :
    (frame.defineAll names values).enclosing = frame.enclosing := by
  unfold Frame.defineAll
  induction names.zip values generalizing frame with
  | nil => rfl
  | cons entry entries ih => exact ih (frame.define entry.1 ⟨entry.2, false⟩)

theorem Frame.Linked.define {size : Nat} {frame : Frame} (hf : frame.Linked size) (name : String)
    {binding : Binding} (hb : binding.value.Within size) :
    (frame.define name binding).Linked size :=
  ⟨hf.enclosing, Frame.values_define hf.values name hb⟩

theorem Frame.linked_defineAll {size : Nat} {frame : Frame} (hf : frame.Linked size)
    {names : List String} {values : List Value} (hv : ∀ v ∈ values, v.Within size) :
    (frame.defineAll names values).Linked size := by
  refine ⟨?_, Frame.values_defineAll hf.values hv⟩
  rw [Frame.enclosing_defineAll]
  exact hf.enclosing

namespace Machine

def entering (m : Machine) (frame : Frame) : Machine :=
  let m := m.modifyFrames (·.push frame)
  { m with scope := m.frames.newest }

/-- The machine after a check of the stack, whatever the answer. -/
def checked (m : Machine) : Machine := { m with stackChecks := m.stackChecks + 1 }

inductive Evolves : Machine → Machine → Prop where
  | refl (m : Machine) : Evolves m m
  | trans {a b c : Machine} (first : Evolves a b) (second : Evolves b c) : Evolves a c
  | assign {m : Machine} {owner : FrameId} {name : String} {value : Value}
      (target : m.frames.target m.scope name = .ok owner) (fine : value.Within m.frames.size) :
      Evolves m (m.modifyFrames (·.define owner name ⟨value, false⟩))
  | define {m : Machine} (name : String) {binding : Binding}
      (fine : binding.value.Within m.frames.size) :
      Evolves m (m.modifyFrames (·.define m.scope name binding))
  | write (m : Machine) (text : String) : Evolves m (m.modifyOutput (·.write text))
  | identity (m : Machine) : Evolves m { m with nextIdentity := m.nextIdentity + 1 }
  | native (m : Machine) : Evolves m { m with nativeCalls := m.nativeCalls + 1 }
  | check (m : Machine) : Evolves m m.checked
  | frame {m after : Machine} {frame : Frame} (linked : frame.Linked m.frames.size)
      (inside : Evolves (m.entering frame) after) : Evolves m { after with scope := m.scope }
  | call {m after : Machine} (inside : Evolves { m with depth := m.depth + 1 } after) :
      Evolves m { after with depth := after.depth - 1 }

theorem linked_fresh (output : Output) : (fresh output).Linked := by
  refine ⟨by simp [fresh, globals], fun id frame hf => ?_⟩
  have hpush : (Frames.empty.push ⟨[], none⟩).frame? id = some frame := hf
  rw [Frames.frame?_push] at hpush
  split at hpush
  · obtain rfl := Option.some.inj hpush
    exact ⟨by simp, by simp⟩
  · simp [Frames.empty, Frames.frame?] at hpush

theorem grounded_fresh (output : Output) : (fresh output).frames.Grounded :=
  Frames.Grounded.push (fun _ h => absurd h (Nat.not_lt_zero _)) _ (by simp)

theorem Linked.modifyFrames_define {m : Machine} (h : m.Linked) (owner : FrameId) (name : String)
    {binding : Binding} (hb : binding.value.Within m.frames.size) :
    (m.modifyFrames (·.define owner name binding)).Linked := by
  refine ⟨by simpa [modifyFrames] using h.scope, fun id frame hf => ?_⟩
  simp only [modifyFrames, Frames.frame?_define, Frames.size_define] at hf ⊢
  split at hf
  · obtain ⟨old, hold, rfl⟩ := Option.map_eq_some_iff.1 hf
    exact (h.frames id old hold).define name hb
  · exact h.frames id frame hf

theorem Linked.entering {m : Machine} (h : m.Linked) {frame : Frame}
    (hf : frame.Linked m.frames.size) : (m.entering frame).Linked := by
  have hsize : (m.entering frame).frames.size = m.frames.size + 1 := by
    simp [Machine.entering, modifyFrames]
  refine ⟨by simp [Machine.entering, modifyFrames], fun id found hfound => ?_⟩
  rw [hsize]
  have hpush : (m.frames.push frame).frame? id = some found := hfound
  rw [Frames.frame?_push] at hpush
  split at hpush
  · obtain rfl := Option.some.inj hpush
    exact hf.mono (Nat.le_succ _)
  · exact (h.frames id found hpush).mono (Nat.le_succ _)

namespace Evolves

variable {m after : Machine}

theorem size_le (h : Evolves m after) : m.frames.size ≤ after.frames.size := by
  induction h with
  | trans _ _ ih₁ ih₂ => exact Nat.le_trans ih₁ ih₂
  | frame _ _ ih =>
    refine Nat.le_trans ?_ ih
    simp [entering, modifyFrames]
  | call _ ih => exact ih
  | assign => simp [modifyFrames]
  | define => simp [modifyFrames]
  | _ => exact Nat.le_refl _

theorem depth_eq (h : Evolves m after) : after.depth = m.depth := by
  induction h with
  | trans _ _ ih₁ ih₂ => exact ih₂.trans ih₁
  | frame _ _ ih => exact ih
  | call _ ih => simp [ih]
  | _ => rfl

theorem linked (h : Evolves m after) (hm : m.Linked) : after.Linked := by
  induction h with
  | trans _ _ ih₁ ih₂ => exact ih₂ (ih₁ hm)
  | assign _ fine => exact hm.modifyFrames_define _ _ fine
  | define name fine => exact hm.modifyFrames_define _ name fine
  | @frame m after frame linked inside ih =>
    have hafter := ih (hm.entering linked)
    have hgrown : m.frames.size ≤ after.frames.size :=
      (Evolves.frame linked inside).size_le
    exact ⟨Nat.lt_of_lt_of_le hm.scope hgrown, hafter.frames⟩
  | call inside ih =>
    have hafter := ih ⟨hm.scope, hm.frames⟩
    exact ⟨hafter.scope, hafter.frames⟩
  | _ => exact ⟨hm.scope, hm.frames⟩

theorem grounded (h : Evolves m after) (hm : m.frames.Grounded) : after.frames.Grounded := by
  induction h with
  | trans _ _ ih₁ ih₂ => exact ih₂ (ih₁ hm)
  | assign => exact Frames.Grounded.define hm _ _ _
  | define => exact Frames.Grounded.define hm _ _ _
  | frame linked _ ih => exact ih (Frames.Grounded.push hm _ linked.enclosing)
  | call _ ih => exact ih hm
  | _ => exact hm

end Evolves

end Machine

theorem Frame.mem_of_binding? {frame : Frame} {name : String} {binding : Binding}
    (h : frame.binding? name = some binding) : (name, binding) ∈ frame.bindings := by
  obtain ⟨before, after, hentries, _⟩ := List.lookup_eq_some_iff.1 h
  simp [hentries]

theorem Machine.Linked.within_nearestWithin {m : Machine} (hm : m.Linked) {name : String} :
    ∀ {steps id owner binding}, m.frames.nearestWithin name steps id = some (owner, binding) →
      binding.value.Within m.frames.size
  | 0, _, _, _, h => by cases h
  | steps + 1, id, owner, binding, h => by
    cases hf : m.frames.frame? id with
    | none => simp [Frames.nearestWithin, hf] at h
    | some frame =>
      rw [Frames.nearestWithin_succ name steps hf] at h
      split at h
      next found hb =>
        cases h
        exact (hm.frames id frame hf).values _ (Frame.mem_of_binding? hb)
      next =>
        obtain ⟨next, _, hnext⟩ := Option.bind_eq_some_iff.1 h
        exact hm.within_nearestWithin hnext

theorem Machine.Linked.within_get {m : Machine} (hm : m.Linked) {name : String} {value : Value}
    (h : m.frames.get m.scope name = .ok value) : value.Within m.frames.size := by
  unfold Frames.get Frames.get? Frames.nearest? at h
  cases hn : m.frames.nearestWithin name m.frames.size m.scope with
  | none => simp [hn] at h
  | some found =>
    simp only [hn, Option.map_some, Except.ok.injEq] at h
    exact h ▸ hm.within_nearestWithin hn

/-- A run ends in what a machine can become, and a result of it has a property. -/
def Eval.Ends {α : Type} (run : Eval α) (Q : α → Nat → Prop) (m : Machine) : Prop :=
  match run m with
  | .ok x after => m.Evolves after ∧ Q x after.frames.size
  | .error _ after => m.Evolves after

namespace Eval

variable {α β : Type} {run : Eval α} {Q : α → Nat → Prop} {R : β → Nat → Prop} {m : Machine}

theorem ends_pure {x : α} (h : Q x m.frames.size) : (pure x : Eval α).Ends Q m := ⟨.refl m, h⟩

theorem ends_raise (fault : Fault) (token : Token) : (raise fault token : Eval α).Ends Q m :=
  Machine.Evolves.refl m

theorem bind_ok {next : α → Eval β} {x : α} {after : Machine} (h : run m = .ok x after) :
    (run >>= next) m = next x after := by
  simp [bind, EStateM.bind, h]

theorem bind_error {next : α → Eval β} {e : RuntimeError} {after : Machine}
    (h : run m = .error e after) : (run >>= next) m = .error e after := by
  simp [bind, EStateM.bind, h]

theorem inFrame_ok {frame : Frame} {x : α} {after : Machine}
    (h : run (m.entering frame) = .ok x after) :
    inFrame frame run m = .ok x { after with scope := m.scope } := by
  change (match run (m.entering frame) with
    | .ok x after => EStateM.Result.ok x { after with scope := m.scope }
    | .error e after => .error e { after with scope := m.scope }) = _
  rw [h]

theorem inFrame_error {frame : Frame} {e : RuntimeError} {after : Machine}
    (h : run (m.entering frame) = .error e after) :
    inFrame frame run m = .error e { after with scope := m.scope } := by
  change (match run (m.entering frame) with
    | .ok x after => EStateM.Result.ok x { after with scope := m.scope }
    | .error e after => .error e { after with scope := m.scope }) = _
  rw [h]

theorem inCall_ok {x : α} {after : Machine}
    (h : run { m with depth := m.depth + 1 } = .ok x after) :
    inCall run m = .ok x { after with depth := after.depth - 1 } := by
  simp only [inCall, h]

theorem inCall_error {e : RuntimeError} {after : Machine}
    (h : run { m with depth := m.depth + 1 } = .error e after) :
    inCall run m = .error e { after with depth := after.depth - 1 } := by
  simp only [inCall, h]

theorem Ends.bind {next : α → Eval β} (h : run.Ends Q m) (hm : m.Linked)
    (k : ∀ x after, after.Linked → m.frames.size ≤ after.frames.size → Q x after.frames.size →
      (next x).Ends R after) : (run >>= next).Ends R m := by
  unfold Ends at h
  cases hr : run m with
  | error e after =>
    rw [hr] at h
    unfold Ends
    rwa [bind_error hr]
  | ok x after =>
    rw [hr] at h
    have hnext := k x after (h.1.linked hm) h.1.size_le h.2
    unfold Ends at hnext ⊢
    rw [bind_ok hr]
    cases hn : next x after with
    | ok y last =>
      rw [hn] at hnext
      exact ⟨h.1.trans hnext.1, hnext.2⟩
    | error e last =>
      rw [hn] at hnext
      exact h.1.trans hnext

theorem Ends.map (h : run.Ends Q m) {f : α → β} (hR : ∀ x size, Q x size → R (f x) size) :
    (f <$> run).Ends R m := by
  unfold Ends at h ⊢
  cases hr : run m with
  | ok x after =>
    rw [hr] at h
    have hmap : (f <$> run) m = .ok (f x) after := by simp [Functor.map, EStateM.map, hr]
    rw [hmap]
    exact ⟨h.1, hR x _ h.2⟩
  | error e after =>
    rw [hr] at h
    have hmap : (f <$> run) m = .error e after := by simp [Functor.map, EStateM.map, hr]
    rwa [hmap]

theorem Ends.discard (h : run.Ends Q m) : (discard run).Ends (fun _ _ => True) m :=
  h.map fun _ _ _ => trivial

theorem ends_settle (token : Token) {result : Except Fault α}
    (h : ∀ x, result = .ok x → Q x m.frames.size) : (settle token result).Ends Q m := by
  cases result with
  | ok x => exact ends_pure (h x rfl)
  | error fault => exact ends_raise fault token

theorem ends_lookUp (hm : m.Linked) (name : Token) :
    (lookUp name).Ends (fun v size => v.Within size) m := by
  change (settle name (m.frames.get m.scope name.lexeme)).Ends (fun v size => v.Within size) m
  exact ends_settle name fun _ hv => hm.within_get hv

theorem ends_assign (name : Token) {value : Value} (h : value.Within m.frames.size) :
    (assign name value).Ends (fun _ _ => True) m := by
  unfold Ends assign
  cases ht : m.frames.target m.scope name.lexeme with
  | ok owner => exact ⟨.assign ht h, trivial⟩
  | error fault => exact .refl m

theorem ends_define (name : Token) {binding : Binding} (h : binding.value.Within m.frames.size) :
    (define name binding).Ends (fun _ _ => True) m :=
  ⟨.define name.lexeme h, trivial⟩

theorem ends_write (keyword : Token) (text : String) :
    (write keyword text).Ends (fun _ _ => True) m := by
  unfold Ends write
  dsimp only
  cases m.output.fits text.utf8ByteSize with
  | true => exact ⟨.write m text, trivial⟩
  | false => exact .write m text

theorem ends_makeClosure (hm : m.Linked) (name : Token) (parameters : List Token)
    (body : List Stmt) : (makeClosure name parameters body).Ends (fun v size => v.Within size) m :=
  ⟨.identity m, hm.scope⟩

theorem ends_of_unchanged
    (h : (∃ x, run m = .ok x m ∧ Q x m.frames.size) ∨ ∃ e, run m = .error e m) :
    run.Ends Q m := by
  unfold Ends
  rcases h with ⟨x, hx, hQ⟩ | ⟨e, he⟩
  · rw [hx]
    exact ⟨.refl m, hQ⟩
  · rw [he]
    exact .refl m

theorem ends_guardBuiltin (settings : Settings) (name : Token) :
    (guardBuiltin settings name).Ends (fun _ _ => True) m := by
  refine ends_of_unchanged ?_
  unfold guardBuiltin
  split
  · exact .inr ⟨_, rfl⟩
  · exact .inl ⟨_, rfl, trivial⟩

theorem ends_guardDepth (settings : Settings) (paren : Token) :
    (guardDepth settings paren).Ends (fun _ _ => True) m := by
  refine ends_of_unchanged ?_
  unfold guardDepth
  split
  · exact .inr ⟨_, rfl⟩
  · exact .inl ⟨_, rfl, trivial⟩

theorem checkStack_cases (host : Host) (token : Token) (m : Machine) :
    checkStack host token m = .ok () m.checked ∨
      checkStack host token m = .error ⟨.stackOverflow, token⟩ m.checked := by
  unfold checkStack
  dsimp only
  split
  · exact .inl rfl
  · exact .inr rfl

theorem guardCall_of_full (host : Host) (paren : Token)
    (h : host.settings.maxCallDepth.toNat ≤ m.depth) :
    guardCall host paren m = .error ⟨.stackOverflow, paren⟩ m :=
  bind_error (if_pos h)

theorem guardCall_of_room (host : Host) (paren : Token)
    (h : ¬host.settings.maxCallDepth.toNat ≤ m.depth) :
    guardCall host paren m = checkStack host paren m :=
  bind_ok (if_neg h)

/-- A call is refused, before the stack is checked or after it, or there is room for it. -/
theorem guardCall_cases (host : Host) (paren : Token) (m : Machine) :
    (∃ after, guardCall host paren m = .error ⟨.stackOverflow, paren⟩ after ∧
      (after = m ∨ after = m.checked)) ∨
    (m.depth < host.settings.maxCallDepth.toNat ∧ guardCall host paren m = .ok () m.checked) := by
  by_cases hfull : host.settings.maxCallDepth.toNat ≤ m.depth
  · exact .inl ⟨m, guardCall_of_full host paren hfull, .inl rfl⟩
  · rw [guardCall_of_room host paren hfull]
    rcases checkStack_cases host paren m with hcheck | hcheck
    · exact .inr ⟨Nat.lt_of_not_le hfull, hcheck⟩
    · exact .inl ⟨m.checked, hcheck, .inr rfl⟩

theorem ends_checkStack (host : Host) (token : Token) :
    (checkStack host token).Ends (fun _ _ => True) m := by
  unfold Ends
  rcases checkStack_cases host token m with hcheck | hcheck
  · rw [hcheck]
    exact ⟨.check m, trivial⟩
  · rw [hcheck]
    exact .check m

theorem ends_guardCall (hm : m.Linked) (host : Host) (paren : Token) :
    (guardCall host paren).Ends (fun _ _ => True) m := by
  refine (ends_guardDepth host.settings paren).bind hm fun _ after _ _ _ => ?_
  exact ends_checkStack host paren

theorem ends_guardArity (paren : Token) (expected : Nat) (arguments : List Value) :
    (guardArity paren expected arguments).Ends (fun _ _ => True) m := by
  unfold guardArity
  split
  · exact ends_pure trivial
  · exact ends_raise _ _

theorem ends_inFrame {frame : Frame} (hf : frame.Linked m.frames.size)
    (h : run.Ends Q (m.entering frame)) : (inFrame frame run).Ends Q m := by
  unfold Ends at h ⊢
  cases hr : run (m.entering frame) with
  | ok x after =>
    rw [hr] at h
    rw [inFrame_ok hr]
    exact ⟨.frame hf h.1, h.2⟩
  | error e after =>
    rw [hr] at h
    rw [inFrame_error hr]
    exact .frame hf h

theorem ends_inScope (hm : m.Linked) (h : ∀ m, m.Linked → run.Ends Q m) :
    (inScope run).Ends Q m := by
  have hframe : (⟨[], some m.scope⟩ : Frame).Linked m.frames.size :=
    ⟨by simpa using hm.scope, by simp⟩
  exact ends_inFrame hframe (h _ (hm.entering hframe))

theorem ends_inCall (h : run.Ends Q { m with depth := m.depth + 1 }) : (inCall run).Ends Q m := by
  unfold Ends at h ⊢
  cases hr : run { m with depth := m.depth + 1 } with
  | ok x after =>
    rw [hr] at h
    rw [inCall_ok hr]
    exact ⟨.call h.1, h.2⟩
  | error e after =>
    rw [hr] at h
    rw [inCall_error hr]
    exact .call h

end Eval

def Value.Plain : Value → Prop
  | .function _ => False
  | .native _ => False
  | _ => True

theorem Value.Plain.within {value : Value} (h : value.Plain) (size : Nat) : value.Within size := by
  cases value with
  | function f => cases h
  | _ => trivial

theorem Value.plain_ofConstant (value : Constant) : (Value.ofConstant value).Plain := by
  cases value <;> trivial

theorem Value.plain_applyUnary {operator : Token} {operand value : Value}
    (h : Value.applyUnary operator operand = .ok value) : value.Plain := by
  unfold Value.applyUnary at h
  split at h
  · split at h <;> cases h
    trivial
  · cases h
    trivial
  · cases h

theorem Value.plain_applyBinary {operator : Token} {left right value : Value}
    (h : Value.applyBinary operator left right = .ok value) : value.Plain := by
  unfold Value.applyBinary at h
  split at h
  · cases h
    trivial
  · cases h
    trivial
  · split at h <;> cases h <;> trivial
  · split at h
    · cases h
      rename_i apply x y hk
      unfold Value.applyNumeric? at hk
      split at hk <;> cases hk <;> trivial
    · cases h
    · cases h

theorem Builtin.plain_apply {clock : Option Float} {builtin : Builtin} {arguments : List Value}
    {value : Value} (h : builtin.apply clock arguments = .ok value) : value.Plain := by
  cases builtin with
  | str =>
    cases h
    trivial
  | _ =>
    simp only [Builtin.apply] at h
    split at h <;> cases h
    trivial

namespace Natives

/-- Whether the functions of a host keep off the heap: they leave it as it is, and if one of them
returns a function, then it was given this function. -/
structure Detached (natives : Natives) : Prop where
  heap : ∀ code earlier arguments heap, (natives code earlier arguments heap).2 = heap
  result : ∀ {code earlier arguments heap value},
    (natives code earlier arguments heap).1 = .ok value → value.Plain ∨ value ∈ arguments

theorem detached_builtins (clock : Nat → Option Float) : (builtins clock).Detached where
  heap code earlier arguments heap := by
    unfold builtins
    split <;> rfl
  result {code earlier arguments heap value} h := by
    unfold builtins at h
    split at h
    · exact .inl (Builtin.plain_apply h)
    · cases h
      exact .inl trivial

theorem Detached.within {natives : Natives} (h : natives.Detached) {code earlier size : Nat}
    {arguments : List Value} {heap : Heap} {value : Value}
    (hresult : (natives code earlier arguments heap).1 = .ok value)
    (ha : ∀ v ∈ arguments, v.Within size) : value.Within size := by
  rcases h.result hresult with hplain | hmem
  · exact hplain.within size
  · exact ha value hmem

end Natives

/-- A function of the host that leaves the heap as it is leaves only a call that was counted. -/
theorem Eval.applyNative_of_heap {host : Host} {code : Nat} {arguments : List Value} {m : Machine}
    (hheap : (host.natives code m.nativeCalls arguments m.heap).2 = m.heap) (paren : Token) :
    Eval.applyNative host paren code arguments m =
      Eval.settle paren
        ((host.natives code m.nativeCalls arguments m.heap).1.mapError .nativeFailed)
        { m with nativeCalls := m.nativeCalls + 1 } := by
  unfold Eval.applyNative
  generalize host.natives code m.nativeCalls arguments m.heap = answer at hheap ⊢
  obtain ⟨result, heap⟩ := answer
  obtain rfl : heap = m.heap := hheap
  rfl

/-- What a caller does with values that a machine has. -/
def Caller.Ends (call : Caller) : Prop :=
  ∀ callee paren arguments m, m.Linked → callee.Within m.frames.size →
    (∀ v ∈ arguments, v.Within m.frames.size) →
    (call callee paren arguments).Ends (fun v size => v.Within size) m

variable {call : Caller}

mutual

theorem evaluate_ends (host : Host) (hcall : call.Ends) : (e : Expr) → (m : Machine) → m.Linked →
    (evaluate host call e).Ends (fun v size => v.Within size) m
  | .literal value, _, _ => Eval.ends_pure ((Value.plain_ofConstant value).within _)
  | .identifier name, _, hm => Eval.ends_lookUp hm name
  | .grouping inner, m, hm => by
    simpa [evaluate] using evaluate_ends host hcall inner m hm
  | .unary operator operand, m, hm => by
    refine (Eval.ends_checkStack host operator).bind hm fun _ after₁ h₁ _ _ => ?_
    refine (evaluate_ends host hcall operand after₁ h₁).bind h₁ fun value after₂ _ _ _ => ?_
    exact Eval.ends_settle operator fun _ h => (Value.plain_applyUnary h).within _
  | .binary left operator right, m, hm => by
    refine (Eval.ends_checkStack host operator).bind hm fun _ after₁ h₁ _ _ => ?_
    refine (evaluate_ends host hcall left after₁ h₁).bind h₁ fun l after₂ h₂ _ _ => ?_
    refine (evaluate_ends host hcall right after₂ h₂).bind h₂ fun r after₃ _ _ _ => ?_
    exact Eval.ends_settle operator fun _ h => (Value.plain_applyBinary h).within _
  | .logical left operator right, m, hm => by
    refine (Eval.ends_checkStack host operator).bind hm fun _ after₁ h₁ _ _ => ?_
    refine (evaluate_ends host hcall left after₁ h₁).bind h₁ fun l after₂ h₂ _ hl => ?_
    have hdecides : (Eval.settle operator (Value.decides operator l)).Ends
        (fun _ size => l.Within size) after₂ := Eval.ends_settle operator fun _ _ => hl
    refine hdecides.bind h₂ fun decided after₃ h₃ _ hl => ?_
    cases decided with
    | true => exact Eval.ends_pure hl
    | false => exact evaluate_ends host hcall right after₃ h₃
  | .assignment name value, m, hm => by
    refine (Eval.ends_checkStack host name).bind hm fun _ after₁ h₁ _ _ => ?_
    refine (evaluate_ends host hcall value after₁ h₁).bind h₁ fun v after₂ h₂ _ hv => ?_
    refine (Eval.ends_assign name hv).bind h₂ fun _ after₃ _ hsize _ => ?_
    exact Eval.ends_pure (hv.mono hsize)
  | .call callee paren arguments, m, hm => by
    refine (Eval.ends_checkStack host paren).bind hm fun _ after₁ h₁ _ _ => ?_
    refine (evaluate_ends host hcall callee after₁ h₁).bind h₁ fun c after₂ h₂ _ hc => ?_
    refine (evaluateAll_ends host hcall arguments after₂ h₂).bind h₂ fun vs after₃ h₃ hsize hvs => ?_
    exact hcall c paren vs after₃ h₃ (hc.mono hsize) hvs

theorem evaluateAll_ends (host : Host) (hcall : call.Ends) :
    (es : List Expr) → (m : Machine) → m.Linked →
    (evaluateAll host call es).Ends (fun vs size => ∀ v ∈ vs, v.Within size) m
  | [], _, _ => Eval.ends_pure (by simp)
  | e :: es, m, hm => by
    refine (evaluate_ends host hcall e m hm).bind hm fun v after₁ h₁ _ hv => ?_
    refine (evaluateAll_ends host hcall es after₁ h₁).bind h₁ fun vs after₂ _ hsize hvs => ?_
    exact Eval.ends_pure (List.forall_mem_cons.2 ⟨hv.mono hsize, hvs⟩)

end

theorem evaluateOr_ends (host : Host) (hcall : call.Ends) (absent : Value)
    (habsent : ∀ size, absent.Within size) :
    (o : Option Expr) → (m : Machine) → m.Linked →
    (evaluateOr host call absent o).Ends (fun v size => v.Within size) m
  | some e, m, hm => evaluate_ends host hcall e m hm
  | none, _, _ => Eval.ends_pure (habsent _)

def Flow.Within (size : Nat) : Flow → Prop
  | .normal => True
  | .returning value => value.Within size

theorem runLoop_ends (limit : Nat) (keyword : Token) {condition : Eval Bool} {body : Eval Flow}
    {increment : Eval Unit} (hcondition : ∀ m, m.Linked → condition.Ends (fun _ _ => True) m)
    (hbody : ∀ m, m.Linked → body.Ends (fun flow size => flow.Within size) m)
    (hincrement : ∀ m, m.Linked → increment.Ends (fun _ _ => True) m) :
    (rounds : Nat) → (m : Machine) → m.Linked →
    (runLoop limit keyword condition body increment rounds).Ends
      (fun flow size => flow.Within size) m
  | 0, m, hm => by
    refine (hcondition m hm).bind hm fun holds after _ _ _ => ?_
    cases holds with
    | true => exact Eval.ends_raise _ _
    | false => exact Eval.ends_pure trivial
  | rounds + 1, m, hm => by
    refine (hcondition m hm).bind hm fun holds after₁ h₁ _ _ => ?_
    cases holds with
    | false => exact Eval.ends_pure trivial
    | true =>
      refine (hbody after₁ h₁).bind h₁ fun flow after₂ h₂ _ hflow => ?_
      cases flow with
      | returning value => exact Eval.ends_pure hflow
      | normal =>
        refine (hincrement after₂ h₂).bind h₂ fun _ after₃ h₃ _ _ => ?_
        exact runLoop_ends limit keyword hcondition hbody hincrement rounds after₃ h₃

def executeIfAny (host : Host) (call : Caller) : Option Stmt → Eval Flow
  | some s => execute host call s
  | none => pure .normal

theorem execute_conditional (host : Host) (call : Caller) (condition : Expr)
    (thenBranch : Stmt) (elseBranch : Option Stmt) :
    execute host call (.conditional condition thenBranch elseBranch) = (do
      if (← evaluate host call condition).isTruthy then execute host call thenBranch
      else executeIfAny host call elseBranch : Eval Flow) := by
  cases elseBranch <;> simp only [execute, executeIfAny]

theorem execute_forLoop (host : Host) (call : Caller) (keyword : Token)
    (initializer : Option Stmt) (condition increment : Option Expr) (body : Stmt) :
    execute host call (.forLoop keyword initializer condition increment body) = (do
      Eval.checkStack host keyword
      Eval.inScope do
        discard (executeIfAny host call initializer)
        runLoop host.settings.roundLimit keyword
          (Value.isTruthy <$> evaluateOr host call (.boolean true) condition)
          (execute host call body) (discard (evaluateOr host call .nil increment))
          host.settings.roundLimit : Eval Flow) := by
  cases initializer <;> simp only [execute, executeIfAny]
  rfl

mutual

theorem execute_ends (host : Host) (hcall : call.Ends) : (s : Stmt) → (m : Machine) →
    m.Linked → (execute host call s).Ends (fun flow size => flow.Within size) m
  | .expression value, m, hm => by
    refine ((evaluate_ends host hcall value m hm).discard).bind hm fun _ after _ _ _ => ?_
    exact Eval.ends_pure trivial
  | .print keyword value, m, hm => by
    refine (evaluate_ends host hcall value m hm).bind hm fun v after₁ h₁ _ _ => ?_
    refine (Eval.ends_write keyword _).bind h₁ fun _ after₂ _ _ _ => ?_
    exact Eval.ends_pure trivial
  | .block body, m, hm => by
    simp only [execute]
    exact Eval.ends_inScope hm (executeAll_ends host hcall body)
  | .conditional condition thenBranch elseBranch, m, hm => by
    rw [execute_conditional]
    refine (evaluate_ends host hcall condition m hm).bind hm fun v after h _ _ => ?_
    cases v.isTruthy with
    | true => exact execute_ends host hcall thenBranch after h
    | false => exact executeIfAny_ends host hcall elseBranch after h
  | .whileLoop keyword condition body, m, hm => by
    simp only [execute]
    refine (Eval.ends_checkStack host keyword).bind hm fun _ after h _ _ => ?_
    refine runLoop_ends _ keyword (fun m hm => ?_) (execute_ends host hcall body)
      (fun _ _ => Eval.ends_pure trivial) _ after h
    exact (evaluate_ends host hcall condition m hm).map fun _ _ _ => trivial
  | .forLoop keyword initializer condition increment body, m, hm => by
    have hloop := runLoop_ends host.settings.roundLimit keyword
      (fun m hm => (evaluateOr_ends host hcall (.boolean true) (fun _ => trivial) condition m hm).map
        (f := Value.isTruthy) fun _ _ _ => trivial)
      (execute_ends host hcall body)
      (fun m hm => (evaluateOr_ends host hcall .nil (fun _ => trivial) increment m hm).discard)
    rw [execute_forLoop]
    refine (Eval.ends_checkStack host keyword).bind hm fun _ after h _ _ => ?_
    refine Eval.ends_inScope h fun m hm => ?_
    refine ((executeIfAny_ends host hcall initializer m hm).discard).bind hm
      fun _ after h _ _ => ?_
    exact hloop _ after h
  | .variableDecl name initializer constant, m, hm => by
    refine (Eval.ends_guardBuiltin host.settings name).bind hm fun _ after₁ h₁ _ _ => ?_
    refine (evaluateOr_ends host hcall .nil (fun _ => trivial) initializer after₁ h₁).bind h₁
      fun v after₂ h₂ _ hv => ?_
    refine (Eval.ends_define name hv).bind h₂ fun _ after₃ _ _ _ => ?_
    exact Eval.ends_pure trivial
  | .functionDecl name parameters body, m, hm => by
    refine (Eval.ends_guardBuiltin host.settings name).bind hm fun _ after₁ h₁ _ _ => ?_
    refine (Eval.ends_makeClosure h₁ name parameters body).bind h₁ fun v after₂ h₂ _ hv => ?_
    refine (Eval.ends_define name hv).bind h₂ fun _ after₃ _ _ _ => ?_
    exact Eval.ends_pure trivial
  | .returnStmt _ value, m, hm => by
    simp only [execute]
    exact (evaluateOr_ends host hcall .nil (fun _ => trivial) value m hm).map fun _ _ hv => hv

theorem executeIfAny_ends (host : Host) (hcall : call.Ends) : (o : Option Stmt) →
    (m : Machine) → m.Linked →
    (executeIfAny host call o).Ends (fun flow size => flow.Within size) m
  | some s, m, hm => execute_ends host hcall s m hm
  | none, _, _ => Eval.ends_pure trivial

theorem executeAll_ends (host : Host) (hcall : call.Ends) : (ss : List Stmt) →
    (m : Machine) → m.Linked →
    (executeAll host call ss).Ends (fun flow size => flow.Within size) m
  | [], _, _ => Eval.ends_pure trivial
  | s :: ss, m, hm => by
    refine (execute_ends host hcall s m hm).bind hm fun flow after h _ hflow => ?_
    cases flow with
    | returning value => exact Eval.ends_pure hflow
    | normal => exact executeAll_ends host hcall ss after h

end

theorem Eval.ends_applyNative {host : Host} (detached : host.natives.Detached) (paren : Token)
    (code : Nat) {arguments : List Value} {m : Machine}
    (ha : ∀ v ∈ arguments, v.Within m.frames.size) :
    (Eval.applyNative host paren code arguments).Ends (fun v size => v.Within size) m := by
  unfold Eval.Ends
  rw [Eval.applyNative_of_heap (detached.heap ..)]
  cases hresult : (host.natives code m.nativeCalls arguments m.heap).1 with
  | ok value => exact ⟨.native m, detached.within hresult ha⟩
  | error message => exact .native m

def Closure.frame (f : Closure) (arguments : List Value) : Frame :=
  Frame.defineAll ⟨[], some f.scope⟩ (f.parameters.map Token.lexeme) arguments

theorem Closure.linked_frame {f : Closure} {size : Nat} (hf : f.scope < size)
    {arguments : List Value} (ha : ∀ v ∈ arguments, v.Within size) :
    (f.frame arguments).Linked size :=
  Frame.linked_defineAll ⟨by simpa using hf, by simp⟩ ha

def Flow.value : Flow → Value
  | .returning value => value
  | .normal => .nil

theorem Flow.Within.value {size : Nat} {flow : Flow} (h : flow.Within size) :
    flow.value.Within size := by
  cases flow with
  | normal => trivial
  | returning value => exact h

section Calls

variable (host : Host) (paren : Token) (arguments : List Value)

theorem callValue_function (calls : Nat) (f : Closure) :
    callValue host (calls + 1) (.function f) paren arguments = (do
      guardArity paren f.parameters.length arguments
      Eval.guardCall host paren
      let flow ← Eval.inCall (Eval.inFrame (f.frame arguments)
        (executeAll host (callValue host calls) f.body))
      pure flow.value : Eval Value) := by
  simp only [callValue, Closure.frame]
  congr 1
  funext _
  congr 1
  funext _
  congr 1
  funext flow
  cases flow <;> rfl

theorem callValue_native (calls : Nat) (f : Native) :
    callValue host calls (.native f) paren arguments = (do
      guardArity paren f.arity arguments
      Eval.guardCall host paren
      Eval.inCall (Eval.applyNative host paren f.code arguments) : Eval Value) := by
  cases calls <;> rfl

end Calls

/-- Calls do to a machine what runs can do, however many of them may nest. -/
theorem callValue_ends {host : Host} (detached : host.natives.Detached) : (calls : Nat) →
    (callValue host calls).Ends
  | calls, .native f, paren, arguments, m, hm, _, ha => by
    rw [callValue_native]
    refine (Eval.ends_guardArity paren _ arguments).bind hm fun _ after₁ h₁ hsize₁ _ => ?_
    refine (Eval.ends_guardCall h₁ host paren).bind h₁ fun _ after₂ _ hsize₂ _ => ?_
    refine Eval.ends_inCall (Eval.ends_applyNative detached paren f.code fun v hv => ?_)
    exact (ha v hv).mono (Nat.le_trans hsize₁ hsize₂)
  | 0, .function f, paren, arguments, m, hm, _, _ => by
    refine (Eval.ends_guardArity paren _ arguments).bind hm fun _ after₁ h₁ _ _ => ?_
    refine (Eval.ends_guardCall h₁ host paren).bind h₁ fun _ after₂ _ _ _ => ?_
    exact Eval.ends_raise _ _
  | calls + 1, .function f, paren, arguments, m, hm, hf, ha => by
    rw [callValue_function]
    refine (Eval.ends_guardArity paren _ arguments).bind hm fun _ after₁ h₁ hsize₁ _ => ?_
    refine (Eval.ends_guardCall h₁ host paren).bind h₁ fun _ after₂ h₂ hsize₂ _ => ?_
    have hsize := Nat.le_trans hsize₁ hsize₂
    have hframe : (f.frame arguments).Linked after₂.frames.size :=
      f.linked_frame (Nat.lt_of_lt_of_le hf hsize) fun v hv => (ha v hv).mono hsize
    have hcalled : ({ after₂ with depth := after₂.depth + 1 } : Machine).Linked :=
      ⟨h₂.scope, h₂.frames⟩
    have hbody := executeAll_ends host (callValue_ends detached calls) f.body _
      (hcalled.entering hframe)
    refine (Eval.ends_inCall (Eval.ends_inFrame hframe hbody)).bind h₂
      fun flow after _ _ hflow => ?_
    exact Eval.ends_pure hflow.value
  | calls, .nil, _, _, _, _, _, _ => by cases calls <;> exact Eval.ends_raise _ _
  | calls, .boolean _, _, _, _, _, _, _ => by cases calls <;> exact Eval.ends_raise _ _
  | calls, .number _, _, _, _, _, _, _ => by cases calls <;> exact Eval.ends_raise _ _
  | calls, .string _, _, _, _, _, _, _ => by cases calls <;> exact Eval.ends_raise _ _

end Scriptlet
