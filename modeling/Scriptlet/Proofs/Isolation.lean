import Scriptlet.Proofs.Lockstep
import Scriptlet.Proofs.RenamedTrees
import Scriptlet.Proofs.Restoration

/-!
Calls are isolated. What a call does depends only on the frames that can be got at from the function
and its arguments, and on how much stack is left: on two machines that have these in common it gives
the same result and prints the same, whatever else they hold, and it changes none of the other
frames. New frames and functions get the next numbers of each machine, so they are the same up to
names.
-/

namespace Scriptlet

/-- The frames that can be got at from values: those of functions, those around others, and those of
functions that are stored in others. -/
inductive Frames.Reach (frames : Frames) (held : List Value) : FrameId → Prop where
  | held {f : Closure} (mem : Value.function f ∈ held) : Reach frames held f.scope
  | around {id next : FrameId} {frame : Frame} (inner : Reach frames held id)
      (found : frames.frame? id = some frame) (enclosed : frame.enclosing = some next) :
      Reach frames held next
  | stored {id : FrameId} {frame : Frame} {entry : String × Binding} {f : Closure}
      (inner : Reach frames held id) (found : frames.frame? id = some frame)
      (mem : entry ∈ frame.bindings) (function : entry.2.value = .function f) :
      Reach frames held f.scope

/-- The values that can be got at: those held and those stored in frames that can be got at. -/
inductive Frames.Gives (frames : Frames) (held : List Value) : Value → Prop where
  | held {v : Value} (mem : v ∈ held) : Gives frames held v
  | stored {id : FrameId} {frame : Frame} {entry : String × Binding}
      (reach : frames.Reach held id) (found : frames.frame? id = some frame)
      (mem : entry ∈ frame.bindings) : Gives frames held entry.2.value

/-- Two machines that have in common what can be got at from some values. Identities are given out
in order, so functions that are there have smaller ones than functions to come. -/
structure Machine.Shares (m m' : Machine) (held : List Value) : Prop where
  frames : ∀ id, m.frames.Reach held id →
    ∃ frame, m.frames.frame? id = some frame ∧ m'.frames.frame? id = some frame
  older : ∀ v, m.frames.Gives held v → ∀ i ∈ v.identity?, i < m.nextIdentity ∧ i < m'.nextIdentity
  globals : Machine.globals < m.frames.size ∧ Machine.globals < m'.frames.size

/-- Numbers that were given out stay, and those from `next` on are counted on from `next'`. -/
def renumber (next next' n : Nat) : Nat := if n < next then n else next' + (n - next)

theorem renumber_of_lt {next next' n : Nat} (h : n < next) : renumber next next' n = n := if_pos h

@[simp] theorem renumber_add (next next' k : Nat) : renumber next next' (next + k) = next' + k := by
  simp [renumber]

theorem renumber_injOn (next next' : Nat) :
    Set.InjOn (renumber next next') { n | n < next ∧ n < next' ∨ next ≤ n } := by
  intro a ha b hb heq
  simp only [Set.mem_ofPred_eq] at ha hb
  simp only [renumber] at heq
  split at heq <;> split at heq <;> omega

/-- Where `m'` has what a run makes on `m`. -/
def Machine.namesIn (m m' : Machine) : Renaming where
  place t := t.position
  grouped := true
  frame := renumber m.frames.size m'.frames.size
  identity := renumber m.nextIdentity m'.nextIdentity

/-- Whether two runs give the same value up to names, or the same error. -/
inductive Renaming.SameResult (r : Renaming) :
    EStateM.Result RuntimeError Machine Value → EStateM.Result RuntimeError Machine Value → Prop where
  | value (v : Value) (m m' : Machine) : SameResult r (.ok v m) (.ok (v.rename r) m')
  | error (e : RuntimeError) (m m' : Machine) : SameResult r (.error e m) (.error e m')

section Names

variable {m m' : Machine} {held : List Value}

theorem Machine.stays_namesIn (m m' : Machine) (slots : List Slot) :
    Each (Slot.Stays (m.namesIn m')) slots := by
  intro slot _
  cases slot with
  | token kept => exact (rfl : (m.namesIn m').token kept = kept)
  | _ => trivial

theorem Frames.Gives.reach {frames : Frames} {v : Value} (h : frames.Gives held v) :
    ∀ id ∈ v.scope?, frames.Reach held id := by
  intro id hid
  cases h with
  | held mem =>
    cases v with
    | function f =>
      cases hid
      exact .held mem
    | _ => cases hid
  | @stored inner frame entry reach found mem =>
    cases hv : entry.2.value with
    | function f =>
      rw [hv] at hid
      cases hid
      exact .stored reach found mem hv
    | _ => simp [hv, Value.scope?] at hid

namespace Machine.Shares

theorem lt_size (h : m.Shares m' held) {id : FrameId} (hid : m.frames.Reach held id) :
    id < m.frames.size ∧ id < m'.frames.size := by
  obtain ⟨frame, hleft, hright⟩ := h.frames id hid
  exact ⟨Frames.frame?_eq_some_lt hleft, Frames.frame?_eq_some_lt hright⟩

theorem reach (h : m.Shares m' held) {id : FrameId} (hid : m.frames.Reach held id) :
    m'.frames.Reach held id := by
  have hfound : ∀ {id frame}, m.frames.Reach held id → m.frames.frame? id = some frame →
      m'.frames.frame? id = some frame := by
    intro id frame hreach hframe
    obtain ⟨shared, hleft, hright⟩ := h.frames id hreach
    rwa [← hleft.symm.trans hframe]
  induction hid with
  | held mem => exact .held mem
  | around inner found enclosed ih => exact .around ih (hfound inner found) enclosed
  | stored inner found mem function ih => exact .stored ih (hfound inner found) mem function

theorem frame_reached (h : m.Shares m' held) {id : FrameId} (hid : m.frames.Reach held id) :
    (m.namesIn m').frame id = id := renumber_of_lt (h.lt_size hid).1

theorem rename_value (h : m.Shares m' held) {v : Value} (hv : m.frames.Gives held v) :
    v.rename (m.namesIn m') = v :=
  Value.rename_self rfl (m.stays_namesIn m' _) (fun id hid => h.frame_reached (hv.reach id hid))
    fun i hi => renumber_of_lt (h.older v hv i hi).1

theorem rename_frame (h : m.Shares m' held) {id : FrameId} (hid : m.frames.Reach held id)
    {frame : Frame} (hframe : m.frames.frame? id = some frame) :
    frame.rename (m.namesIn m') = frame :=
  Frame.rename_self (fun _ he => h.rename_value (.stored hid hframe he))
    fun _ hn => h.frame_reached (.around hid hframe hn)

variable {host host' : Host}

def pairing (h : m.Shares m' held) (functional : host.natives.Functional)
    (serves : host.ServesAlike host' m m') (holds : host.HoldsAlike host' m m') : Pairing where
  names := m.namesIn m'
  left := m
  right := m'
  leftHost := host
  rightHost := host'
  reached := { id | m.frames.Reach held id ∨ m.frames.size ≤ id }
  entered := { id | m.frames.size ≤ id }
  met := { i | i < m.nextIdentity ∧ i < m'.nextIdentity ∨ m.nextIdentity ≤ i }
  frame_injOn := (renumber_injOn _ _).mono fun _ hid => hid.imp_left h.lt_size
  identity_injOn := renumber_injOn _ _
  entered_subset := fun _ hid => .inr hid
  reserved_iff := by
    -- no frame to come is the one of global names
    rintro id hid name
    obtain ⟨k, rfl⟩ := Nat.exists_eq_add_of_le hid
    have hleft : m.frames.size + k ≠ Machine.globals := Nat.ne_of_gt (Nat.lt_add_right k h.globals.1)
    have hright : (m.namesIn m').frame (m.frames.size + k) ≠ Machine.globals := by
      simp only [namesIn, renumber_add]
      exact Nat.ne_of_gt (Nat.lt_add_right k h.globals.2)
    exact iff_of_false (fun heq => hleft heq.1) fun heq => hright heq.1
  detached := functional.toDetached
  respects := functional.respects ⟨rfl, rfl⟩
  serves := serves
  holds := holds

variable (functional : host.natives.Functional) (serves : host.ServesAlike host' m m')
  (holds : host.HoldsAlike host' m m')

theorem inside_value (h : m.Shares m' held) {v : Value} (hv : m.frames.Gives held v) :
    v.Inside (h.pairing functional serves holds) := by
  cases v with
  | function f => exact ⟨.inl (hv.reach f.scope rfl), .inl (h.older _ hv _ rfl)⟩
  | native f => exact .inl (h.older _ hv _ rfl)
  | _ => trivial

theorem stores (h : m.Shares m' held) :
    (h.pairing functional serves holds).Stores m.frames m'.frames := by
  have hnone : ∀ (frames : Frames) k, frames.frame? (frames.size + k) = none := by
    intro frames k
    simp [Frames.frame?, Frames.size]
  refine ⟨fun k => ⟨Nat.le_add_right _ k, renumber_add _ _ k⟩, ?_, ?_, fun _ _ => rfl,
    fun _ _ => rfl⟩
  · rintro id (hid | hid)
    · obtain ⟨frame, hleft, hright⟩ := h.frames id hid
      have hname : (m.namesIn m').frame id = id := h.frame_reached hid
      change m'.frames.frame? ((m.namesIn m').frame id) = _
      rw [hname, hleft, hright, Option.map_some]
      exact congrArg some (h.rename_frame hid hleft).symm
    · obtain ⟨k, rfl⟩ := Nat.exists_eq_add_of_le hid
      have hname : (m.namesIn m').frame (m.frames.size + k) = m'.frames.size + k :=
        renumber_add _ _ k
      change m'.frames.frame? ((m.namesIn m').frame (m.frames.size + k)) = _
      rw [hname, hnone, hnone]
      rfl
  · rintro id (hid | hid) frame hframe
    · exact ⟨fun next hnext => .inl (.around hid hframe hnext),
        fun entry he => h.inside_value functional serves holds (.stored hid hframe he)⟩
    · obtain ⟨k, rfl⟩ := Nat.exists_eq_add_of_le hid
      rw [hnone] at hframe
      cases hframe

theorem starts (h : m.Shares m' held) (hdepth : m'.depth = m.depth)
    (houtput : m'.output = m.output) :
    (h.pairing functional serves holds).Matches { m with scope := m.frames.size }
      { m' with scope := m'.frames.size } where
  stores := h.stores functional serves holds
  scope := ⟨Nat.le_refl _, (renumber_add _ _ 0).symm⟩
  depth := hdepth
  watched := ⟨rfl, rfl⟩
  leftReserved := rfl
  rightReserved := rfl
  identities := fun k => ⟨.inr (Nat.le_add_right _ k), renumber_add _ _ k⟩
  calls := ⟨0, rfl, rfl⟩
  checks := ⟨0, rfl, rfl⟩
  output := houtput

end Machine.Shares

end Names

namespace Eval

variable {α β : Type} {run : Eval α}

/-- Whether a run is the same in whatever scope it is made. -/
def ScopeFree (run : Eval α) : Prop := ∀ scope, inside scope run = run

theorem inside_ok {scope : FrameId} {m after : Machine} {x : α}
    (h : run { m with scope } = .ok x after) :
    inside scope run m = .ok x { after with scope := m.scope } := by
  simp only [inside, h]

theorem inside_error {scope : FrameId} {m after : Machine} {e : RuntimeError}
    (h : run { m with scope } = .error e after) :
    inside scope run m = .error e { after with scope := m.scope } := by
  simp only [inside, h]

theorem ScopeFree.bind {next : α → Eval β} (h : run.ScopeFree) (k : ∀ x, (next x).ScopeFree) :
    (run >>= next).ScopeFree := by
  intro scope
  funext m
  have hrun := congrFun (h scope) m
  cases hr : run { m with scope } with
  | error e after =>
    rw [inside_error hr] at hrun
    rw [inside_error (bind_error hr), bind_error hrun.symm]
  | ok x after =>
    rw [inside_ok hr] at hrun
    -- the rest of the run may change its scope too, from the one it is given to the outer one
    have hnext := congrFun (k x after.scope) { after with scope := m.scope }
    rw [bind_ok hrun.symm, ← hnext]
    unfold inside
    dsimp only
    rw [bind_ok hr]

theorem ScopeFree.inCall (h : run.ScopeFree) : (inCall run).ScopeFree := by
  intro scope
  funext m
  have hrun := congrFun (h scope) { m with depth := m.depth + 1 }
  cases hr : run { m with depth := m.depth + 1, scope } with
  | ok x after =>
    rw [inside_ok hr] at hrun
    rw [inside_ok (inCall_ok hr), inCall_ok hrun.symm]
  | error e after =>
    rw [inside_error hr] at hrun
    rw [inside_error (inCall_error hr), inCall_error hrun.symm]

theorem scopeFree_inFrame (frame : Frame) (run : Eval α) : (inFrame frame run).ScopeFree := by
  intro scope
  funext m
  -- the frame that is entered hides the scope around the run
  have hentering : ({ m with scope } : Machine).entering frame = m.entering frame := rfl
  cases hr : run (m.entering frame) with
  | ok x after => rw [inFrame_ok hr, inside_ok (inFrame_ok (hentering ▸ hr))]
  | error e after => rw [inFrame_error hr, inside_error (inFrame_error (hentering ▸ hr))]

theorem scopeFree_pure (x : α) : (pure x : Eval α).ScopeFree := fun _ => rfl

theorem scopeFree_raise (fault : Fault) (token : Token) : (raise fault token : Eval α).ScopeFree :=
  fun _ => rfl

theorem scopeFree_guardArity (paren : Token) (expected : Nat) (arguments : List Value) :
    (guardArity paren expected arguments).ScopeFree := by
  unfold guardArity
  split
  · exact scopeFree_pure ()
  · exact scopeFree_raise _ paren

theorem scopeFree_guardCall (host : Host) (paren : Token) : (guardCall host paren).ScopeFree := by
  have hdepth : (guardDepth host.settings paren).ScopeFree := by
    intro scope
    funext m
    by_cases hfull : host.settings.maxCallDepth.toNat ≤ m.depth
    · simp only [inside, guardDepth, if_pos hfull]
    · simp only [inside, guardDepth, if_neg hfull]
  refine hdepth.bind fun _ scope => ?_
  funext m
  cases hholds : !m.watched || host.stack m.stackChecks m.depth with
  | true => simp only [inside, checkStack, hholds, if_true]
  | false => simp only [inside, checkStack, hholds, Bool.false_eq_true, if_false]

theorem scopeFree_applyNative (host : Host) (paren : Token) (code : Nat) (arguments : List Value) :
    (applyNative host paren code arguments).ScopeFree := by
  intro scope
  funext m
  simp only [inside, applyNative, Machine.heap]
  cases (host.natives code m.nativeCalls arguments ⟨m.frames, m.nextIdentity⟩).1 <;> rfl

end Eval

open Eval in
/-- A call does not look at the scope that it is made in. -/
theorem callValue_scopeFree (host : Host) (calls : Nat) (callee : Value) (paren : Token)
    (arguments : List Value) : (callValue host calls callee paren arguments).ScopeFree := by
  cases callee with
  | native f =>
    rw [callValue_native]
    refine (scopeFree_guardArity _ _ _).bind fun _ => (scopeFree_guardCall _ _).bind fun _ => ?_
    exact (scopeFree_applyNative _ _ _ _).inCall
  | function f =>
    cases calls with
    | zero =>
      refine (scopeFree_guardArity _ _ _).bind fun _ => (scopeFree_guardCall _ _).bind fun _ => ?_
      exact scopeFree_raise _ paren
    | succ calls =>
      rw [callValue_function]
      refine (scopeFree_guardArity _ _ _).bind fun _ => (scopeFree_guardCall _ _).bind fun _ => ?_
      exact (scopeFree_inFrame _ _).inCall.bind fun flow => scopeFree_pure flow.value
  | _ => cases calls <;> exact scopeFree_raise _ paren

section Calls

variable {m m' : Machine} {f : Value} {arguments : List Value} {host host' : Host}
  (functional : host.natives.Functional) (serves : host.ServesAlike host' m m')
  (holds : host.HoldsAlike host' m m')

theorem Machine.Shares.call_ends (h : m.Shares m' (f :: arguments)) (calls : Nat) (paren : Token)
    (hdepth : m'.depth = m.depth) (houtput : m'.output = m.output) :
    (h.pairing functional serves holds).SameEnd (h.pairing functional serves holds).Values
      (callValue host calls f paren arguments { m with scope := m.frames.size })
      (callValue host' calls f paren arguments { m' with scope := m'.frames.size }) := by
  have hheld : ∀ v ∈ f :: arguments, m.frames.Gives (f :: arguments) v := fun _ => .held
  obtain ⟨hf, harguments⟩ := List.forall_mem_cons.1 hheld
  have hcall := callValue_aligned (h.pairing functional serves holds) calls f paren arguments
    (h.inside_value functional serves holds hf)
    fun v hv => h.inside_value functional serves holds (harguments v hv)
  have hsame : arguments.map (Value.rename (m.namesIn m')) = arguments :=
    (List.map_congr_left fun v hv => h.rename_value (harguments v hv)).trans (List.map_id _)
  have hends := hcall _ _ (h.starts functional serves holds hdepth houtput)
  change Pairing.SameEnd _ _ _ (callValue _ _ (f.rename (m.namesIn m')) paren
    (arguments.map (Value.rename (m.namesIn m'))) _) at hends
  rwa [h.rename_value hf, hsame] at hends

theorem Machine.Shares.call_results (h : m.Shares m' (f :: arguments)) (calls : Nat) (paren : Token)
    (hdepth : m'.depth = m.depth) (houtput : m'.output = m.output) :
    let run := callValue host calls f paren arguments
    let run' := callValue host' calls f paren arguments
    (m.namesIn m').SameResult (run m) (run' m') ∧
      ∃ after after', (h.pairing functional serves holds).Matches after after' ∧
        run.after m = { after with scope := m.scope } ∧
        run'.after m' = { after' with scope := m'.scope } := by
  intro run run'
  have hleft : run.inside m.frames.size m = run m :=
    congrFun (callValue_scopeFree _ calls f paren arguments _) m
  have hright : run'.inside m'.frames.size m' = run' m' :=
    congrFun (callValue_scopeFree _ calls f paren arguments _) m'
  have hends : (h.pairing functional serves holds).SameEnd _ (run { m with scope := m.frames.size })
      (run' { m' with scope := m'.frames.size }) :=
    h.call_ends functional serves holds calls paren hdepth houtput
  generalize hr : run { m with scope := m.frames.size } = result at hends
  generalize hr' : run' { m' with scope := m'.frames.size } = result' at hends
  cases hends with
  | @ok v _ after after' hvalue hmatch =>
    obtain ⟨rfl, _⟩ := hvalue
    rw [Eval.inside_ok hr] at hleft
    rw [Eval.inside_ok hr'] at hright
    rw [Eval.after_ok hleft.symm, Eval.after_ok hright.symm, ← hleft, ← hright]
    exact ⟨.value v _ _, after, after', hmatch, rfl, rfl⟩
  | @error e after after' hmatch =>
    rw [Eval.inside_error hr] at hleft
    rw [Eval.inside_error hr'] at hright
    rw [Eval.after_error hleft.symm, Eval.after_error hright.symm, ← hleft, ← hright]
    exact ⟨.error e _ _, after, after', hmatch, rfl, rfl⟩

end Calls

/-- On machines that have in common what can be got at from a function and its arguments, and where
every check of the stack is answered alike, a call gives the same result, prints the same and leaves
the same in the frames that can be got at and in the new ones, up to the names of what is new. All
other frames stay as they were. The machines may differ in everything else: scope, frames, reserved
names and how many frames and functions they have made. The functions of the host are functions of
their arguments. -/
theorem calls_isolated (host host' : Host) (functional : host.natives.Functional) (calls : Nat)
    (f : Value) (paren : Token) (arguments : List Value) (m m' : Machine)
    (shared : m.Shares m' (f :: arguments)) (depth : m'.depth = m.depth)
    (output : m'.output = m.output) (serves : host.ServesAlike host' m m')
    (holds : host.HoldsAlike host' m m') :
    let names := m.namesIn m'
    let run := callValue host calls f paren arguments
    let run' := callValue host' calls f paren arguments
    names.SameResult (run m) (run' m') ∧ (run'.after m').output = (run.after m).output ∧
    (∀ id, m.frames.Reach (f :: arguments) id ∨ m.frames.size ≤ id →
      (run'.after m').frames.frame? (names.frame id) =
        ((run.after m).frames.frame? id).map (Frame.rename names)) ∧
    (∀ id < m.frames.size, ¬m.frames.Reach (f :: arguments) id →
      (run.after m).frames.frame? id = m.frames.frame? id) ∧
    ∀ id < m'.frames.size, ¬m'.frames.Reach (f :: arguments) id →
      (run'.after m').frames.frame? id = m'.frames.frame? id := by
  intro names run run'
  obtain ⟨hresult, after, after', hmatch, hafter, hafter'⟩ : names.SameResult (run m) (run' m') ∧
      ∃ after after', (shared.pairing functional serves holds).Matches after after' ∧
        run.after m = { after with scope := m.scope } ∧
        run'.after m' = { after' with scope := m'.scope } :=
    shared.call_results functional serves holds calls paren depth output
  have hstores := hmatch.stores
  rw [hafter, hafter']
  refine ⟨hresult, hmatch.output, hstores.same, fun id hlt hunreached => ?_,
    fun id hlt hunreached => ?_⟩
  · refine hstores.leftApart id ?_
    rintro (hreached | hnew)
    · exact hunreached hreached
    · exact Nat.not_lt.2 hnew hlt
  · refine hstores.rightApart id ?_
    rintro ⟨other, hreached | hnew, hname⟩
    · obtain rfl : other = id := (shared.frame_reached hreached).symm.trans hname
      exact hunreached (shared.reach hreached)
    · obtain ⟨k, rfl⟩ := Nat.exists_eq_add_of_le hnew
      have hlater : m'.frames.size + k = id := (renumber_add _ _ k).symm.trans hname
      omega

/-- A function that changes a variable of its own and gives another function that sees it. On the
second machine it is called from a scope with a variable of the same name, which stays as it was. -/
theorem calls_isolated_own_variable :
    let word (lexeme : String) : Token := ⟨.identifier, lexeme, none, ⟨1, 1⟩⟩
    let peek : Stmt :=
      .functionDecl (word "peek") [] [.returnStmt (word "return") (some (.identifier (word "n")))]
    let body : List Stmt :=
      [.expression (.assignment (word "n") (.literal (.boolean true))), peek,
        .returnStmt (word "return") (some (.identifier (word "peek")))]
    let f : Value := .function ⟨0, word "f", [], body, 1⟩
    let frames := (Frames.empty.push ⟨[], none⟩).push ⟨[("n", ⟨.nil, false⟩)], some Machine.globals⟩
    let m : Machine :=
      { Machine.fresh (.empty none) with frames, watched := true, nextIdentity := 1 }
    let m' : Machine := { m with
      frames := frames.push ⟨[("n", ⟨.string "other", false⟩)], some Machine.globals⟩
      scope := 2
      reserved := ["n"]
      nextIdentity := 7
      nativeCalls := 3
      stackChecks := 5 }
    let host := Host.standard {} fun _ => none
    let call := host.call f (word ")") []
    host.natives.Functional ∧ m.Shares m' [f] ∧ host.ServesAlike host m m' ∧
      host.HoldsAlike host m m' ∧ (m.namesIn m').SameResult (call m) (call m') ∧
      (call.after m').frames.frame? 1 =
        ((call.after m).frames.frame? 1).map (Frame.rename (m.namesIn m')) ∧
      (call.after m').frames.frame? 3 =
        ((call.after m).frames.frame? 2).map (Frame.rename (m.namesIn m')) ∧
      (call.after m').frames.frame? 2 = m'.frames.frame? 2 := by
  intro word peek body f frames m m' host call
  have hreach : ∀ machine ∈ [m, m'], ∀ id, machine.frames.Reach [f] id → id = 0 ∨ id = 1 := by
    intro machine hmachine id hid
    have hfirst : machine.frames.frame? 0 = some ⟨[], none⟩ := by
      rcases List.mem_pair.1 hmachine with rfl | rfl <;> rfl
    have hsecond : machine.frames.frame? 1 =
        some ⟨[("n", ⟨.nil, false⟩)], some Machine.globals⟩ := by
      rcases List.mem_pair.1 hmachine with rfl | rfl <;> rfl
    induction hid with
    | held mem => exact .inr (congrArg Closure.scope (Value.function.inj (List.mem_singleton.1 mem)))
    | around _ found enclosed ih =>
      rcases ih with rfl | rfl
      · cases hfirst.symm.trans found
        cases enclosed
      · cases hsecond.symm.trans found
        cases enclosed
        exact .inl rfl
    | stored _ found mem function ih =>
      rcases ih with rfl | rfl
      · cases hfirst.symm.trans found
        cases mem
      · cases hsecond.symm.trans found
        cases List.mem_singleton.1 mem
        cases function
  have hshares : m.Shares m' [f] := by
    refine ⟨fun id hid => ?_, fun v hv i hi => ?_, by decide, by decide⟩
    · rcases hreach m (by simp) id hid with rfl | rfl <;> exact ⟨_, rfl, rfl⟩
    · cases hv with
      | held mem =>
        rw [List.mem_singleton.1 mem] at hi
        cases hi
        decide
      | stored reach found mem =>
        rcases hreach m (by simp) _ reach with rfl | rfl
        · cases found
          cases mem
        · cases found
          cases List.mem_singleton.1 mem
          cases hi
  have hfunctional : host.natives.Functional := (Natives.blind_builtins _).functional
  have hserves : host.ServesAlike host m m' := ⟨rfl, fun _ _ => rfl⟩
  have hholds : host.HoldsAlike host m m' := ⟨rfl, fun _ _ _ => rfl⟩
  obtain ⟨hresult, _, hsame, _, hapart⟩ := calls_isolated host host hfunctional
    host.settings.maxCallDepth.toNat f (word ")") [] m m' hshares rfl rfl hserves hholds
  have hunreached : ¬m'.frames.Reach [f] 2 := by
    intro hreached
    rcases hreach m' (by simp) 2 hreached with h | h <;> cases h
  exact ⟨hfunctional, hshares, hserves, hholds, hresult,
    hsame 1 (.inl (.held (List.mem_singleton_self _))), hsame 2 (.inr (Nat.le_refl _)),
    hapart 2 (by decide) hunreached⟩

/-- The stack that is left is part of what a call depends on. As many calls are in progress as the
stack holds; the machines differ only in whether a program runs, which is when the stack is watched.
The call of a function that does nothing succeeds on the one and fails on the other. -/
theorem calls_differ_by_stack_left :
    let word (lexeme : String) : Token := ⟨.identifier, lexeme, none, ⟨1, 1⟩⟩
    let f : Value := .function ⟨0, word "f", [], [], Machine.globals⟩
    let host := Host.standard { maxCallDepth := 1000 } fun _ => none
    let m : Machine := { Machine.fresh (.empty none) with depth := 256, nextIdentity := 1 }
    let m' : Machine := { m with watched := true }
    let call := host.call f (word ")") []
    host.natives.Functional ∧ m.Shares m' [f] ∧ m'.depth = m.depth ∧ m'.output = m.output ∧
      host.ServesAlike host m m' ∧ message? (call m) = none ∧
      message? (call m') = some "Stack overflow." ∧
      ¬(m.namesIn m').SameResult (call m) (call m') := by
  intro word f host m m' call
  have hreach : ∀ id, m.frames.Reach [f] id → id = 0 := by
    intro id hid
    have hroot : m.frames.frame? 0 = some ⟨[], none⟩ := rfl
    induction hid with
    | held mem => exact congrArg Closure.scope (Value.function.inj (List.mem_singleton.1 mem))
    | around _ found enclosed ih =>
      subst ih
      cases hroot.symm.trans found
      cases enclosed
    | stored _ found mem _ ih =>
      subst ih
      cases hroot.symm.trans found
      cases mem
  have hshares : m.Shares m' [f] := by
    refine ⟨fun id hid => ?_, fun v hv i hi => ?_, by decide, by decide⟩
    · rw [hreach id hid]
      exact ⟨_, rfl, rfl⟩
    · cases hv with
      | held mem =>
        rw [List.mem_singleton.1 mem] at hi
        cases hi
        decide
      | stored reach found mem =>
        rw [hreach _ reach] at found
        cases found
        cases mem
  have hpassed : message? (call m) = none := by decide +kernel
  have hrefused : message? (call m') = some "Stack overflow." := by decide +kernel
  refine ⟨(Natives.blind_builtins _).functional, hshares, rfl, rfl, ⟨rfl, fun _ _ => rfl⟩, hpassed,
    hrefused, fun hsame => ?_⟩
  generalize call m = result at hsame hpassed
  generalize call m' = result' at hsame hrefused
  cases hsame with
  | value => cases hrefused
  | error => cases hpassed

end Scriptlet
