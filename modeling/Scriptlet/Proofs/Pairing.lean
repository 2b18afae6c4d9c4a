import Scriptlet.Proofs.Renaming

/-!
Two machines side by side. The frames that a run can get at on the left stand under other names on
the right; the rest of the two machines may differ and is left alone. Every step takes two machines
that match to two that match, and gives the same result under the other names or the same error.
-/

namespace Scriptlet

namespace Host

/-- Whether two hosts set the same limits, and their functions do the same in every call from two
machines on. -/
structure ServesAlike (host host' : Host) (m m' : Machine) : Prop where
  settings : host'.settings = host.settings
  natives : ∀ code k,
    host'.natives code (m'.nativeCalls + k) = host.natives code (m.nativeCalls + k)

/-- Whether two hosts answer every check of the stack alike from two machines on. Where no program
runs, nothing is asked. -/
structure HoldsAlike (host host' : Host) (m m' : Machine) : Prop where
  watched : m'.watched = m.watched
  stack : m.watched = true → ∀ k depth,
    host'.stack (m'.stackChecks + k) depth = host.stack (m.stackChecks + k) depth

end Host

/-- How two runs that start on the left and the right machine correspond. -/
structure Pairing where
  names : Renaming
  left : Machine
  right : Machine
  leftHost : Host
  rightHost : Host
  /-- The frames on the left that the run can get at, those it will make among them. -/
  reached : Set FrameId
  /-- The frames on the left in which statements of the run are executed. -/
  entered : Set FrameId
  /-- The identities of the functions on the left that the run can get at. -/
  met : Set Nat
  frame_injOn : Set.InjOn names.frame reached
  identity_injOn : Set.InjOn names.identity met
  entered_subset : entered ⊆ reached
  reserved_iff : ∀ id ∈ entered, ∀ name, id = Machine.globals ∧ name ∈ left.reserved ↔
    names.frame id = Machine.globals ∧ name ∈ right.reserved
  detached : leftHost.natives.Detached
  respects : leftHost.natives.Respects names
  serves : leftHost.ServesAlike rightHost left right
  holds : leftHost.HoldsAlike rightHost left right

def Value.Inside (p : Pairing) : Value → Prop
  | .function f => f.scope ∈ p.reached ∧ f.identity ∈ p.met
  | .native f => f.identity ∈ p.met
  | _ => True

def Flow.Inside (p : Pairing) : Flow → Prop
  | .normal => True
  | .returning value => value.Inside p

structure Frame.Inside (p : Pairing) (frame : Frame) : Prop where
  enclosing : ∀ next ∈ frame.enclosing, next ∈ p.reached
  values : ∀ entry ∈ frame.bindings, entry.2.value.Inside p

variable {p : Pairing}

theorem Value.Plain.inside {v : Value} (h : v.Plain) : v.Inside p := by
  cases v with
  | function f => cases h
  | native f => cases h
  | _ => trivial

theorem Value.Inside.identity {v : Value} (h : v.Inside p) : ∀ i ∈ v.identity?, i ∈ p.met := by
  intro i hi
  cases v with
  | function f =>
    cases hi
    exact h.2
  | native f =>
    cases hi
    exact h
  | _ => cases hi

theorem Value.Inside.equals_rename {v w : Value} (hv : v.Inside p) (hw : w.Inside p) :
    (v.rename p.names).equals (w.rename p.names) = v.equals w :=
  Value.equals_rename p.identity_injOn hv.identity hw.identity

theorem Frame.Inside.define {frame : Frame} (hf : frame.Inside p) (name : String)
    {binding : Binding} (hb : binding.value.Inside p) : (frame.define name binding).Inside p :=
  ⟨hf.enclosing, Frame.values_define hf.values name hb⟩

theorem Closure.inside_frame {f : Closure} (hf : f.scope ∈ p.reached) {arguments : List Value}
    (ha : ∀ v ∈ arguments, v.Inside p) : (f.frame arguments).Inside p := by
  refine ⟨?_, Frame.values_defineAll (by simp) ha⟩
  unfold Closure.frame
  rw [Frame.enclosing_defineAll]
  simpa using hf

namespace Pairing

def Values (p : Pairing) (v v' : Value) : Prop := v' = v.rename p.names ∧ v.Inside p

def Lists (p : Pairing) (vs vs' : List Value) : Prop :=
  vs' = vs.map (Value.rename p.names) ∧ ∀ v ∈ vs, v.Inside p

def Flows (p : Pairing) (flow flow' : Flow) : Prop :=
  flow' = flow.rename p.names ∧ flow.Inside p

theorem Values.plain {v : Value} (h : v.Plain) : p.Values v v := ⟨h.rename.symm, h.inside⟩

/-- Stores that hold the same frames under other names, as far as the run can get at them, and have
kept the others. -/
structure Stores (p : Pairing) (frames frames' : Frames) : Prop where
  upcoming : ∀ k, frames.size + k ∈ p.entered ∧
    p.names.frame (frames.size + k) = frames'.size + k
  same : ∀ id ∈ p.reached,
    frames'.frame? (p.names.frame id) = (frames.frame? id).map (Frame.rename p.names)
  inside : ∀ id ∈ p.reached, ∀ frame ∈ frames.frame? id, frame.Inside p
  leftApart : ∀ id ∉ p.reached, frames.frame? id = p.left.frames.frame? id
  rightApart : ∀ id ∉ p.names.frame '' p.reached,
    frames'.frame? id = p.right.frames.frame? id

namespace Stores

variable {frames frames' : Frames} {id : FrameId}

theorem size (h : p.Stores frames frames') :
    frames.size ∈ p.entered ∧ p.names.frame frames.size = frames'.size := h.upcoming 0

theorem push (h : p.Stores frames frames') {frame : Frame} (hframe : frame.Inside p) :
    p.Stores (frames.push frame) (frames'.push (frame.rename p.names)) := by
  have hreached : frames.size ∈ p.reached := p.entered_subset h.size.1
  refine ⟨fun k => ?_, fun id hid => ?_, fun id hid other hother => ?_, fun id hid => ?_,
    fun id hid => ?_⟩
  · have hnext := h.upcoming (k + 1)
    rw [Frames.size_push, Frames.size_push]
    rwa [show frames.size + (k + 1) = frames.size + 1 + k by omega,
      show frames'.size + (k + 1) = frames'.size + 1 + k by omega] at hnext
  · rw [Frames.frame?_push, Frames.frame?_push]
    by_cases hnew : id = frames.size
    · rw [hnew, h.size.2, if_pos rfl, if_pos rfl]
      rfl
    · have hnew' : p.names.frame id ≠ frames'.size := by
        rw [← h.size.2]
        exact (p.frame_injOn.ne_iff hid hreached).2 hnew
      rw [if_neg hnew, if_neg hnew', h.same id hid]
  · rw [Frames.frame?_push] at hother
    split at hother
    · obtain rfl := Option.some.inj hother
      exact hframe
    · exact h.inside id hid other hother
  · have hne : id ≠ frames.size := fun heq => hid (heq ▸ hreached)
    rw [Frames.frame?_push, if_neg hne, h.leftApart id hid]
  · have hne : id ≠ frames'.size := fun heq => hid ⟨frames.size, hreached, h.size.2.trans heq.symm⟩
    rw [Frames.frame?_push, if_neg hne, h.rightApart id hid]

theorem define (h : p.Stores frames frames') {owner : FrameId} (howner : owner ∈ p.reached)
    (name : String) (binding : Binding) (hb : binding.value.Inside p) :
    p.Stores (frames.define owner name binding)
      (frames'.define (p.names.frame owner) name (binding.rename p.names)) := by
  refine ⟨fun k => ?_, fun id hid => ?_, fun id hid frame hframe => ?_, fun id hid => ?_,
    fun id hid => ?_⟩
  · rw [Frames.size_define, Frames.size_define]
    exact h.upcoming k
  · rw [Frames.frame?_define, Frames.frame?_define, h.same id hid]
    by_cases hsame : owner = id
    · rw [if_pos hsame, if_pos (congrArg _ hsame), Option.map_map, Option.map_map]
      congr 1
      funext frame
      exact frame.define_rename name binding
    · rw [if_neg hsame, if_neg ((p.frame_injOn.ne_iff howner hid).2 hsame)]
  · rw [Frames.frame?_define] at hframe
    split at hframe
    · obtain ⟨old, hold, rfl⟩ := Option.map_eq_some_iff.1 hframe
      exact (h.inside id hid old hold).define name hb
    · exact h.inside id hid frame hframe
  · have hne : owner ≠ id := fun heq => hid (heq ▸ howner)
    rw [Frames.frame?_define, if_neg hne, h.leftApart id hid]
  · have hne : p.names.frame owner ≠ id := fun heq => hid ⟨owner, howner, heq⟩
    rw [Frames.frame?_define, if_neg hne, h.rightApart id hid]

theorem nearestWithin (h : p.Stores frames frames') (name : String) : ∀ steps, ∀ id ∈ p.reached,
    frames'.nearestWithin name steps (p.names.frame id) =
        (frames.nearestWithin name steps id).map
          (Prod.map p.names.frame (Binding.rename p.names)) ∧
      ∀ nearest ∈ frames.nearestWithin name steps id,
        nearest.1 ∈ p.reached ∧ nearest.2.value.Inside p
  | 0, _, _ => ⟨rfl, by simp [Frames.nearestWithin]⟩
  | steps + 1, id, hid => by
    have hsame := h.same id hid
    cases hframe : frames.frame? id with
    | none =>
      rw [hframe] at hsame
      simp [Frames.nearestWithin, hframe, hsame]
    | some frame =>
      have hinside := h.inside id hid frame hframe
      rw [hframe] at hsame
      rw [Frames.nearestWithin_succ name steps hframe, Frames.nearestWithin_succ name steps hsame,
        Frame.binding?_rename]
      cases hbinding : frame.binding? name with
      | some binding =>
        refine ⟨rfl, fun nearest hnearest => ?_⟩
        obtain rfl := Option.some.inj hnearest
        exact ⟨hid, hinside.values _ (Frame.mem_of_binding? hbinding)⟩
      | none =>
        -- the name is bound further outward, if at all
        cases henclosing : frame.enclosing with
        | none => simp [Frame.rename, henclosing]
        | some next =>
          have hrest := nearestWithin h name steps next (hinside.enclosing next henclosing)
          simpa [Frame.rename, henclosing] using hrest

theorem nearest? (h : p.Stores frames frames') (name : String) (hid : id ∈ p.reached) :
    frames'.nearest? (p.names.frame id) name =
        (frames.nearest? id name).map (Prod.map p.names.frame (Binding.rename p.names)) ∧
      ∀ nearest ∈ frames.nearest? id name,
        nearest.1 ∈ p.reached ∧ nearest.2.value.Inside p := by
  -- the stores may be of different sizes, so both are given the steps of the larger one
  have hleft : frames.nearestWithin name (max frames.size frames'.size) id =
      frames.nearest? id name := Frames.nearestWithin_of_size_le name (Nat.le_max_left _ _)
  have hright : frames'.nearestWithin name (max frames.size frames'.size) (p.names.frame id) =
      frames'.nearest? (p.names.frame id) name :=
    Frames.nearestWithin_of_size_le name (Nat.le_max_right _ _)
  have hboth := h.nearestWithin name (max frames.size frames'.size) id hid
  rwa [hleft, hright] at hboth

theorem get (h : p.Stores frames frames') (name : String) (hid : id ∈ p.reached) :
    (∃ v, frames.get id name = .ok v ∧
        frames'.get (p.names.frame id) name = .ok (v.rename p.names) ∧ v.Inside p) ∨
      ∃ fault, frames.get id name = .error fault ∧
        frames'.get (p.names.frame id) name = .error fault := by
  obtain ⟨hsame, hinside⟩ := h.nearest? name hid
  unfold Frames.get Frames.get?
  rw [hsame]
  cases hnearest : frames.nearest? id name with
  | none => exact .inr ⟨_, rfl, rfl⟩
  | some nearest => exact .inl ⟨_, rfl, rfl, (hinside nearest hnearest).2⟩

theorem target (h : p.Stores frames frames') (name : String) (hid : id ∈ p.reached) :
    (∃ owner, frames.target id name = .ok owner ∧
        frames'.target (p.names.frame id) name = .ok (p.names.frame owner) ∧
        owner ∈ p.reached) ∨
      ∃ fault, frames.target id name = .error fault ∧
        frames'.target (p.names.frame id) name = .error fault := by
  obtain ⟨hsame, hinside⟩ := h.nearest? name hid
  unfold Frames.target
  rw [hsame]
  cases hnearest : frames.nearest? id name with
  | none => exact .inr ⟨_, rfl, rfl⟩
  | some nearest =>
    obtain ⟨owner, binding⟩ := nearest
    cases hconstant : binding.constant with
    | true => exact .inr ⟨.constantAssignment name, by simp [hconstant],
        by simp [Binding.rename, hconstant]⟩
    | false => exact .inl ⟨owner, by simp [hconstant], by simp [Binding.rename, hconstant],
        (hinside _ hnearest).1⟩

end Stores

/-- Machines in which the two runs are at the same point. -/
structure Matches (p : Pairing) (m m' : Machine) : Prop where
  stores : p.Stores m.frames m'.frames
  scope : m.scope ∈ p.entered ∧ m'.scope = p.names.frame m.scope
  depth : m'.depth = m.depth
  watched : m.watched = p.left.watched ∧ m'.watched = p.right.watched
  leftReserved : m.reserved = p.left.reserved
  rightReserved : m'.reserved = p.right.reserved
  identities : ∀ k, m.nextIdentity + k ∈ p.met ∧
    p.names.identity (m.nextIdentity + k) = m'.nextIdentity + k
  calls : ∃ k, m.nativeCalls = p.left.nativeCalls + k ∧ m'.nativeCalls = p.right.nativeCalls + k
  checks : ∃ k, m.stackChecks = p.left.stackChecks + k ∧ m'.stackChecks = p.right.stackChecks + k
  output : m'.output = m.output

theorem Matches.reached {m m' : Machine} (h : p.Matches m m') : m.scope ∈ p.reached :=
  p.entered_subset h.scope.1

theorem Matches.natives {m m' : Machine} (h : p.Matches m m') (code : Nat) :
    p.rightHost.natives code m'.nativeCalls = p.leftHost.natives code m.nativeCalls := by
  obtain ⟨k, hleft, hright⟩ := h.calls
  rw [hleft, hright]
  exact p.serves.natives code k

theorem Matches.stack {m m' : Machine} (h : p.Matches m m') :
    (!m'.watched || p.rightHost.stack m'.stackChecks m'.depth) =
      (!m.watched || p.leftHost.stack m.stackChecks m.depth) := by
  obtain ⟨k, hleft, hright⟩ := h.checks
  rw [h.watched.1, h.watched.2, p.holds.watched, h.depth, hleft, hright]
  cases hwatched : p.left.watched with
  | false => rfl
  | true => rw [p.holds.stack hwatched k m.depth]

inductive SameEnd (p : Pairing) {α : Type} (R : α → α → Prop) :
    EStateM.Result RuntimeError Machine α → EStateM.Result RuntimeError Machine α → Prop where
  | ok {x x' : α} {m m' : Machine} (result : R x x') (same : p.Matches m m') :
      SameEnd p R (.ok x m) (.ok x' m')
  | error {e : RuntimeError} {m m' : Machine} (same : p.Matches m m') :
      SameEnd p R (.error e m) (.error (e.rename p.names) m')

/-- Runs that end in the same way wherever they start at the same point. -/
def Aligned (p : Pairing) {α : Type} (R : α → α → Prop) (run run' : Eval α) : Prop :=
  ∀ m m', p.Matches m m' → p.SameEnd R (run m) (run' m')

namespace Aligned

variable {α β : Type} {R : α → α → Prop} {S : β → β → Prop} {run run' : Eval α}

theorem pure {x x' : α} (h : R x x') : p.Aligned R (Pure.pure x) (Pure.pure x') :=
  fun _ _ hm => .ok h hm

theorem raise (fault : Fault) (token : Token) :
    p.Aligned R (Eval.raise fault token) (Eval.raise fault (p.names.token token)) :=
  fun _ _ hm => .error hm

theorem bind {next next' : α → Eval β} (h : p.Aligned R run run')
    (k : ∀ x x', R x x' → p.Aligned S (next x) (next' x')) :
    p.Aligned S (run >>= next) (run' >>= next') := by
  intro m m' hm
  have hend := h m m' hm
  generalize hleft : run m = result at hend
  generalize hright : run' m' = result' at hend
  cases hend with
  | ok hx hafter =>
    rw [Eval.bind_ok hleft, Eval.bind_ok hright]
    exact k _ _ hx _ _ hafter
  | error hafter =>
    rw [Eval.bind_error hleft, Eval.bind_error hright]
    exact .error hafter

theorem map {f : α → β} (h : p.Aligned R run run') (hf : ∀ x x', R x x' → S (f x) (f x')) :
    p.Aligned S (f <$> run) (f <$> run') := by
  rw [← bind_pure_comp f run, ← bind_pure_comp f run']
  exact h.bind fun x x' hx => pure (hf x x' hx)

theorem discard (h : p.Aligned R run run') : p.Aligned Eq (discard run) (discard run') :=
  h.map fun _ _ _ => rfl

theorem inFrame (h : p.Aligned R run run') {frame : Frame} (hframe : frame.Inside p) :
    p.Aligned R (Eval.inFrame frame run) (Eval.inFrame (frame.rename p.names) run') := by
  intro m m' hm
  have hnew : m.frames.size ∈ p.entered ∧ m'.frames.size = p.names.frame m.frames.size :=
    ⟨hm.stores.size.1, hm.stores.size.2.symm⟩
  have hentered : p.Matches (m.entering frame) (m'.entering (frame.rename p.names)) := by
    refine { hm with stores := hm.stores.push hframe, scope := ?_ }
    simpa [Machine.entering, Machine.modifyFrames] using hnew
  have hend := h _ _ hentered
  generalize hleft : run (m.entering frame) = result at hend
  generalize hright : run' (m'.entering (frame.rename p.names)) = result' at hend
  cases hend with
  | ok hx hafter =>
    rw [Eval.inFrame_ok hleft, Eval.inFrame_ok hright]
    exact .ok hx { hafter with scope := hm.scope }
  | error hafter =>
    rw [Eval.inFrame_error hleft, Eval.inFrame_error hright]
    exact .error { hafter with scope := hm.scope }

theorem inScope (h : p.Aligned R run run') :
    p.Aligned R (Eval.inScope run) (Eval.inScope run') := by
  intro m m' hm
  have hframe : (⟨[], some m.scope⟩ : Frame).Inside p := ⟨by simpa using hm.reached, by simp⟩
  have hend := h.inFrame hframe m m' hm
  unfold Eval.inScope
  rw [hm.scope.2]
  exact hend

theorem inCall (h : p.Aligned R run run') : p.Aligned R (Eval.inCall run) (Eval.inCall run') := by
  intro m m' hm
  have hcalled : p.Matches { m with depth := m.depth + 1 } { m' with depth := m'.depth + 1 } :=
    { hm with depth := congrArg (· + 1) hm.depth }
  have hend := h _ _ hcalled
  generalize hleft : run { m with depth := m.depth + 1 } = result at hend
  generalize hright : run' { m' with depth := m'.depth + 1 } = result' at hend
  cases hend with
  | ok hx hafter =>
    rw [Eval.inCall_ok hleft, Eval.inCall_ok hright]
    exact .ok hx { hafter with depth := congrArg (· - 1) hafter.depth }
  | error hafter =>
    rw [Eval.inCall_error hleft, Eval.inCall_error hright]
    exact .error { hafter with depth := congrArg (· - 1) hafter.depth }

end Aligned

theorem aligned_settle {α : Type} {R : α → α → Prop} (token : Token) {result : Except Fault α}
    (h : ∀ x, result = .ok x → R x x) :
    p.Aligned R (Eval.settle token result) (Eval.settle (p.names.token token) result) := by
  cases result with
  | ok x => exact .pure (h x rfl)
  | error fault => exact .raise fault token

theorem aligned_lookUp (name : Token) :
    p.Aligned p.Values (Eval.lookUp name) (Eval.lookUp (p.names.token name)) := by
  intro m m' hm
  unfold Eval.lookUp
  rw [hm.scope.2, Renaming.token_lexeme]
  rcases hm.stores.get name.lexeme hm.reached with ⟨v, hv, hv', hinside⟩ | ⟨fault, hf, hf'⟩
  · rw [hv, hv']
    exact .ok ⟨rfl, hinside⟩ hm
  · rw [hf, hf']
    exact .error hm

theorem aligned_assign (name : Token) {v : Value} (hv : v.Inside p) :
    p.Aligned Eq (Eval.assign name v)
      (Eval.assign (p.names.token name) (v.rename p.names)) := by
  intro m m' hm
  unfold Eval.assign
  rw [hm.scope.2, Renaming.token_lexeme]
  rcases hm.stores.target name.lexeme hm.reached with ⟨owner, ho, ho', hreached⟩ | ⟨fault, hf, hf'⟩
  · rw [ho, ho']
    exact .ok rfl { hm with stores := hm.stores.define hreached _ ⟨v, false⟩ hv }
  · rw [hf, hf']
    exact .error hm

theorem aligned_define (name : Token) {v : Value} (hv : v.Inside p) (constant : Bool) :
    p.Aligned Eq (Eval.define name ⟨v, constant⟩)
      (Eval.define (p.names.token name) ⟨v.rename p.names, constant⟩) := by
  intro m m' hm
  unfold Eval.define
  rw [hm.scope.2, Renaming.token_lexeme]
  exact .ok rfl { hm with stores := hm.stores.define hm.reached _ ⟨v, constant⟩ hv }

theorem aligned_write (keyword : Token) (text : String) :
    p.Aligned Eq (Eval.write keyword text) (Eval.write (p.names.token keyword) text) := by
  intro m m' hm
  have hafter : p.Matches (m.modifyOutput (·.write text)) (m'.modifyOutput (·.write text)) :=
    { hm with output := congrArg (·.write text) hm.output }
  unfold Eval.write
  rw [hm.output]
  dsimp only
  split
  · exact .ok rfl hafter
  · exact .error hafter

theorem aligned_makeClosure (name : Token) (parameters : List Token) (body : List Stmt) :
    p.Aligned p.Values (Eval.makeClosure name parameters body)
      (Eval.makeClosure (p.names.token name) (parameters.map p.names.token)
        (Stmt.renameAll p.names body)) := by
  intro m m' hm
  obtain ⟨hmet, hidentity⟩ := hm.identities 0
  refine .ok ⟨?_, hm.reached, hmet⟩ { hm with identities := fun k => ?_ }
  · simp only [Nat.add_zero] at hidentity
    simp only [Value.rename, Closure.rename, hidentity, hm.scope.2]
  · have hnext := hm.identities (k + 1)
    rwa [show m.nextIdentity + (k + 1) = m.nextIdentity + 1 + k by omega,
      show m'.nextIdentity + (k + 1) = m'.nextIdentity + 1 + k by omega] at hnext

theorem aligned_guardBuiltin (name : Token) :
    p.Aligned Eq (Eval.guardBuiltin p.leftHost.settings name)
      (Eval.guardBuiltin p.rightHost.settings (p.names.token name)) := by
  intro m m' hm
  have hrefused : (m.scope = Machine.globals && m.reserved.contains name.lexeme) =
      (m'.scope = Machine.globals && m'.reserved.contains name.lexeme) := by
    have hiff := p.reserved_iff m.scope hm.scope.1 name.lexeme
    rw [← hm.scope.2, ← hm.leftReserved, ← hm.rightReserved] at hiff
    rw [Bool.eq_iff_iff]
    simpa only [Bool.and_eq_true, decide_eq_true_eq, List.contains_iff_mem] using hiff
  unfold Eval.guardBuiltin
  rw [p.serves.settings, Bool.and_assoc, Bool.and_assoc, Renaming.token_lexeme, hrefused]
  split
  · exact .error hm
  · exact .ok rfl hm

theorem aligned_checkStack (token : Token) :
    p.Aligned Eq (Eval.checkStack p.leftHost token)
      (Eval.checkStack p.rightHost (p.names.token token)) := by
  intro m m' hm
  have hcounted : p.Matches m.checked m'.checked := by
    obtain ⟨k, hleft, hright⟩ := hm.checks
    exact { hm with checks := ⟨k + 1, congrArg (· + 1) hleft, congrArg (· + 1) hright⟩ }
  unfold Eval.checkStack
  dsimp only
  rw [hm.stack]
  split
  · exact .ok rfl hcounted
  · exact .error hcounted

theorem aligned_guardCall (paren : Token) :
    p.Aligned Eq (Eval.guardCall p.leftHost paren)
      (Eval.guardCall p.rightHost (p.names.token paren)) := by
  have hdepth : p.Aligned Eq (Eval.guardDepth p.leftHost.settings paren)
      (Eval.guardDepth p.rightHost.settings (p.names.token paren)) := by
    intro m m' hm
    unfold Eval.guardDepth
    rw [p.serves.settings, hm.depth]
    split
    · exact .error hm
    · exact .ok rfl hm
  apply hdepth.bind
  exact fun _ _ _ => aligned_checkStack paren

theorem aligned_guardArity (paren : Token) (expected : Nat) (arguments : List Value) :
    p.Aligned Eq (guardArity paren expected arguments)
      (guardArity (p.names.token paren) expected
        (arguments.map (Value.rename p.names))) := by
  unfold guardArity
  rw [List.length_map]
  split
  · exact .pure rfl
  · exact .raise _ paren

theorem aligned_applyNative (paren : Token) (code : Nat) {arguments : List Value}
    (ha : ∀ v ∈ arguments, v.Inside p) :
    p.Aligned p.Values (Eval.applyNative p.leftHost paren code arguments)
      (Eval.applyNative p.rightHost (p.names.token paren) code
        (arguments.map (Value.rename p.names))) := by
  intro m m' hm
  have hequals : ∀ v ∈ arguments, ∀ w ∈ arguments,
      (v.rename p.names).equals (w.rename p.names) = v.equals w :=
    fun v hv w hw => (ha v hv).equals_rename (ha w hw)
  have hcounted : p.Matches { m with nativeCalls := m.nativeCalls + 1 }
      { m' with nativeCalls := m'.nativeCalls + 1 } := by
    obtain ⟨k, hleft, hright⟩ := hm.calls
    exact { hm with calls := ⟨k + 1, congrArg (· + 1) hleft, congrArg (· + 1) hright⟩ }
  have hresult := p.respects code m.nativeCalls arguments m.heap m'.heap hequals
  -- what the function gives is all that counts, since both heaps stay as they are
  have hheap : (p.rightHost.natives code m'.nativeCalls (arguments.map (Value.rename p.names))
      m'.heap).2 = m'.heap := by
    rw [hm.natives, p.detached.heap]
  rw [Eval.applyNative_of_heap (p.detached.heap ..), Eval.applyNative_of_heap hheap, hm.natives,
    hresult]
  cases hrun : (p.leftHost.natives code m.nativeCalls arguments m.heap).1 with
  | error message => exact .error hcounted
  | ok value =>
    refine .ok ⟨rfl, ?_⟩ hcounted
    rcases p.detached.result hrun with hplain | hmem
    · exact hplain.inside
    · exact ha value hmem

end Pairing

end Scriptlet
