import Scriptlet.Proofs.Provenance
import Scriptlet.Proofs.Restoration

/-!
The frames of a machine form a tree with the global frame as its root. Closures stored in frames may
refer to frames that hold them, but the way outward along enclosing frames never comes back. A
machine moves on by binding a name, by entering a new frame inside an old one, or without any change
of frames; each move keeps the tree, the links in it and the names that are bound. All that happens
during a session of a host is a trail of such moves.
-/

namespace Scriptlet

open Plan (Moment)

/-- Whether a frame is still inside the same one and binds the names that it bound. -/
structure Frame.Grows (frame later : Frame) : Prop where
  enclosing : later.enclosing = frame.enclosing
  names : ∀ name, (frame.binding? name).isSome → (later.binding? name).isSome

def Frames.Grows (frames later : Frames) : Prop := frames.Persist (fun _ => Frame.Grows) later

theorem Frame.Grows.refl (frame : Frame) : frame.Grows frame := ⟨rfl, fun _ h => h⟩

theorem Frame.Grows.trans {a b c : Frame} (h : a.Grows b) (k : b.Grows c) : a.Grows c :=
  ⟨k.enclosing.trans h.enclosing, fun name hname => k.names name (h.names name hname)⟩

theorem Frame.grows_define (frame : Frame) (name : String) (binding : Binding) :
    frame.Grows (frame.define name binding) := by
  refine ⟨rfl, fun other hother => ?_⟩
  rw [Frame.binding?_define]
  by_cases h : other = name
  · rw [if_pos h]
    rfl
  · rwa [if_neg h]

namespace Frames

variable {frames : Frames}

theorem Grows.refl (frames : Frames) : frames.Grows frames := Persist.refl (fun _ => .refl) frames

theorem Grows.trans {a b c : Frames} (h : a.Grows b) (k : b.Grows c) : a.Grows c :=
  Persist.trans .trans h k

theorem grows_define (owner : FrameId) (name : String) (binding : Binding) :
    frames.Grows (frames.define owner name binding) :=
  persist_define (fun _ => .refl) fun frame _ => frame.grows_define name binding

theorem grows_push (new : Frame) : frames.Grows (frames.push new) :=
  persist_push (fun _ => .refl) new

end Frames

/-- Whether a machine refers only to frames that it has, and the way outward from each of them ends
at the global frame and passes no frame twice. -/
structure Machine.Forest (m : Machine) : Prop where
  linked : m.Linked
  outward : ∀ id < m.frames.size, ∃ ids, m.frames.Chain id ids ∧ ids.Nodup ∧
    ids.getLast? = some Machine.globals

namespace Machine.Forest

variable {m after : Machine}

theorem fresh (output : Output) : (Machine.fresh output).Forest := by
  refine ⟨linked_fresh output, fun id hid => ?_⟩
  obtain rfl := Nat.lt_one_iff.1 hid
  have hroot : (Machine.fresh output).frames.frame? 0 = some ⟨[], none⟩ := rfl
  exact ⟨[0], .last hroot rfl, List.nodup_singleton 0, rfl⟩

theorem congr (hm : m.Forest) (hframes : after.frames = m.frames)
    (hscope : after.scope < m.frames.size) : after.Forest := by
  constructor
  · exact ⟨hframes ▸ hscope, hframes ▸ hm.linked.frames⟩
  · exact hframes ▸ hm.outward

theorem define (hm : m.Forest) (owner : FrameId) (name : String) {binding : Binding}
    (hfine : binding.value.Within m.frames.size) :
    (m.modifyFrames (·.define owner name binding)).Forest := by
  refine ⟨hm.linked.modifyFrames_define owner name hfine, fun id hid => ?_⟩
  obtain ⟨ids, hchain, hrest⟩ := hm.outward id (by simpa [modifyFrames] using hid)
  exact ⟨ids, hchain.define owner name binding, hrest⟩

theorem entering (hm : m.Forest) {frame : Frame} (hinner : frame.Inner m.frames.size) :
    (m.entering frame).Forest := by
  refine ⟨hm.linked.entering hinner.linked, fun id hid => ?_⟩
  change id < (m.frames.push frame).size at hid
  rw [Frames.size_push] at hid
  rcases Nat.lt_succ_iff_lt_or_eq.1 hid with hold | rfl
  · obtain ⟨ids, hchain, hrest⟩ := hm.outward id hold
    exact ⟨ids, hchain.push frame, hrest⟩
  · -- the new frame is one step away from a frame that is there already
    obtain ⟨next, hnext⟩ := Option.isSome_iff_exists.1 hinner.enclosed
    obtain ⟨ids, hchain, _, hlast⟩ := hm.outward next (hinner.linked.enclosing next hnext)
    have hnew : (m.frames.push frame).frame? m.frames.size = some frame := by
      simp [Frames.frame?_push]
    have hmore := Frames.Chain.more hnew hnext (hchain.push frame)
    refine ⟨_, hmore, hmore.nodup, ?_⟩
    rw [List.getLast?_cons, hlast]
    rfl

end Machine.Forest

inductive Machine.Moves (m after : Machine) : Prop where
  | aside (frames : after.frames = m.frames) (scope : after.scope < m.frames.size)
  | bind (owner : FrameId) (name : String) (binding : Binding)
      (frames : after.frames = m.frames.define owner name binding) (scope : after.scope = m.scope)
      (fine : binding.value.Within m.frames.size)
  | enter (frame : Frame) (entered : after = m.entering frame) (inner : frame.Inner m.frames.size)

namespace Machine.Moves

variable {m after : Machine}

theorem forest (h : m.Moves after) (hm : m.Forest) : after.Forest := by
  cases h with
  | aside frames scope => exact hm.congr frames scope
  | bind owner name binding frames scope fine =>
    refine (hm.define owner name fine).congr frames ?_
    rw [scope]
    exact (hm.define owner name fine).linked.scope
  | enter frame entered inner =>
    rw [entered]
    exact hm.entering inner

theorem grows (h : m.Moves after) : m.frames.Grows after.frames := by
  cases h with
  | aside frames _ => exact frames ▸ .refl m.frames
  | bind owner name binding frames _ _ => exact frames ▸ Frames.grows_define owner name binding
  | enter frame entered _ => exact entered ▸ Frames.grows_push frame

theorem size_le (h : m.Moves after) : m.frames.size ≤ after.frames.size := by
  cases h with
  | aside frames _ => exact Nat.le_of_eq (by rw [frames])
  | bind owner name binding frames _ _ => exact Nat.le_of_eq (by rw [frames, Frames.size_define])
  | enter frame entered _ =>
    rw [entered]
    exact Nat.le_of_lt (Nat.lt_of_lt_of_eq (Nat.lt_succ_self _) (Frames.size_push frame).symm)

end Machine.Moves

inductive Machine.Trail : Machine → List Machine → Machine → Prop where
  | here (m : Machine) : Trail m [] m
  | on {m next after : Machine} {points : List Machine} (move : m.Moves next)
      (rest : Trail next points after) : Trail m (m :: points) after

namespace Machine.Trail

variable {m mid after : Machine} {points more : List Machine}

theorem append (h : m.Trail points mid) (k : mid.Trail more after) :
    m.Trail (points ++ more) after := by
  induction h with
  | here m => exact k
  | on move _ ih => exact .on move (ih k)

theorem single (h : m.Moves after) : m.Trail [m] after := .on h (.here after)

theorem size_le (h : m.Trail points after) : m.frames.size ≤ after.frames.size := by
  induction h with
  | here m => exact Nat.le_refl _
  | on move _ ih => exact Nat.le_trans move.size_le ih

theorem forest (h : m.Trail points after) (hm : m.Forest) :
    ∀ point ∈ points ++ [after], point.Forest := by
  induction h with
  | here m =>
    intro point hpoint
    obtain rfl := List.mem_singleton.1 hpoint
    exact hm
  | on move _ ih =>
    intro point hpoint
    rcases List.mem_cons.1 hpoint with rfl | hpoint
    · exact hm
    · exact ih (move.forest hm) point hpoint

theorem forest_last (h : m.Trail points after) (hm : m.Forest) : after.Forest :=
  h.forest hm after (List.mem_append_right _ (List.mem_singleton_self after))

theorem grows (h : m.Trail points after) :
    ∀ point ∈ points ++ [after], m.frames.Grows point.frames := by
  induction h with
  | here m =>
    intro point hpoint
    obtain rfl := List.mem_singleton.1 hpoint
    exact .refl point.frames
  | on move _ ih =>
    intro point hpoint
    rcases List.mem_cons.1 hpoint with rfl | hpoint
    · exact .refl point.frames
    · exact move.grows.trans (ih point hpoint)

/-- Of any two machines on a trail, the frames of the first are still there in the second. -/
theorem pairwise (h : m.Trail points after) :
    (points ++ [after]).Pairwise fun point later => point.frames.Grows later.frames := by
  induction h with
  | here m => exact List.pairwise_singleton _ m
  | on move rest ih =>
    refine List.Pairwise.cons (fun later hlater => ?_) ih
    exact move.grows.trans (rest.grows later hlater)

end Machine.Trail

/-- Whether a run passes these machines, move by move, and a result of it has a property. -/
structure Eval.Treads {α : Type} (run : Eval α) (points : List Machine) (Q : α → Nat → Prop)
    (m : Machine) : Prop where
  trail : m.Trail points (run.after m)
  result : ∀ x after, run m = .ok x after → Q x after.frames.size

theorem Eval.Treads.followed {α β : Type} {run : Eval α} {rest : α → Eval β} {m : Machine}
    {points : List Machine} {P : α → Nat → Prop} {Q : β → Nat → Prop}
    {next : α → Machine → List Moment} (h : run.Treads points P m) (hm : m.Forest)
    (k : ∀ x after, after.Forest → P x after.frames.size →
      (rest x).Treads ((next x after).map Moment.machine) Q after) :
    (run >>= rest).Treads (points ++ (Plan.following (run m) next).map Moment.machine) Q m := by
  obtain ⟨trail, result⟩ := h
  cases hr : run m with
  | ok x after =>
    rw [Eval.after_ok hr] at trail
    obtain ⟨more, final⟩ := k x after (trail.forest_last hm) (result x after hr)
    constructor
    · rw [Eval.after_bind_ok hr]
      exact trail.append more
    · intro y last hlast
      rw [Eval.bind_ok hr] at hlast
      exact final y last hlast
  | error e after =>
    rw [Eval.after_error hr] at trail
    constructor
    · rw [Eval.after_bind_error hr]
      simpa [Plan.following] using trail
    · intro y last hlast
      rw [Eval.bind_error hr] at hlast
      cases hlast

theorem Step.moves {host : Host} (detached : host.natives.Detached) {α : Type} {s : Step α}
    {m : Machine} (hm : m.Forest) (hs : s.UsesWithin m.frames.size) :
    m.Moves ((s.run host).after m) := by
  generalize hafter : (s.run host).after m = after
  cases Step.effect hafter with
  | @assigned m name value owner target => exact .bind owner name.lexeme ⟨value, false⟩ rfl rfl hs
  | defined m name binding => exact .bind m.scope name.lexeme binding rfl rfl hs
  | aside frames scope _ _ => exact .aside (frames detached) (scope ▸ hm.linked.scope)

theorem Step.treads {host : Host} (detached : host.natives.Detached) {α : Type} {s : Step α}
    {m : Machine} (hm : m.Forest) (hs : s.UsesWithin m.frames.size) :
    (s.run host).Treads [m] (fun x size => size = m.frames.size ∧ s.Gives m.frames.size x) m := by
  refine ⟨.single (Step.moves detached hm hs), fun x after hrun => ?_⟩
  have hsize := Step.size_after detached s m
  rw [Eval.after_ok hrun] at hsize
  exact ⟨hsize, hsize ▸ Step.gives detached hm.linked hs hrun⟩

namespace Plan

variable {α : Type} {Q : α → Nat → Prop} {m : Machine}

theorem treads_runInFrame {frame : FrameId → Frame} {body : Eval α} {points : List Machine}
    (hm : m.Forest) (hinner : (frame m.scope).Inner m.frames.size)
    (h : body.Treads points Q (m.entering (frame m.scope))) :
    (runInFrame frame body).Treads
      (m :: (points ++ [body.after (m.entering (frame m.scope))]))
      (fun x size => m.frames.size < size ∧ Q x size) m := by
  obtain ⟨trail, result⟩ := h
  have hgrown : m.frames.size < (body.after (m.entering (frame m.scope))).frames.size := by
    refine Nat.lt_of_lt_of_le ?_ trail.size_le
    exact Nat.lt_of_lt_of_eq (Nat.lt_succ_self _) (Frames.size_push (frame m.scope)).symm
  constructor
  · rw [after_runInFrame]
    refine .on (.enter _ rfl hinner) (trail.append (.single (.aside rfl ?_)))
    exact Nat.lt_trans hm.linked.scope hgrown
  · intro x after hrun
    cases hr : body (m.entering (frame m.scope)) with
    | ok y inner =>
      rw [Eval.after_ok hr] at hgrown
      have hok := hrun.symm.trans (Eval.inFrame_ok hr)
      cases hok
      exact ⟨hgrown, result x inner hr⟩
    | error e inner => cases hrun.symm.trans (Eval.inFrame_error hr)

theorem treads_runCall (host : Host) (paren : Token) {body : Eval α}
    (moments : Machine → List Moment) (hm : m.Forest)
    (h : body.Treads ((moments { m.checked with depth := m.checked.depth + 1 }).map Moment.machine) Q
      { m.checked with depth := m.checked.depth + 1 }) :
    (runCall host paren body).Treads
      (m :: (following (Eval.guardCall host paren m) fun _ m =>
        let inside := { m with depth := m.depth + 1 }
        (moments inside ++ [Moment.mk 0 (body.after inside)]).map Moment.inCall).map Moment.machine)
      (fun x size => m.frames.size ≤ size ∧ Q x size) m := by
  obtain ⟨trail, result⟩ := h
  generalize hlast : body.after { m.checked with depth := m.checked.depth + 1 } = last at trail
  have hgrown : m.frames.size ≤ last.frames.size := trail.size_le
  rcases Eval.guardCall_cases host paren m with ⟨after, hguard, hafter⟩ | ⟨_, hguard⟩
  · have hrun : runCall host paren body m = .error ⟨.stackOverflow, paren⟩ after :=
      Eval.bind_error hguard
    constructor
    · rw [Eval.after_error hrun, hguard]
      rcases hafter with rfl | rfl
      · exact .single (.aside rfl hm.linked.scope)
      · exact .single (.aside rfl hm.linked.scope)
    · intro x after hok
      cases hrun.symm.trans hok
  · have hrun : runCall host paren body m = Eval.inCall body m.checked := Eval.bind_ok hguard
    have hafter : (runCall host paren body).after m = { last with depth := last.depth - 1 } := by
      rw [← hlast, ← Eval.after_inCall]
      simp only [Eval.after, hrun]
    constructor
    · rw [hafter, hguard]
      have hend : last.Trail [last] { last with depth := last.depth - 1 } := by
        refine .single (.aside rfl ?_)
        have hinside : ({ m.checked with depth := m.checked.depth + 1 } : Machine).Forest :=
          hm.congr rfl hm.linked.scope
        exact (trail.forest_last hinside).linked.scope
      have hbegin : m.Moves { m.checked with depth := m.checked.depth + 1 } :=
        .aside rfl hm.linked.scope
      have hwhole := Machine.Trail.on hbegin (trail.append hend)
      simpa [following, Moment.inCall, Function.comp_def, hlast] using hwhole
    · intro x after hok
      rw [hrun] at hok
      cases hr : body { m.checked with depth := m.checked.depth + 1 } with
      | ok y inner =>
        have hinner : last = inner := hlast.symm.trans (Eval.after_ok hr)
        rw [hinner] at hgrown
        cases hok.symm.trans (Eval.inCall_ok hr)
        exact ⟨hgrown, result x inner hr⟩
      | error e inner => cases hok.symm.trans (Eval.inCall_error hr)

theorem Sound.treads {host : Host} (detached : host.natives.Detached) {plan : Plan α} {size : Nat}
    (h : plan.Sound Q size) (m : Machine) (hm : m.Forest) (hsize : m.frames.size = size) :
    (plan.run host).Treads ((plan.moments host m).map Moment.machine) Q m := by
  induction h generalizing m with
  | done h =>
    refine ⟨.here m, fun x after hrun => ?_⟩
    cases hrun
    exact hsize ▸ h
  | @step α β Q size s next fits rest ih =>
    subst hsize
    refine (Step.treads detached hm fits).followed hm fun x after hafter hx => ?_
    exact ih x hx.2 after hafter hx.1
  | @inFrame α β Q P size frame body next inner inside rest ihbody ih =>
    subst hsize
    have hinner := inner m.scope hm.linked.scope
    have hbody := ihbody (m.entering (frame m.scope)) (hm.entering hinner)
      (Frames.size_push (frame m.scope))
    have hwhole := (treads_runInFrame hm hinner hbody).followed hm fun x after hafter hx =>
      ih x _ hx.1 hx.2 after hafter rfl
    simpa [moments, run] using hwhole
  | @call α β Q P size paren body next inside rest ihbody ih =>
    subst hsize
    have hinside : ({ m.checked with depth := m.checked.depth + 1 } : Machine).Forest :=
      hm.congr rfl hm.linked.scope
    have hbody := ihbody { m.checked with depth := m.checked.depth + 1 } hinside rfl
    have hwhole := (treads_runCall host paren (body.moments host) hm hbody).followed hm
      fun x after hafter hx => ih x _ hx.1 hx.2 after hafter rfl
    simpa [moments, run] using hwhole

end Plan

/-- The nearest binding of a name, by a search that holds each frame that it passes until it is
over. There is no answer if it takes more than so many steps or comes to a frame that it holds. -/
def Frames.nearestHolding (frames : Frames) (name : String) :
    Nat → List FrameId → FrameId → Option (Option (FrameId × Binding))
  | 0, _, _ => none
  | steps + 1, held, id =>
    if id ∈ held then none
    else
      match frames.frame? id with
      | none => some none
      | some frame =>
        match frame.binding? name, frame.enclosing with
        | some binding, _ => some (some (id, binding))
        | none, some next => nearestHolding frames name steps (id :: held) next
        | none, none => some none

def Frames.getHolding (frames : Frames) (id : FrameId) (name : String) : Option (Option Value) :=
  (frames.nearestHolding name frames.size [] id).map fun found => found.map (·.2.value)

def Frames.assignHolding (frames : Frames) (id : FrameId) (name : String) (value : Value) :
    Option (Except Fault Frames) :=
  (frames.nearestHolding name frames.size [] id).map fun found =>
    match found with
    | none => .error (.undefinedVariable name)
    | some (owner, binding) =>
      if binding.constant then .error (.constantAssignment name)
      else .ok (frames.define owner name ⟨value, false⟩)

/-- Along a chain no frame is met that is held: the frames held are those passed before. -/
theorem Frames.nearestHolding_of_chain {frames : Frames} {id : FrameId} {ids : List FrameId}
    (name : String) (h : frames.Chain id ids) {held : List FrameId}
    (hfree : ∀ other ∈ ids, other ∉ held) {steps : Nat} (hs : ids.length ≤ steps) :
    frames.nearestHolding name steps held id = some (frames.nearestWithin name ids.length id) := by
  induction h generalizing steps held with
  | @last id frame found outermost =>
    obtain ⟨steps, rfl⟩ := Nat.exists_eq_add_of_le' hs
    have hid : id ∉ held := hfree id List.mem_cons_self
    simp only [List.length_cons, List.length_nil, nearestWithin_succ name _ found, outermost,
      nearestHolding, found, if_neg hid]
    cases frame.binding? name <;> rfl
  | @more id next frame ids found enclosed rest ih =>
    obtain ⟨steps, rfl⟩ := Nat.exists_eq_add_of_le' (Nat.le_trans (Nat.succ_pos _) hs)
    have hid : id ∉ held := hfree id List.mem_cons_self
    simp only [List.length_cons, nearestWithin_succ name _ found, enclosed, Option.bind_some,
      nearestHolding, found, if_neg hid]
    cases frame.binding? name with
    | some binding => rfl
    | none =>
      have hnodup := (Chain.more found enclosed rest).nodup
      refine ih (fun other hother hheld => ?_) (by simpa using hs)
      rcases List.mem_cons.1 hheld with rfl | hheld
      · exact (List.nodup_cons.1 hnodup).1 hother
      · exact hfree other (List.mem_cons_of_mem _ hother) hheld

namespace Machine.Forest

variable {m : Machine} {id : FrameId}

theorem nearestHolding_eq (hm : m.Forest) (hid : id < m.frames.size) (name : String) :
    m.frames.nearestHolding name m.frames.size [] id = some (m.frames.nearest? id name) := by
  obtain ⟨ids, hchain, _⟩ := hm.outward id hid
  rw [Frames.nearestHolding_of_chain name hchain (by simp) hchain.length_le,
    Frames.nearest?_of_chain name hchain]

theorem getHolding_eq (hm : m.Forest) (hid : id < m.frames.size) (name : String) :
    m.frames.getHolding id name = some (m.frames.get? id name) := by
  simp only [Frames.getHolding, hm.nearestHolding_eq hid name, Option.map_some, Frames.get?]

theorem assignHolding_eq (hm : m.Forest) (hid : id < m.frames.size) (name : String)
    (value : Value) :
    m.frames.assignHolding id name value = some (m.frames.assign id name value) := by
  simp only [Frames.assignHolding, hm.nearestHolding_eq hid name, Option.map_some, Frames.assign,
    Frames.target]
  cases m.frames.nearest? id name with
  | none => rfl
  | some found =>
    cases hconstant : found.2.constant with
    | true => simp [hconstant, bind, Except.bind]
    | false => simp [hconstant, bind, Except.bind, pure, Except.pure]

end Machine.Forest

def Machine.during {γ : Type} (change : Machine → γ → Machine) : Machine → List γ → List Machine
  | _, [] => []
  | m, x :: xs => m :: during change (change m x) xs

theorem Machine.trail_during {γ : Type} {change : Machine → γ → Machine} {size : Nat}
    {xs : List γ} (h : ∀ x ∈ xs, ∀ m : Machine, m.frames.size = size →
      m.Moves (change m x) ∧ (change m x).frames.size = size) {m : Machine}
    (hsize : m.frames.size = size) : m.Trail (m.during change xs) (xs.foldl change m) := by
  induction xs generalizing m with
  | nil => exact .here m
  | cons x xs ih =>
    obtain ⟨move, hnext⟩ := h x List.mem_cons_self m hsize
    exact .on move (ih (fun y hy => h y (List.mem_cons_of_mem x hy)) hnext)

def Machine.installValue (m : Machine) (entry : String × Value) : Machine := m.install [entry]

def Machine.installBuiltin (m : Machine) (builtin : Builtin) : Machine :=
  let (value, m) := m.makeNative builtin.name builtin.arity builtin.code
  m.installValue (builtin.name, value)

theorem Machine.moves_installValue (m : Machine) {entry : String × Value}
    (h : entry.2.Within m.frames.size) : m.Moves (m.installValue entry) :=
  .bind globals entry.1 ⟨entry.2, false⟩ rfl rfl h

namespace Host

variable (host : Host)

def plans : Plan.Caller := Plan.callValue host.settings host.settings.maxCallDepth.toNat

def passed (m : Machine) : Operation → List Machine
  | .installBuiltins => m.during Machine.installBuiltin Builtin.all
  | .install values => m.during Machine.installValue values
  | .define _ _ => [m]
  | .interpret program =>
    m :: ((Plan.executeAll host.settings host.plans program).history host
      { m with watched := true }).map Moment.machine
  | .execute s => ((Plan.execute host.settings host.plans s).moments host m).map Moment.machine
  | .evaluate e => ((Plan.evaluate host.plans e).moments host m).map Moment.machine
  | .block body =>
    ((Plan.inScope (Plan.executeAll host.settings host.plans body)).moments host m).map
      Moment.machine
  | .call callee paren arguments =>
    ((host.plans callee paren arguments).moments host m).map Moment.machine

/-- The machines that a session passes before its last. -/
def points (m : Machine) : List Operation → List Machine
  | [] => []
  | operation :: operations =>
    host.passed m operation ++ points (host.perform m operation) operations

end Host

/-- Whether the values that a host brings into an operation are values of a machine with `size`
frames. -/
def Operation.Within (size : Nat) : Operation → Prop
  | .install values => ∀ entry ∈ values, entry.2.Within size
  | .define _ binding => binding.value.Within size
  | .call callee _ arguments => callee.Within size ∧ ∀ v ∈ arguments, v.Within size
  | _ => True

/-- Whether a host only ever brings values of the machine into its operations. -/
def Host.Admits (host : Host) : Machine → List Operation → Prop
  | _, [] => True
  | m, operation :: operations =>
    operation.Within m.frames.size ∧ host.Admits (host.perform m operation) operations

section Sessions

variable {host : Host} (detached : host.natives.Detached)

include detached

theorem Host.trail_interpret {m : Machine} (hm : m.Forest) (program : Program) :
    m.Trail (host.passed m (.interpret program)) ((host.interpret program).after m) := by
  have hsound : (Plan.executeAll host.settings host.plans program).Sound
      (fun flow size => flow.Within size) m.frames.size :=
    Plan.sound_executeAll host.settings (Plan.sound_callValue host.settings _) program _
  have hrun : (Plan.executeAll host.settings host.plans program).run host =
      executeAll host host.call program := host.run_executeAll _ program
  have hwatched : ({ m with watched := true } : Machine).Forest := hm.congr rfl hm.linked.scope
  have htrail := (hsound.treads detached _ hwatched rfl).trail
  rw [hrun] at htrail
  have hscope := (htrail.forest_last hwatched).linked.scope
  simp only [Host.passed, Plan.history, List.map_append, List.map_cons, List.map_nil, hrun]
  have hbegin : m.Moves { m with watched := true } := .aside rfl hm.linked.scope
  refine .on hbegin (htrail.append (.single ?_))
  rw [Host.interpret]
  rcases Eval.after_asProgram (executeAll host host.call program) m with hafter | hafter
  · rw [hafter, Eval.after_watching]
    exact .aside rfl hscope
  · -- the reset goes back to the global frame, which is always there
    rw [hafter, Eval.after_watching]
    exact .aside rfl (Nat.lt_of_le_of_lt (Nat.zero_le _) hscope)

theorem Host.trail_passed {m : Machine} (hm : m.Forest) {operation : Operation}
    (hwithin : operation.Within m.frames.size) :
    m.Trail (host.passed m operation) (host.perform m operation) := by
  have hcall := Plan.sound_callValue host.settings host.settings.maxCallDepth.toNat
  cases operation with
  | installBuiltins =>
    refine Machine.trail_during (fun builtin _ m hsize => ⟨?_, ?_⟩) rfl
    · exact .bind Machine.globals builtin.name ⟨_, false⟩ rfl rfl trivial
    · exact (Frames.size_define _ _).trans hsize
  | install values =>
    refine Machine.trail_during (fun entry hentry m hsize => ⟨?_, ?_⟩) rfl
    · exact m.moves_installValue (hsize ▸ hwithin entry hentry)
    · exact (Frames.size_define _ _).trans hsize
  | define name binding => exact .single (.bind Machine.globals name binding rfl rfl hwithin)
  | interpret program => exact Host.trail_interpret detached hm program
  | execute s =>
    have htrail := ((Plan.sound_execute host.settings hcall s _).treads detached m hm rfl).trail
    rwa [host.run_execute] at htrail
  | evaluate e =>
    have htrail := ((Plan.sound_evaluate hcall e _).treads detached m hm rfl).trail
    rwa [host.run_evaluate] at htrail
  | block body =>
    have hsound := (Plan.sound_executeAll host.settings hcall body (m.frames.size + 1)).inScope
    have htrail := (hsound.treads detached m hm rfl).trail
    rwa [Plan.run_inScope, host.run_executeAll] at htrail
  | call callee paren arguments =>
    have hsound := hcall callee paren arguments m.frames.size hwithin.1 hwithin.2
    have htrail := (hsound.treads detached m hm rfl).trail
    rwa [Plan.plansFor_callValue] at htrail

theorem Host.trail_points : ∀ (operations : List Operation) (m : Machine), m.Forest →
    host.Admits m operations →
    m.Trail (host.points m operations) (operations.foldl host.perform m)
  | [], m, _, _ => .here m
  | operation :: operations, m, hm, ⟨hwithin, hrest⟩ => by
    have hfirst := Host.trail_passed detached hm hwithin
    exact hfirst.append (Host.trail_points operations _ (hfirst.forest_last hm) hrest)

end Sessions

/-- Whatever operations a host performs on a new machine, with values of that machine, whatever it
answers to them and whether they fail or not, if its functions keep off the heap: at every point the
frames form a tree with the global frame as its root, which holds the scope and all that closures
refer to, and in which look-up and assignment find their way outward without coming to a frame
twice; at every later point each frame still has its place in the tree and its names. The values
that come out of an operation are values of the machine again. -/
theorem frames_form_tree (host : Host) (detached : host.natives.Detached) (output : Output)
    (operations : List Operation) (h : host.Admits (Machine.fresh output) operations) :
    let last := operations.foldl host.perform (Machine.fresh output)
    let points := host.points (Machine.fresh output) operations ++ [last]
    (Machine.fresh output).Trail (host.points (Machine.fresh output) operations) last ∧
    (∀ m ∈ points, m.Forest) ∧
    (∀ m ∈ points, ∀ id < m.frames.size, ∀ name,
      m.frames.getHolding id name = some (m.frames.get? id name) ∧
      ∀ value, m.frames.assignHolding id name value = some (m.frames.assign id name value)) ∧
    points.Pairwise (fun m later => m.frames.Grows later.frames) ∧
    (∀ e value after, host.evaluate e last = .ok value after → value.Within after.frames.size) ∧
    ∀ callee paren arguments value after,
      Operation.Within last.frames.size (.call callee paren arguments) →
      host.call callee paren arguments last = .ok value after →
      value.Within after.frames.size := by
  intro last points
  have htrail := Host.trail_points detached operations _ (.fresh output) h
  have hforest := htrail.forest (.fresh output)
  have hlast := (htrail.forest_last (.fresh output)).linked
  have hcall := callValue_ends detached host.settings.maxCallDepth.toNat
  refine ⟨htrail, hforest, fun m hm id hid name => ⟨?_, fun value => ?_⟩, htrail.pairwise,
    fun e value after hrun => ?_, fun callee paren arguments value after hwithin hrun => ?_⟩
  · exact (hforest m hm).getHolding_eq hid name
  · exact (hforest m hm).assignHolding_eq hid name value
  · exact (evaluate_ends host hcall e last hlast).result hrun
  · exact (hcall callee paren arguments last hlast hwithin.1 hwithin.2).result hrun

/-- A session with a program that fails inside a block inside a call, and a host that then binds and
calls a closure of the frame of that call. While it runs, the way outward has three frames. -/
theorem frames_form_tree_failed_program :
    let word (lexeme : String) : Token := ⟨.identifier, lexeme, none, ⟨1, 1⟩⟩
    let program : Program :=
      [.functionDecl (word "f") [] [.block [.expression (.identifier (word "missing"))]],
        .expression (.call (.identifier (word "f")) (word ")") [])]
    let closure : Value := .function ⟨0, word "g", [], [], 1⟩
    let operations : List Operation := [.installBuiltins, .interpret program,
      .define "g" ⟨closure, true⟩, .call closure (word ")") []]
    let host := Host.standard {} fun _ => none
    let m := Machine.fresh (.empty none)
    host.natives.Detached ∧ host.Admits m operations ∧
      ∃ point ∈ host.points m operations ++ [operations.foldl host.perform m],
        point.scope = 3 ∧ point.frames.size = 4 ∧ point.Forest ∧
        point.frames.getHolding 3 "g" = some (point.frames.get? 3 "g") := by
  intro word program closure operations host m
  have hdetached : host.natives.Detached := Natives.detached_builtins _
  have hclosure : closure.Within ((host.perform (host.perform m .installBuiltins)
      (.interpret program)).frames.size) := by
    change 1 < _
    decide +kernel
  have hadmits : host.Admits m operations := by
    refine ⟨trivial, trivial, hclosure, ⟨?_, by simp⟩, trivial⟩
    change 1 < _
    decide +kernel
  obtain ⟨_, hforest, hsearch, _⟩ :=
    frames_form_tree host hdetached (.empty none) operations hadmits
  have hpoint : ∃ point ∈ host.points m operations ++ [operations.foldl host.perform m],
      point.scope = 3 ∧ point.frames.size = 4 := by decide +kernel
  obtain ⟨point, hmem, hscope, hsize⟩ := hpoint
  refine ⟨hdetached, hadmits, point, hmem, hscope, hsize, hforest point hmem, ?_⟩
  exact (hsearch point hmem 3 (by omega) "g").1

end Scriptlet
