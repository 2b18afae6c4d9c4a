import Scriptlet.Proofs.Lockstep
import Scriptlet.Proofs.RenamedTrees
import Scriptlet.Session

/-!
Runs do not depend on where tokens stand. A renaming that keeps all numbers turns the run of a
program on a machine into the run of the renamed program on the renamed machine: the result, the
error and the frames are those of the first run, renamed. So source texts whose programs are the
same without places show the same when they run.
-/

namespace Scriptlet

structure Renaming.KeepsNumbers (r : Renaming) : Prop where
  frame : ∀ id, r.frame id = id
  identity : ∀ i, r.identity i = i

theorem Renaming.keepsNumbers_moving (place : Token → Position) :
    (Renaming.moving place).KeepsNumbers := ⟨fun _ => rfl, fun _ => rfl⟩

def Frames.rename (r : Renaming) (frames : Frames) : Frames := ⟨frames.store.map (Frame.rename r)⟩

def Machine.rename (r : Renaming) (m : Machine) : Machine := { m with frames := m.frames.rename r }

def Renaming.outcome {α : Type} (r : Renaming) (f : α → α) :
    EStateM.Result RuntimeError Machine α → EStateM.Result RuntimeError Machine α
  | .ok x m => .ok (f x) (m.rename r)
  | .error e m => .error (e.rename r) (m.rename r)

@[simp] theorem Frames.frame?_rename (r : Renaming) (frames : Frames) (id : FrameId) :
    (frames.rename r).frame? id = (frames.frame? id).map (Frame.rename r) := by
  simp [Frames.rename, Frames.frame?]

@[simp] theorem Frames.size_rename (r : Renaming) (frames : Frames) :
    (frames.rename r).size = frames.size := by
  simp [Frames.rename, Frames.size]

theorem Frames.ext_frame? {frames frames' : Frames}
    (h : ∀ id, frames.frame? id = frames'.frame? id) : frames = frames' := by
  cases frames
  cases frames'
  congr 1
  exact Array.ext_getElem? h

variable {r : Renaming}

/-- The slots of all functions that a machine stores. -/
def Machine.code (m : Machine) : List Slot :=
  m.frames.store.toList.flatMap fun frame => frame.bindings.flatMap (·.2.value.code)

theorem Machine.rename_self (hr : r.KeepsNumbers) (hg : r.grouped = true) {m : Machine}
    (h : Each (Slot.Stays r) m.code) : m.rename r = m := by
  have hframe : ∀ frame ∈ m.frames.store, frame.rename r = frame := by
    intro frame hmem
    refine Frame.rename_self (fun entry hentry => ?_) fun next _ => hr.frame next
    refine Value.rename_self hg (fun slot hslot => h slot ?_) (fun id _ => hr.frame id)
      fun i _ => hr.identity i
    exact List.mem_flatMap.2 ⟨frame, Array.mem_toList_iff.2 hmem,
      List.mem_flatMap.2 ⟨entry, hentry, hslot⟩⟩
  have hstore : m.frames.store.map (Frame.rename r) = m.frames.store :=
    (Array.map_congr_left hframe).trans (Array.map_id _)
  unfold Machine.rename Frames.rename
  rw [hstore]

/-- Runs on a machine and on the renamed machine, side by side. Nothing is out of reach. -/
def Renaming.KeepsNumbers.pairing (hr : r.KeepsNumbers) (host : Host) (blind : host.natives.Blind)
    (m : Machine) : Pairing where
  names := r
  left := m
  right := m.rename r
  leftHost := host
  rightHost := host
  reached := Set.univ
  entered := Set.univ
  met := Set.univ
  frame_injOn := fun a _ b _ h => by rwa [hr.frame, hr.frame] at h
  identity_injOn := fun a _ b _ h => by rwa [hr.identity, hr.identity] at h
  entered_subset := fun _ h => h
  reserved_iff := fun id _ name => by rw [hr.frame]; exact Iff.rfl
  detached := blind.toDetached
  respects := blind.respects r
  serves := ⟨rfl, fun _ _ => rfl⟩
  holds := ⟨rfl, fun _ _ _ => rfl⟩

namespace Renaming.KeepsNumbers

variable (hr : r.KeepsNumbers) {host : Host} (blind : host.natives.Blind) {m : Machine}

theorem inside_value (v : Value) : v.Inside (hr.pairing host blind m) := by
  cases v with
  | function f => exact ⟨trivial, trivial⟩
  | _ => trivial

theorem starts (m : Machine) : (hr.pairing host blind m).Matches m (m.rename r) where
  stores := {
    upcoming := fun k => ⟨trivial, by
      rw [Machine.rename, Frames.size_rename]
      exact hr.frame _⟩
    same := fun id _ => by
      rw [Machine.rename, Frames.frame?_rename]
      exact congrArg (fun i => (m.frames.frame? i).map (Frame.rename r)) (hr.frame id)
    inside := fun _ _ _ _ => ⟨fun _ _ => trivial, fun _ _ => hr.inside_value blind _⟩
    leftApart := fun _ h => absurd trivial h
    rightApart := fun id h => absurd ⟨id, trivial, hr.frame id⟩ h }
  scope := ⟨trivial, (hr.frame _).symm⟩
  depth := rfl
  watched := ⟨rfl, rfl⟩
  leftReserved := rfl
  rightReserved := rfl
  identities := fun _ => ⟨trivial, hr.identity _⟩
  calls := ⟨0, rfl, rfl⟩
  checks := ⟨0, rfl, rfl⟩
  output := rfl

theorem ends {after after' : Machine} (h : (hr.pairing host blind m).Matches after after') :
    after' = after.rename r := by
  have hframes : after'.frames = after.frames.rename r := by
    refine Frames.ext_frame? fun id => ?_
    rw [Frames.frame?_rename]
    exact (congrArg after'.frames.frame? (hr.frame id)).symm.trans (h.stores.same id trivial)
  have hscope : after'.scope = after.scope := h.scope.2.trans (hr.frame _)
  have hwatched : after'.watched = after.watched := h.watched.2.trans h.watched.1.symm
  have hreserved : after'.reserved = after.reserved := h.rightReserved.trans h.leftReserved.symm
  have hidentity : after'.nextIdentity = after.nextIdentity :=
    ((h.identities 0).2.symm.trans (hr.identity _))
  -- as many calls and checks were made on both sides since the start
  have hcalls : after'.nativeCalls = after.nativeCalls := by
    obtain ⟨k, hleft, hright⟩ := h.calls
    exact hright.trans hleft.symm
  have hchecks : after'.stackChecks = after.stackChecks := by
    obtain ⟨k, hleft, hright⟩ := h.checks
    exact hright.trans hleft.symm
  cases after'
  cases after
  simp only [Machine.rename, Machine.mk.injEq]
  exact ⟨hframes, hscope, h.depth, hwatched, hreserved, hidentity, hcalls, hchecks, h.output⟩

theorem outcome_eq {α : Type} {R : α → α → Prop} {f : α → α} (hf : ∀ x x', R x x' → x' = f x)
    {result result' : EStateM.Result RuntimeError Machine α}
    (h : (hr.pairing host blind m).SameEnd R result result') : result' = r.outcome f result := by
  cases h with
  | ok hx hafter => rw [hf _ _ hx, hr.ends blind hafter, Renaming.outcome]
  | error hafter =>
    rw [hr.ends blind hafter]
    rfl

end Renaming.KeepsNumbers

theorem Machine.global?_rename (hr : r.KeepsNumbers) (m : Machine) (name : String) :
    (m.rename r).global? name = (m.global? name).map (Value.rename r) := by
  have hblind : (Host.standard {} fun _ => none).natives.Blind := Natives.blind_builtins _
  have hsame := ((hr.starts hblind m).stores.nearest? name (Set.mem_univ globals)).1
  change (m.rename r).frames.nearest? (r.frame globals) name =
    (m.frames.nearest? globals name).map (Prod.map r.frame (Binding.rename r)) at hsame
  rw [hr.frame] at hsame
  unfold Machine.global? Frames.get?
  rw [hsame, Option.map_map, Option.map_map]
  rfl

theorem Renaming.keepsNumbers_erasing : Renaming.erasing.KeepsNumbers := keepsNumbers_moving _

section Runs

variable {host : Host} (blind : host.natives.Blind)

include blind

/-- A renamed program on a renamed machine does what the program does on the machine, renamed. -/
theorem Host.interpret_rename (hr : r.KeepsNumbers) (program : Program) (m : Machine) :
    host.interpret (program.rename r) (m.rename r) = r.outcome id (host.interpret program m) := by
  let watched : Machine := { m with watched := true }
  have hcall := callValue_aligned (hr.pairing host blind watched) host.settings.maxCallDepth.toNat
  have hrun : executeAll host host.call (Stmt.renameAll r program) (watched.rename r) =
      r.outcome (Flow.rename r) (executeAll host host.call program watched) :=
    hr.outcome_eq blind (fun _ _ h => h.1)
      (executeAll_aligned hcall program watched (watched.rename r) (hr.starts blind watched))
  have hstart : ({ m.rename r with watched := true } : Machine) = watched.rename r := rfl
  unfold Host.interpret Eval.asProgram Program.rename
  dsimp only
  rw [hstart, hrun]
  cases executeAll host host.call program watched with
  | ok flow after => rfl
  | error e after => rfl

/-- Programs that are the same without places do the same but for places. -/
theorem interpret_of_unplaced {p q : Program} (h : q.unplaced = p.unplaced) (m : Machine) :
    Renaming.erasing.outcome id (host.interpret q m) =
      Renaming.erasing.outcome id (host.interpret p m) := by
  rw [← Host.interpret_rename blind Renaming.keepsNumbers_erasing,
    ← Host.interpret_rename blind Renaming.keepsNumbers_erasing, q.rename_erasing,
    p.rename_erasing, h]

end Runs

theorem compile_eq_ok_iff {source : String} {p : Program} : compile source = .ok p ↔
    Grammar.program (Scan.ofText source).tokens = .ok p ∧ (Scan.ofText source).errors = [] := by
  unfold compile
  dsimp only
  cases hprogram : Grammar.program (Scan.ofText source).tokens with
  | error errors => simp
  | ok q =>
    cases herrors : (Scan.ofText source).errors with
    | nil => simp
    | cons e errors => simp

def reported : EStateM.Result RuntimeError Machine Unit → Except (List Report) Unit × Machine
  | .ok _ m => (.ok (), m)
  | .error e m => (.error [e.report], m)

theorem Host.run_of_compile (host : Host) {source : String} {p : Program}
    (h : compile source = .ok p) (m : Machine) :
    host.run source m = reported (host.interpret p m) := by
  unfold Host.run
  rw [h]
  dsimp only
  cases host.interpret p m <;> rfl

/-- Values that look the same: functions by their names and by how many arguments they take. -/
inductive Value.Alike : Value → Value → Prop where
  | plain {v : Value} (plain : v.Plain) : Alike v v
  | native (f : Native) : Alike (.native f) (.native f)
  | function {f g : Closure} (name : g.name.lexeme = f.name.lexeme)
      (arity : g.parameters.length = f.parameters.length) : Alike (.function f) (.function g)

/-- Runs of two texts that show the same and leave the same but for the places of tokens. -/
structure SameShow (ran reran : Except (List Report) Unit × Machine) : Prop where
  output : reran.2.output = ran.2.output
  messages : reran.1.mapError (·.map Report.message) = ran.1.mapError (·.map Report.message)
  globals : ∀ name, Option.Rel Value.Alike (ran.2.global? name) (reran.2.global? name)
  unplaced : reran.2.rename .erasing = ran.2.rename .erasing

theorem Value.eq_of_rename_plain {r : Renaming} {v w : Value} (h : w.rename r = v)
    (hv : v.Plain) : w = v := by
  subst h
  cases w with
  | function f => cases hv
  | native f => cases hv
  | _ => rfl

theorem Value.alike_of_rename {v w : Value} (h : w.rename .erasing = v.rename .erasing) :
    v.Alike w := by
  cases v with
  | function f =>
    cases w with
    | function g =>
      have hclosure := Value.function.inj h
      have hname := congrArg (fun c : Closure => c.name.lexeme) hclosure
      have harity := congrArg (fun c : Closure => c.parameters.length) hclosure
      exact .function hname (by simpa [Closure.rename] using harity)
    | _ => cases h
  | native f =>
    cases w with
    | native g =>
      have hnative : g = f := Value.native.inj h
      exact hnative ▸ .native g
    | _ => cases h
  | _ =>
    obtain rfl := Value.eq_of_rename_plain h trivial
    exact .plain trivial

theorem Machine.globals_alike {m m' : Machine} (h : m'.rename .erasing = m.rename .erasing)
    (name : String) : Option.Rel Value.Alike (m.global? name) (m'.global? name) := by
  have hglobal := congrArg (·.global? name) h
  simp only [Machine.global?_rename Renaming.keepsNumbers_erasing] at hglobal
  cases hv : m.global? name with
  | none =>
    rw [hv] at hglobal
    rw [Option.map_eq_none_iff.1 hglobal]
    exact .none
  | some v =>
    rw [hv] at hglobal
    obtain ⟨w, hw, hsame⟩ := Option.map_eq_some_iff.1 hglobal
    rw [hw]
    exact .some (Value.alike_of_rename hsame)

theorem sameShow_of_outcome {ended ended' : EStateM.Result RuntimeError Machine Unit}
    (h : Renaming.erasing.outcome id ended' = Renaming.erasing.outcome id ended) :
    SameShow (reported ended) (reported ended') := by
  cases ended with
  | ok _ m =>
    cases ended' with
    | error e' m' => cases h
    | ok _ m' =>
      have hm : m'.rename .erasing = m.rename .erasing := (EStateM.Result.ok.inj h).2
      have houtput := congrArg Machine.output hm
      exact ⟨houtput, rfl, Machine.globals_alike hm, hm⟩
  | error e m =>
    cases ended' with
    | ok _ m' => cases h
    | error e' m' =>
      obtain ⟨he, hm⟩ := EStateM.Result.error.inj h
      have hfault := congrArg RuntimeError.fault he
      have houtput := congrArg Machine.output hm
      simp only [RuntimeError.rename] at hfault
      refine ⟨houtput, ?_, Machine.globals_alike hm, hm⟩
      simp only [reported, Except.mapError, List.map_cons, List.map_nil, RuntimeError.report,
        hfault]

end Scriptlet
