import Scriptlet.Machine
import Scriptlet.Proofs.FrameChains

/-!
Assignment changes the nearest binding of a name and nothing else. The owner of a name, seen from a
frame, is the first frame outward that binds it. Many frames can share an owner, and what is
assigned from one of them is seen from just those; frames that find the name elsewhere see what they
saw. A constant is never passed by: where it is nearest, assignment fails, whatever is bound further
out.
-/

namespace Scriptlet

namespace Frames

variable {frames : Frames} {id owner : FrameId} {ids : List FrameId} {name : String}

/-- The first of some frames that binds a name. -/
def firstBinding (frames : Frames) (name : String) (ids : List FrameId) : Option FrameId :=
  ids.find? fun id => (frames.local? id name).isSome

/-- Whether a frame is the first that binds a name on the way outward from another. -/
def Owner (frames : Frames) (id : FrameId) (name : String) (owner : FrameId) : Prop :=
  ∃ ids, frames.Chain id ids ∧ frames.firstBinding name ids = some owner

theorem Owner.isSome (h : frames.Owner id name owner) : (frames.local? owner name).isSome := by
  obtain ⟨ids, _, hfirst⟩ := h
  unfold firstBinding at hfirst
  simpa using List.find?_some hfirst

theorem Owner.unique {place : FrameId} (h : frames.Owner id name owner)
    (k : frames.Owner id name place) : owner = place := by
  obtain ⟨ids, hids, hfirst⟩ := h
  obtain ⟨more, hmore, hfound⟩ := k
  rw [hids.unique hmore, hfound] at hfirst
  exact (Option.some.inj hfirst).symm

theorem nearestWithin_eq_firstBinding (h : frames.Chain id ids) :
    frames.nearestWithin name ids.length id =
      (frames.firstBinding name ids).bind fun owner =>
        (frames.local? owner name).map (owner, ·) := by
  induction h with
  | @last id frame found outermost =>
    rw [List.length_singleton, nearestWithin_succ name 0 found, firstBinding, List.find?_singleton,
      local?_of_frame found, outermost]
    cases hbound : frame.binding? name with
    | some binding => simp [local?_of_frame found, hbound]
    | none => rfl
  | @more id next frame ids found enclosed rest ih =>
    rw [List.length_cons, nearestWithin_succ name _ found, firstBinding, List.find?_cons,
      local?_of_frame found, enclosed]
    cases hbound : frame.binding? name with
    | some binding => simp [local?_of_frame found, hbound]
    | none => exact ih

theorem nearest?_eq_some_iff (hg : frames.Grounded) {binding : Binding} :
    frames.nearest? id name = some (owner, binding) ↔
      frames.Owner id name owner ∧ frames.local? owner name = some binding := by
  constructor
  · intro h
    obtain ⟨_, hsearch⟩ := exists_search h
    have hid : id < frames.size := by
      cases hsearch with
      | here found _ => exact frame?_eq_some_lt found
      | outward found _ _ _ => exact frame?_eq_some_lt found
    obtain ⟨ids, hids⟩ := hg id hid
    rw [nearest?_of_chain name hids, nearestWithin_eq_firstBinding hids] at h
    obtain ⟨place, hplace, hbound⟩ := Option.bind_eq_some_iff.1 h
    obtain ⟨found, hfound, heq⟩ := Option.map_eq_some_iff.1 hbound
    cases heq
    exact ⟨⟨ids, hids, hplace⟩, hfound⟩
  · rintro ⟨⟨ids, hids, hfirst⟩, hbound⟩
    rw [nearest?_of_chain name hids, nearestWithin_eq_firstBinding hids, hfirst, Option.bind_some,
      hbound, Option.map_some]

theorem nearest?_eq_none_iff (hg : frames.Grounded) :
    frames.nearest? id name = none ↔ ¬∃ owner, frames.Owner id name owner := by
  constructor
  · rintro h ⟨owner, howner⟩
    obtain ⟨binding, hbinding⟩ := Option.isSome_iff_exists.1 howner.isSome
    rw [(nearest?_eq_some_iff hg).2 ⟨howner, hbinding⟩] at h
    cases h
  · intro h
    cases hn : frames.nearest? id name with
    | none => rfl
    | some nearest => exact absurd ⟨nearest.1, ((nearest?_eq_some_iff hg).1 hn).1⟩ h

section Define

variable (hbound : (frames.local? owner name).isSome) (binding : Binding)

include hbound

theorem local?_define_bound (id : FrameId) (other : String) :
    (frames.define owner name binding).local? id other =
      if id = owner ∧ other = name then some binding else frames.local? id other := by
  obtain ⟨old, hold⟩ := Option.isSome_iff_exists.1 hbound
  obtain ⟨frame, hframe, -⟩ := Option.bind_eq_some_iff.1 hold
  by_cases h : id = owner ∧ other = name
  · obtain ⟨rfl, rfl⟩ := h
    rw [if_pos ⟨rfl, rfl⟩, local?_define_same (frame?_eq_some_lt hframe)]
  · rw [if_neg h, local?_define_ne h]

theorem firstBinding_define_bound (other : String) (ids : List FrameId) :
    (frames.define owner name binding).firstBinding other ids = frames.firstBinding other ids := by
  refine congrArg (fun binds => ids.find? binds) (funext fun id => ?_)
  rw [local?_define_bound hbound]
  by_cases h : id = owner ∧ other = name
  · rw [if_pos h, h.1, h.2, hbound, Option.isSome_some]
  · rw [if_neg h]

theorem owner_define_bound (hg : frames.Grounded) {id place : FrameId} {other : String} :
    (frames.define owner name binding).Owner id other place ↔ frames.Owner id other place := by
  constructor
  · rintro ⟨ids, hids, hfirst⟩
    rw [firstBinding_define_bound hbound] at hfirst
    have hid : id < frames.size := by
      cases hids with
      | last found _ => simpa using frame?_eq_some_lt found
      | more found _ _ => simpa using frame?_eq_some_lt found
    obtain ⟨old, hold⟩ := hg id hid
    exact ⟨ids, (hold.define owner name binding).unique hids ▸ hold, hfirst⟩
  · rintro ⟨ids, hids, hfirst⟩
    exact ⟨ids, hids.define owner name binding, by rwa [firstBinding_define_bound hbound]⟩

/-- The change is seen from the frames that share the owner, and from no others. -/
theorem get?_define_bound (hg : frames.Grounded) (id : FrameId) (other : String) :
    (other = name ∧ frames.Owner id other owner →
      (frames.define owner name binding).get? id other = some binding.value) ∧
    (¬(other = name ∧ frames.Owner id other owner) →
      (frames.define owner name binding).get? id other = frames.get? id other) := by
  have hg' := hg.define owner name binding
  constructor
  · rintro ⟨rfl, howner⟩
    have hlocal : (frames.define owner other binding).local? owner other = some binding := by
      rw [local?_define_bound hbound, if_pos ⟨rfl, rfl⟩]
    have hnearest := (nearest?_eq_some_iff hg').2
      ⟨(owner_define_bound hbound binding hg).2 howner, hlocal⟩
    rw [get?, hnearest, Option.map_some]
  · intro hne
    rw [get?, get?]
    cases hn : frames.nearest? id other with
    | none =>
      rw [(nearest?_eq_none_iff hg').2]
      simpa only [owner_define_bound hbound binding hg] using (nearest?_eq_none_iff hg).1 hn
    | some nearest =>
      obtain ⟨howner, hlocal⟩ := (nearest?_eq_some_iff hg).1 hn
      have hplace : ¬(nearest.1 = owner ∧ other = name) :=
        fun ⟨hplace, hname⟩ => hne ⟨hname, hplace ▸ howner⟩
      rw [(nearest?_eq_some_iff hg').2
        ⟨(owner_define_bound hbound binding hg).2 howner, ?_⟩]
      rw [local?_define_bound hbound, if_neg hplace, hlocal]

theorem constant_define_bound (hmutable : ∀ old, frames.local? owner name = some old →
    old.constant = binding.constant) (id : FrameId) (other : String) :
    ((frames.define owner name binding).local? id other).map Binding.constant =
      (frames.local? id other).map Binding.constant := by
  rw [local?_define_bound hbound]
  by_cases h : id = owner ∧ other = name
  · obtain ⟨old, hold⟩ := Option.isSome_iff_exists.1 hbound
    rw [if_pos h, h.1, h.2, hold, Option.map_some, Option.map_some, hmutable old hold]
  · rw [if_neg h]

end Define

theorem enclosing_define (owner : FrameId) (name : String) (binding : Binding) (id : FrameId) :
    ((frames.define owner name binding).frame? id).map Frame.enclosing =
      (frames.frame? id).map Frame.enclosing := by
  rw [frame?_define]
  by_cases h : owner = id
  · rw [if_pos h, Option.map_map]
    rfl
  · rw [if_neg h]

theorem assign_eq_assign (m : Machine) (name : Token) (value : Value) :
    m.frames.assign m.scope name.lexeme value =
      match Eval.assign name value m with
      | .ok _ after => .ok after.frames
      | .error e _ => .error e.fault := by
  unfold assign Eval.assign
  cases m.frames.target m.scope name.lexeme with
  | ok owner => rfl
  | error fault => rfl

end Frames

namespace Eval

variable {m : Machine} {name : Token}

/-- An assignment ends in one of three ways, and the owner of the name decides which. -/
inductive Assigned (name : Token) (value : Value) (m : Machine) : Prop where
  | changed (owner : FrameId) (binding : Binding) (owned : m.frames.Owner m.scope name.lexeme owner)
      (bound : m.frames.local? owner name.lexeme = some binding)
      (mutable : binding.constant = false)
      (result : assign name value m =
        .ok () (m.modifyFrames (·.define owner name.lexeme ⟨value, false⟩)))
  | refused (owner : FrameId) (binding : Binding) (owned : m.frames.Owner m.scope name.lexeme owner)
      (bound : m.frames.local? owner name.lexeme = some binding)
      (constant : binding.constant = true)
      (result : assign name value m = .error ⟨.constantAssignment name.lexeme, name⟩ m)
  | missing (unowned : ¬∃ owner, m.frames.Owner m.scope name.lexeme owner)
      (result : assign name value m = .error ⟨.undefinedVariable name.lexeme, name⟩ m)

theorem assigned (hg : m.frames.Grounded) (name : Token) (value : Value) :
    Assigned name value m := by
  cases hn : m.frames.nearest? m.scope name.lexeme with
  | none =>
    refine .missing ((Frames.nearest?_eq_none_iff hg).1 hn) ?_
    simp only [assign, Frames.target, hn]
  | some nearest =>
    obtain ⟨howner, hlocal⟩ := (Frames.nearest?_eq_some_iff hg).1 hn
    cases hconstant : nearest.2.constant with
    | false =>
      refine .changed nearest.1 nearest.2 howner hlocal hconstant ?_
      simp [assign, Frames.target, hn, hconstant]
    | true =>
      refine .refused nearest.1 nearest.2 howner hlocal hconstant ?_
      simp [assign, Frames.target, hn, hconstant]

theorem lookUp_owned (hg : m.frames.Grounded) {owner : FrameId} {binding : Binding}
    (howner : m.frames.Owner m.scope name.lexeme owner)
    (hbound : m.frames.local? owner name.lexeme = some binding) :
    lookUp name m = .ok binding.value m := by
  have hnearest := (Frames.nearest?_eq_some_iff hg).2 ⟨howner, hbound⟩
  simp only [lookUp, Frames.get, Frames.get?, hnearest, Option.map_some]
  rfl

theorem lookUp_unowned (hg : m.frames.Grounded)
    (h : ¬∃ owner, m.frames.Owner m.scope name.lexeme owner) :
    lookUp name m = .error ⟨.undefinedVariable name.lexeme, name⟩ m := by
  simp only [lookUp, Frames.get, Frames.get?, (Frames.nearest?_eq_none_iff hg).2 h, Option.map_none]
  rfl

end Eval

/-- In every store whose chains end, from every frame: assignment succeeds just if the first frame
outward that binds the name does not bind it as a constant. Then what is assigned is seen from
exactly the frames that find the name in that same frame, all other names and frames show what they
showed, and no binding or link is made, lost or made constant. An assignment that fails changes
nothing, and names the constant or the missing variable; look-up fails in the second case only. -/
theorem assignment_hits_nearest_binding (m : Machine) (hg : m.frames.Grounded) (name : Token)
    (value : Value) :
    let frames := m.frames
    let owned (owner : FrameId) := frames.Owner m.scope name.lexeme owner
    ((∃ after, Eval.assign name value m = .ok () after) ↔ ∃ owner binding, owned owner ∧
      frames.local? owner name.lexeme = some binding ∧ binding.constant = false) ∧
    (∀ owner after, owned owner → Eval.assign name value m = .ok () after →
      after = { m with frames := after.frames } ∧
      (∀ id other,
        (other = name.lexeme ∧ frames.Owner id other owner →
          after.frames.get? id other = some value) ∧
        (¬(other = name.lexeme ∧ frames.Owner id other owner) →
          after.frames.get? id other = frames.get? id other)) ∧
      (∀ id other, (after.frames.local? id other).map Binding.constant =
        (frames.local? id other).map Binding.constant) ∧
      ∀ id, (after.frames.frame? id).map Frame.enclosing =
        (frames.frame? id).map Frame.enclosing) ∧
    (∀ e after, Eval.assign name value m = .error e after → after = m ∧
      (e = ⟨.constantAssignment name.lexeme, name⟩ ↔ ∃ owner, owned owner) ∧
      (e = ⟨.undefinedVariable name.lexeme, name⟩ ↔ ¬∃ owner, owned owner)) ∧
    ((∃ e after, Eval.lookUp name m = .error e after) ↔ ¬∃ owner, owned owner) ∧
    frames.assign m.scope name.lexeme value =
      match Eval.assign name value m with
      | .ok _ after => .ok after.frames
      | .error e _ => .error e.fault := by
  intro frames owned
  have hways := Eval.assigned hg name value
  refine ⟨?_, ?_, ?_, ?_, Frames.assign_eq_assign m name value⟩
  · cases hways with
    | changed owner binding howned hbound hmutable result =>
      exact iff_of_true ⟨_, result⟩ ⟨owner, binding, howned, hbound, hmutable⟩
    | refused owner binding howned hbound hconstant result =>
      refine iff_of_false (by simp [result]) ?_
      rintro ⟨place, other, hplace, hother, hmutable⟩
      obtain rfl := howned.unique hplace
      obtain rfl := Option.some.inj (hbound.symm.trans hother)
      exact Bool.false_ne_true (hmutable.symm.trans hconstant)
    | missing hunowned result =>
      refine iff_of_false (by simp [result]) ?_
      rintro ⟨owner, _, howned, _⟩
      exact hunowned ⟨owner, howned⟩
  · intro place after hplace hafter
    cases hways with
    | changed owner binding howned hbound hmutable result =>
      obtain rfl := howned.unique hplace
      cases result.symm.trans hafter
      refine ⟨rfl, Frames.get?_define_bound howned.isSome ⟨value, false⟩ hg,
        Frames.constant_define_bound howned.isSome _ ?_, Frames.enclosing_define _ _ _⟩
      intro old hold
      obtain rfl := Option.some.inj (hbound.symm.trans hold)
      exact hmutable
    | refused _ _ _ _ _ result => cases result.symm.trans hafter
    | missing _ result => cases result.symm.trans hafter
  · intro e after hafter
    cases hways with
    | changed _ _ _ _ _ result => cases result.symm.trans hafter
    | refused owner _ howned _ _ result =>
      cases result.symm.trans hafter
      exact ⟨rfl, iff_of_true rfl ⟨owner, howned⟩,
        iff_of_false (by simp) fun h => h ⟨owner, howned⟩⟩
    | missing hunowned result =>
      cases result.symm.trans hafter
      exact ⟨rfl, iff_of_false (by simp) hunowned, iff_of_true rfl hunowned⟩
  · by_cases h : ∃ owner, owned owner
    · obtain ⟨owner, howned⟩ := h
      obtain ⟨binding, hbound⟩ := Option.isSome_iff_exists.1 howned.isSome
      refine iff_of_false ?_ (fun hunowned => hunowned ⟨owner, howned⟩)
      simp [Eval.lookUp_owned hg howned hbound]
    · exact iff_of_true ⟨_, _, Eval.lookUp_unowned hg h⟩ h

/-- Two scopes inside the outermost one, which binds a name; one of them binds it again, as a
constant. Assignment from the other goes to the outermost, and from inside the first it is refused.
-/
theorem assignment_hits_nearest_binding_shadowed :
    let x : Token := ⟨.identifier, "x", none, .first⟩
    let frames : Frames := ⟨#[⟨[("x", ⟨.nil, false⟩)], none⟩, ⟨[("x", ⟨.nil, true⟩)], some 0⟩,
      ⟨[], some 0⟩, ⟨[], some 1⟩]⟩
    let m : Machine := { Machine.fresh (.empty none) with frames := frames, scope := 2 }
    let inner : Machine := { m with scope := 3 }
    frames.Grounded ∧
      (∃ after, Eval.assign x (.boolean true) m = .ok () after ∧
        after.frames.get? 0 "x" = some (.boolean true) ∧
        after.frames.get? 2 "x" = some (.boolean true) ∧
        after.frames.get? 3 "x" = frames.get? 3 "x") ∧
      ∃ after, Eval.assign x (.boolean true) inner =
        .error ⟨.constantAssignment "x", x⟩ after ∧ after = inner := by
  intro x frames m inner
  have hroot : frames.Chain 0 [0] := .last rfl rfl
  have hfirst : frames.Chain 1 [1, 0] := .more rfl rfl hroot
  have hsecond : frames.Chain 2 [2, 0] := .more rfl rfl hroot
  have hinner : frames.Chain 3 [3, 1, 0] := .more rfl rfl hfirst
  have hg : frames.Grounded := by
    intro id hid
    match id, hid with
    | 0, _ => exact ⟨_, hroot⟩
    | 1, _ => exact ⟨_, hfirst⟩
    | 2, _ => exact ⟨_, hsecond⟩
    | 3, _ => exact ⟨_, hinner⟩
  have howner : ∀ ids id, frames.Chain id ids → frames.firstBinding "x" ids = some 0 →
      frames.Owner id "x" 0 := fun ids id hids hfound => ⟨ids, hids, hfound⟩
  obtain ⟨hsucceeds, heffect, _⟩ := assignment_hits_nearest_binding m hg x (.boolean true)
  obtain ⟨_, _, hfails, _⟩ := assignment_hits_nearest_binding inner hg x (.boolean true)
  obtain ⟨after, hafter⟩ := hsucceeds.2 ⟨0, _, howner _ _ hsecond rfl, rfl, rfl⟩
  obtain ⟨_, hsees, _⟩ := heffect 0 after (howner _ _ hsecond rfl) hafter
  have hother : ¬frames.Owner 3 "x" 0 := by
    intro h
    cases h.unique ⟨_, hinner, rfl⟩
  refine ⟨hg, ⟨after, hafter, ?_, ?_, ?_⟩, ?_⟩
  · exact (hsees 0 "x").1 ⟨rfl, howner _ _ hroot rfl⟩
  · exact (hsees 2 "x").1 ⟨rfl, howner _ _ hsecond rfl⟩
  · exact (hsees 3 "x").2 fun h => hother h.2
  · have hrefused : Eval.assign x (.boolean true) inner =
        .error ⟨.constantAssignment "x", x⟩ inner := rfl
    exact ⟨inner, hrefused, (hfails _ _ hrefused).1⟩

end Scriptlet
