import Mathlib.Data.List.Nodup
import Mathlib.Data.List.Perm.Subperm
import Mathlib.Tactic.Common
import Scriptlet.Frames

/-!
Names in frames and frames in the store, and chains of enclosing frames. A chain that ends passes no
frame twice, so it is not longer than the store, and looking up a name along it needs no more steps
than that. Neither does a search that finds the name, even in a store with chains that do not end.
New frames and new bindings leave the chains as they are.
-/

namespace Scriptlet

theorem Frame.lookup_cons (name other : String) (binding : Binding)
    (rest : List (String × Binding)) :
    ((name, binding) :: rest).lookup other =
      if other = name then some binding else rest.lookup other := by
  by_cases h : other = name
  · simp [h]
  · simp [List.lookup_cons, h, beq_eq_false_iff_ne.2 h]

theorem Frame.lookup_put (name other : String) (binding : Binding) : ∀ entries,
    (Frame.put name binding entries).lookup other =
      if other = name then some binding else entries.lookup other
  | [] => Frame.lookup_cons name other binding []
  | (first, bound) :: rest => by
    have ih := Frame.lookup_put name other binding rest
    by_cases hfirst : first = name
    · subst hfirst
      simp only [Frame.put, if_true, Frame.lookup_cons]
      by_cases hother : other = first
      · simp only [if_pos hother]
      · simp only [if_neg hother]
    · simp only [Frame.put, if_neg hfirst, Frame.lookup_cons, ih]
      by_cases hother : other = first
      · simp only [if_pos hother, if_neg (hother ▸ hfirst)]
      · simp only [if_neg hother]

theorem Frame.binding?_define (frame : Frame) (name other : String) (binding : Binding) :
    (frame.define name binding).binding? other =
      if other = name then some binding else frame.binding? other :=
  Frame.lookup_put name other binding frame.bindings

namespace Frames

variable {frames : Frames} {id : FrameId} {ids : List FrameId}

theorem frame?_eq_some_lt {frame : Frame} (h : frames.frame? id = some frame) :
    id < frames.size := by
  obtain ⟨hlt, _⟩ := Array.getElem?_eq_some_iff.1 h
  exact hlt

@[simp] theorem size_push (frame : Frame) : (frames.push frame).size = frames.size + 1 := by
  simp [size, push]

@[simp] theorem size_define (name : String) (binding : Binding) :
    (frames.define id name binding).size = frames.size := by
  simp [size, define]

theorem frame?_push (frame : Frame) (other : FrameId) :
    (frames.push frame).frame? other =
      if other = frames.size then some frame else frames.frame? other :=
  Array.getElem?_push

theorem frame?_define (name : String) (binding : Binding) (other : FrameId) :
    (frames.define id name binding).frame? other =
      if id = other then (frames.frame? other).map (·.define name binding)
      else frames.frame? other := by
  simp [frame?, define, Array.getElem?_modify]

theorem local?_of_frame {name : String} {frame : Frame} (found : frames.frame? id = some frame) :
    frames.local? id name = frame.binding? name := by
  rw [local?, found, Option.bind_some]

theorem local?_push (frame : Frame) (other : FrameId) (name : String) :
    (frames.push frame).local? other name =
      if other = frames.size then frame.binding? name else frames.local? other name := by
  unfold local?
  rw [frame?_push]
  by_cases h : other = frames.size
  · rw [if_pos h, if_pos h, Option.bind_some]
  · rw [if_neg h, if_neg h]

theorem local?_define_same {name : String} {binding : Binding} (hid : id < frames.size) :
    (frames.define id name binding).local? id name = some binding := by
  have hframe : frames.frame? id = some frames.store[id] := Array.getElem?_eq_getElem hid
  rw [local?, frame?_define, if_pos rfl, hframe, Option.map_some, Option.bind_some,
    Frame.binding?_define, if_pos rfl]

theorem local?_define_ne {owner : FrameId} {name other : String} {binding : Binding}
    (h : ¬(id = owner ∧ other = name)) :
    (frames.define owner name binding).local? id other = frames.local? id other := by
  unfold local?
  rw [frame?_define]
  by_cases hid : owner = id
  · have hother : other ≠ name := fun hother => h ⟨hid.symm, hother⟩
    rw [if_pos hid, Option.bind_map]
    congr 1
    funext frame
    rw [Function.comp_apply, Frame.binding?_define, if_neg hother]
  · rw [if_neg hid]

/-- Whether all frames are there later, each related to what it was. -/
def Persist (R : FrameId → Frame → Frame → Prop) (frames later : Frames) : Prop :=
  ∀ id frame, frames.frame? id = some frame → ∃ kept, later.frame? id = some kept ∧ R id frame kept

section Persist

variable {R : FrameId → Frame → Frame → Prop} (hrefl : ∀ id frame, R id frame frame)

theorem Persist.trans (htrans : ∀ {id a b c}, R id a b → R id b c → R id a c) {a b c : Frames}
    (h : a.Persist R b) (k : b.Persist R c) : a.Persist R c := by
  intro id frame hframe
  obtain ⟨later, hlater, hfirst⟩ := h id frame hframe
  obtain ⟨last, hlast, hsecond⟩ := k id later hlater
  exact ⟨last, hlast, htrans hfirst hsecond⟩

include hrefl

theorem Persist.refl (frames : Frames) : frames.Persist R frames :=
  fun id frame hframe => ⟨frame, hframe, hrefl id frame⟩

theorem persist_define {name : String} {binding : Binding}
    (h : ∀ frame, frames.frame? id = some frame → R id frame (frame.define name binding)) :
    frames.Persist R (frames.define id name binding) := by
  intro other frame hframe
  rw [frame?_define, hframe]
  by_cases howner : id = other
  · subst howner
    rw [if_pos rfl]
    exact ⟨_, rfl, h frame hframe⟩
  · rw [if_neg howner]
    exact ⟨frame, rfl, hrefl other frame⟩

theorem persist_push (new : Frame) : frames.Persist R (frames.push new) := by
  intro other frame hframe
  rw [frame?_push, if_neg (Nat.ne_of_lt (frame?_eq_some_lt hframe))]
  exact ⟨frame, hframe, hrefl other frame⟩

end Persist

/-- The frames from one outward to the last, which no frame encloses. -/
inductive Chain (frames : Frames) : FrameId → List FrameId → Prop where
  | last {id : FrameId} {frame : Frame} (found : frames.frame? id = some frame)
      (outermost : frame.enclosing = none) : Chain frames id [id]
  | more {id next : FrameId} {frame : Frame} {ids : List FrameId}
      (found : frames.frame? id = some frame) (enclosed : frame.enclosing = some next)
      (rest : Chain frames next ids) : Chain frames id (id :: ids)

/-- Whether every chain ends. -/
def Grounded (frames : Frames) : Prop := ∀ id < frames.size, ∃ ids, frames.Chain id ids

namespace Chain

theorem unique {more : List FrameId} (h : frames.Chain id ids) (k : frames.Chain id more) :
    ids = more := by
  induction h generalizing more with
  | last found outermost =>
    cases k with
    | last => rfl
    | more found' enclosed _ => simp_all
  | more found enclosed _ ih =>
    cases k with
    | last found' outermost => simp_all
    | more found' enclosed' rest =>
      rw [found] at found'
      obtain rfl := Option.some.inj found'
      rw [enclosed] at enclosed'
      obtain rfl := Option.some.inj enclosed'
      rw [ih rest]

theorem of_mem (h : frames.Chain id ids) {other : FrameId} (hm : other ∈ ids) :
    ∃ before rest, ids = before ++ rest ∧ frames.Chain other rest := by
  induction h with
  | @last id frame found outermost =>
    obtain rfl := List.mem_singleton.1 hm
    exact ⟨[], _, rfl, .last found outermost⟩
  | @more id next frame ids found enclosed rest ih =>
    rcases List.mem_cons.1 hm with rfl | hm
    · exact ⟨[], _, rfl, .more found enclosed rest⟩
    · obtain ⟨before, after, rfl, hafter⟩ := ih hm
      exact ⟨id :: before, after, rfl, hafter⟩

theorem nodup (h : frames.Chain id ids) : ids.Nodup := by
  induction h with
  | last => simp
  | @more id next frame ids found enclosed rest ih =>
    refine List.nodup_cons.2 ⟨fun hm => ?_, ih⟩
    -- a frame that comes again would have two chains of different lengths
    obtain ⟨before, after, rfl, hafter⟩ := rest.of_mem hm
    have hlength := congrArg List.length (hafter.unique (.more found enclosed rest))
    simp at hlength
    omega

theorem lt_size (h : frames.Chain id ids) : ∀ other ∈ ids, other < frames.size := by
  induction h with
  | last found _ => simpa using frame?_eq_some_lt found
  | more found _ _ ih => simpa [frame?_eq_some_lt found] using ih

theorem length_le (h : frames.Chain id ids) : ids.length ≤ frames.size := by
  have hsub : ids ⊆ List.range frames.size := fun other hm => List.mem_range.2 (h.lt_size other hm)
  simpa using (h.nodup.subperm hsub).length_le

end Chain

theorem nearestWithin_succ (name : String) (steps : Nat) {frame : Frame}
    (found : frames.frame? id = some frame) :
    frames.nearestWithin name (steps + 1) id =
      match frame.binding? name with
      | some binding => some (id, binding)
      | none => frame.enclosing.bind (frames.nearestWithin name steps) := by
  simp only [nearestWithin, found]
  rfl

/-- Looking up a name takes at most as many steps as its chain has frames. -/
theorem nearestWithin_of_chain (name : String) (h : frames.Chain id ids) {steps : Nat}
    (hs : ids.length ≤ steps) :
    frames.nearestWithin name steps id = frames.nearestWithin name ids.length id := by
  induction h generalizing steps with
  | last found outermost =>
    obtain ⟨steps, rfl⟩ := Nat.exists_eq_add_of_le' hs
    simp only [List.length_cons, List.length_nil, nearestWithin_succ name _ found, outermost]
    rfl
  | @more id next frame ids found enclosed rest ih =>
    obtain ⟨steps, rfl⟩ := Nat.exists_eq_add_of_le' (Nat.le_trans (Nat.succ_pos _) hs)
    simp only [List.length_cons, nearestWithin_succ name _ found, enclosed, Option.bind_some,
      ih (by simpa using hs)]

theorem nearest?_of_chain (name : String) (h : frames.Chain id ids) :
    frames.nearest? id name = frames.nearestWithin name ids.length id :=
  nearestWithin_of_chain name h h.length_le

/-- The frames passed on the way outward to the nearest binding of a name, its own frame last. -/
inductive Search (frames : Frames) (name : String) :
    FrameId → List FrameId → FrameId × Binding → Prop where
  | here {id : FrameId} {frame : Frame} {binding : Binding} (found : frames.frame? id = some frame)
      (bound : frame.binding? name = some binding) : Search frames name id [id] (id, binding)
  | outward {id next : FrameId} {frame : Frame} {ids : List FrameId} {nearest : FrameId × Binding}
      (found : frames.frame? id = some frame) (unbound : frame.binding? name = none)
      (enclosed : frame.enclosing = some next) (rest : Search frames name next ids nearest) :
      Search frames name id (id :: ids) nearest

theorem exists_search {name : String} {nearest : FrameId × Binding} :
    ∀ {steps id}, frames.nearestWithin name steps id = some nearest →
      ∃ ids, frames.Search name id ids nearest
  | 0, _, h => by cases h
  | steps + 1, id, h => by
    cases hframe : frames.frame? id with
    | none => simp [nearestWithin, hframe] at h
    | some frame =>
      rw [nearestWithin_succ name steps hframe] at h
      split at h
      next binding hbound =>
        cases h
        exact ⟨[id], .here hframe hbound⟩
      next hunbound =>
        obtain ⟨next, henclosing, hnext⟩ := Option.bind_eq_some_iff.1 h
        obtain ⟨ids, hids⟩ := exists_search hnext
        exact ⟨id :: ids, .outward hframe hunbound henclosing hids⟩

namespace Search

variable {name : String} {nearest : FrameId × Binding}

theorem unique {more : List FrameId} (h : frames.Search name id ids nearest)
    (k : frames.Search name id more nearest) : ids = more := by
  induction h generalizing more with
  | here found bound =>
    cases k with
    | here => rfl
    | outward found' unbound _ _ => simp_all
  | outward found unbound enclosed _ ih =>
    cases k with
    | here found' bound => simp_all
    | outward found' _ enclosed' rest =>
      rw [found] at found'
      obtain rfl := Option.some.inj found'
      rw [enclosed] at enclosed'
      obtain rfl := Option.some.inj enclosed'
      rw [ih rest]

theorem of_mem (h : frames.Search name id ids nearest) {other : FrameId} (hm : other ∈ ids) :
    ∃ rest, rest.length ≤ ids.length ∧ frames.Search name other rest nearest := by
  induction h with
  | @here id frame binding found bound =>
    obtain rfl := List.mem_singleton.1 hm
    exact ⟨[_], Nat.le_refl _, .here found bound⟩
  | @outward id next frame ids nearest found unbound enclosed rest ih =>
    rcases List.mem_cons.1 hm with rfl | hm
    · exact ⟨_, Nat.le_refl _, .outward found unbound enclosed rest⟩
    · obtain ⟨after, hlength, hafter⟩ := ih hm
      exact ⟨after, Nat.le_succ_of_le hlength, hafter⟩

theorem nodup (h : frames.Search name id ids nearest) : ids.Nodup := by
  induction h with
  | here => simp
  | @outward id next frame ids nearest found unbound enclosed rest ih =>
    refine List.nodup_cons.2 ⟨fun hm => ?_, ih⟩
    -- a frame that comes again would have two searches of different lengths
    obtain ⟨after, hlength, hafter⟩ := rest.of_mem hm
    have heq := congrArg List.length (hafter.unique (.outward found unbound enclosed rest))
    simp at heq
    omega

theorem lt_size (h : frames.Search name id ids nearest) : ∀ other ∈ ids, other < frames.size := by
  induction h with
  | here found _ => simpa using frame?_eq_some_lt found
  | outward found _ _ _ ih => simpa [frame?_eq_some_lt found] using ih

theorem length_le (h : frames.Search name id ids nearest) : ids.length ≤ frames.size := by
  have hsub : ids ⊆ List.range frames.size := fun other hm => List.mem_range.2 (h.lt_size other hm)
  simpa using (h.nodup.subperm hsub).length_le

theorem nearestWithin_eq (h : frames.Search name id ids nearest) {steps : Nat}
    (hs : ids.length ≤ steps) : frames.nearestWithin name steps id = some nearest := by
  induction h generalizing steps with
  | here found bound =>
    obtain ⟨steps, rfl⟩ := Nat.exists_eq_add_of_le' hs
    rw [List.length_singleton, nearestWithin_succ name _ found, bound]
  | outward found unbound enclosed _ ih =>
    obtain ⟨steps, rfl⟩ := Nat.exists_eq_add_of_le' (Nat.le_trans (Nat.succ_pos _) hs)
    rw [nearestWithin_succ name _ found, unbound, enclosed, Option.bind_some,
      ih (by simpa using hs)]

end Search

/-- More steps than there are frames find no more names, whether or not the chains end. -/
theorem nearestWithin_of_size_le (name : String) {steps : Nat} (hs : frames.size ≤ steps) :
    frames.nearestWithin name steps id = frames.nearest? id name := by
  cases hn : frames.nearest? id name with
  | some nearest =>
    obtain ⟨ids, hids⟩ := exists_search hn
    exact hids.nearestWithin_eq (Nat.le_trans hids.length_le hs)
  | none =>
    cases hw : frames.nearestWithin name steps id with
    | none => rfl
    | some nearest =>
      obtain ⟨ids, hids⟩ := exists_search hw
      have hfound : frames.nearest? id name = some nearest := hids.nearestWithin_eq hids.length_le
      rw [hn] at hfound
      cases hfound

theorem Chain.push (h : frames.Chain id ids) (frame : Frame) :
    (frames.push frame).Chain id ids := by
  have old : ∀ {other found}, frames.frame? other = some found →
      (frames.push frame).frame? other = some found := by
    intro other found hf
    rw [frame?_push, if_neg (Nat.ne_of_lt (frame?_eq_some_lt hf)), hf]
  induction h with
  | last found outermost => exact .last (old found) outermost
  | more found enclosed _ ih => exact .more (old found) enclosed ih

theorem Chain.define (h : frames.Chain id ids) (owner : FrameId) (name : String)
    (binding : Binding) : (frames.define owner name binding).Chain id ids := by
  have same : ∀ {other found}, frames.frame? other = some found →
      ∃ frame, (frames.define owner name binding).frame? other = some frame ∧
        frame.enclosing = found.enclosing := by
    intro other found hf
    rw [frame?_define, hf]
    split
    · exact ⟨_, rfl, rfl⟩
    · exact ⟨_, rfl, rfl⟩
  induction h with
  | last found outermost =>
    obtain ⟨frame, hframe, henclosing⟩ := same found
    exact .last hframe (henclosing.trans outermost)
  | more found enclosed _ ih =>
    obtain ⟨frame, hframe, henclosing⟩ := same found
    exact .more hframe (henclosing.trans enclosed) ih

theorem Grounded.define (h : frames.Grounded) (owner : FrameId) (name : String)
    (binding : Binding) : (frames.define owner name binding).Grounded := by
  intro other hlt
  obtain ⟨ids, hids⟩ := h other (by simpa using hlt)
  exact ⟨ids, hids.define owner name binding⟩

theorem Grounded.push (h : frames.Grounded) (frame : Frame)
    (henclosing : ∀ next ∈ frame.enclosing, next < frames.size) :
    (frames.push frame).Grounded := by
  intro other hlt
  rw [size_push] at hlt
  rcases Nat.lt_succ_iff_lt_or_eq.1 hlt with hlt | rfl
  · obtain ⟨ids, hids⟩ := h other hlt
    exact ⟨ids, hids.push frame⟩
  · have hnew : (frames.push frame).frame? frames.size = some frame := by simp [frame?_push]
    cases hnext : frame.enclosing with
    | none => exact ⟨_, .last hnew hnext⟩
    | some next =>
      obtain ⟨ids, hids⟩ := h next (henclosing next hnext)
      exact ⟨_, .more hnew hnext (hids.push frame)⟩

end Frames
end Scriptlet
