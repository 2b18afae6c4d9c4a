import Scriptlet.Proofs.RenamedTrees

/-!
Stores that are the same but for padding. Each frame of the first store has a place in the second,
where it binds the same names to the same values, and the frames that the second store has besides
are empty or out of reach: wherever a frame is enclosed by another one, there may be some of them in
between. Looking up a name passes them by.
-/

namespace Scriptlet

/-- Where the frames of one store stand in another. The global frame stands in its own place. -/
structure Padding where
  places : List FrameId
  nodup : places.Nodup
  globals : places.head? = some Machine.globals

namespace Padding

instance : LE Padding := ⟨fun p q => p.places <+: q.places⟩

def size (p : Padding) : Nat := p.places.length

def frame (p : Padding) (id : FrameId) : FrameId := p.places.getD id 0

/-- Frames under the numbers of their places; all else keeps its name. -/
def names (p : Padding) : Renaming where
  place := Token.position
  grouped := true
  frame := p.frame
  identity := id

def extend (p : Padding) (place : FrameId) (h : place ∉ p.places) : Padding where
  places := p.places ++ [place]
  nodup := p.nodup.append (List.nodup_singleton place) (List.disjoint_singleton.2 h)
  globals := by
    have hglobals := p.globals
    cases hplaces : p.places with
    | nil => simp [hplaces] at hglobals
    | cons first rest => simpa [hplaces] using hglobals

def own (size : Nat) (h : 0 < size) : Padding where
  places := List.range size
  nodup := List.nodup_range
  globals := by
    obtain ⟨size, rfl⟩ := Nat.exists_eq_add_of_le' h
    rw [List.range_succ_eq_map]
    rfl

variable {p q r : Padding} {id : FrameId}

theorem le_refl (p : Padding) : p ≤ p := List.prefix_rfl

theorem le_trans (h : p ≤ q) (k : q ≤ r) : p ≤ r := List.IsPrefix.trans h k

theorem le_extend (p : Padding) {place : FrameId} (h : place ∉ p.places) : p ≤ p.extend place h :=
  List.prefix_append _ _

theorem size_le (h : p ≤ q) : p.size ≤ q.size := List.IsPrefix.length_le h

@[simp] theorem size_extend (p : Padding) {place : FrameId} (h : place ∉ p.places) :
    (p.extend place h).size = p.size + 1 := by
  simp [size, extend]

theorem size_pos (p : Padding) : 0 < p.size := by
  have hglobals := p.globals
  cases hplaces : p.places with
  | nil => simp [hplaces] at hglobals
  | cons first rest => simp [size, hplaces]

theorem frame_globals (p : Padding) : p.frame Machine.globals = Machine.globals := by
  have hglobals := p.globals
  cases hplaces : p.places with
  | nil => simp [hplaces] at hglobals
  | cons first rest => simpa [frame, hplaces, Machine.globals] using hglobals

theorem frame_mem (hid : id < p.size) : p.frame id ∈ p.places := by
  rw [frame, List.getD_eq_getElem _ _ hid]
  exact List.getElem_mem hid

theorem exists_frame {place : FrameId} (h : place ∈ p.places) :
    ∃ id < p.size, p.frame id = place := by
  obtain ⟨id, hid, hplace⟩ := List.getElem_of_mem h
  exact ⟨id, hid, by rw [frame, List.getD_eq_getElem _ _ hid, hplace]⟩

theorem frame_inj {other : FrameId} (hid : id < p.size) (hother : other < p.size)
    (h : p.frame id = p.frame other) : id = other := by
  rw [frame, frame, List.getD_eq_getElem _ _ hid, List.getD_eq_getElem _ _ hother] at h
  exact (p.nodup.getElem_inj_iff).1 h

theorem frame_of_le (h : p ≤ q) (hid : id < p.size) : q.frame id = p.frame id := by
  obtain ⟨more, hmore⟩ := h
  rw [frame, frame, ← hmore, List.getD_append _ _ _ _ hid]

theorem frame_extend (p : Padding) {place : FrameId} (h : place ∉ p.places) :
    (p.extend place h).frame p.size = place := by
  simp [frame, extend, size]

theorem size_own {size : Nat} (h : 0 < size) : (own size h).size = size := List.length_range

theorem frame_own {size : Nat} (h : 0 < size) (hid : id < size) : (own size h).frame id = id := by
  simp [frame, own, hid]

theorem renameAll_names (p : Padding) (body : List Stmt) : Stmt.renameAll p.names body = body := by
  refine Stmt.renameAll_self rfl body fun slot _ => ?_
  cases slot with
  | token kept => rfl
  | _ => trivial

theorem closure_names (p : Padding) (f : Closure) :
    f.rename p.names = { f with scope := p.frame f.scope } := by
  have hparameters : f.parameters.map p.names.token = f.parameters := List.map_id _
  unfold Closure.rename
  rw [hparameters, p.renameAll_names]
  rfl

theorem rename_of_le (h : p ≤ q) {v : Value} (hv : v.Within p.size) :
    v.rename q.names = v.rename p.names := by
  cases v with
  | function f => rw [Value.rename, Value.rename, closure_names, closure_names, frame_of_le h hv]
  | _ => rfl

/-- A value and the same value with its frame in the place it has. -/
structure Values (p : Padding) (v v' : Value) : Prop where
  renamed : v' = v.rename p.names
  within : v.Within p.size

structure Lists (p : Padding) (vs vs' : List Value) : Prop where
  renamed : vs' = vs.map (Value.rename p.names)
  within : ∀ v ∈ vs, v.Within p.size

inductive Flows (p : Padding) : Flow → Flow → Prop where
  | normal : Flows p .normal .normal
  | returning {v v' : Value} (value : p.Values v v') : Flows p (.returning v) (.returning v')

theorem Values.mono {v v' : Value} (h : p.Values v v') (hle : p ≤ q) : q.Values v v' :=
  ⟨h.renamed.trans (rename_of_le hle h.within).symm, h.within.mono (size_le hle)⟩

theorem Lists.mono {vs vs' : List Value} (h : p.Lists vs vs') (hle : p ≤ q) : q.Lists vs vs' := by
  refine ⟨?_, fun v hv => (h.within v hv).mono (size_le hle)⟩
  rw [h.renamed]
  exact List.map_congr_left fun v hv => (rename_of_le hle (h.within v hv)).symm

theorem Lists.cons {v v' : Value} {vs vs' : List Value} (h : p.Lists vs vs') (hv : p.Values v v') :
    p.Lists (v :: vs) (v' :: vs') :=
  ⟨by rw [h.renamed, hv.renamed, List.map_cons],
    List.forall_mem_cons.2 ⟨hv.within, h.within⟩⟩

theorem Values.plain (p : Padding) {v : Value} (h : v.Plain) : p.Values v v :=
  ⟨h.rename.symm, h.within p.size⟩

theorem equals_names (p : Padding) (v w : Value) :
    (v.rename p.names).equals (w.rename p.names) = v.equals w := by
  have hinj : Set.univ.InjOn p.names.identity := Function.injective_id.injOn
  exact Value.equals_rename hinj (fun _ _ => trivial) fun _ _ => trivial

/-- Whether a frame leads to the place of another one, past empty frames that are no places. -/
inductive Leads (p : Padding) (frames : Frames) (id : FrameId) : FrameId → Prop where
  | here (known : id < p.size) : Leads p frames id (p.frame id)
  | past {pad next : FrameId} (apart : pad ∉ p.places)
      (empty : frames.frame? pad = some ⟨[], some next⟩) (rest : Leads p frames id next) :
      Leads p frames id pad

/-- A frame and the same frame in its place, in a store with padding. -/
structure Alike (p : Padding) (frames : Frames) (frame frame' : Frame) : Prop where
  bindings : frame'.bindings = (frame.rename p.names).bindings
  values : ∀ entry ∈ frame.bindings, entry.2.value.Within p.size
  enclosing : Option.Rel (p.Leads frames) frame.enclosing frame'.enclosing

structure Stores (p : Padding) (frames frames' : Frames) : Prop where
  size : frames.size = p.size
  same : ∀ id frame, frames.frame? id = some frame →
    ∃ frame', frames'.frame? (p.frame id) = some frame' ∧ p.Alike frames' frame frame'

theorem Leads.of_eq {frames : Frames} {id' : FrameId} (hid : id < p.size) (h : p.frame id = id') :
    p.Leads frames id id' := by
  subst h
  exact .here hid

section Own

variable {size : Nat} (hpos : 0 < size)

theorem rename_own {v : Value} (hv : v.Within size) : v.rename (own size hpos).names = v := by
  cases v with
  | function f => rw [Value.rename, closure_names, frame_own hpos hv]
  | _ => rfl

theorem leads_own (frames : Frames) (hid : id < size) : (own size hpos).Leads frames id id :=
  .of_eq ((size_own hpos).symm ▸ hid) (frame_own hpos hid)

theorem alike_own (frames : Frames) {frame : Frame} (h : frame.Linked size) :
    (own size hpos).Alike frames frame frame := by
  refine ⟨?_, fun entry he => ?_, ?_⟩
  · refine ((List.map_congr_left fun entry he => ?_).trans (List.map_id _)).symm
    rw [Binding.rename, rename_own hpos (h.values entry he)]
    rfl
  · exact (h.values entry he).mono (Nat.le_of_eq (size_own hpos).symm)
  · cases henclosing : frame.enclosing with
    | none => exact .none
    | some next => exact .some (leads_own hpos frames (h.enclosing next henclosing))

end Own

theorem stores_own {frames : Frames} (hpos : 0 < frames.size)
    (h : ∀ id frame, frames.frame? id = some frame → frame.Linked frames.size) :
    (own frames.size hpos).Stores frames frames := by
  refine ⟨(size_own hpos).symm, fun id frame hframe => ?_⟩
  rw [frame_own hpos (Frames.frame?_eq_some_lt hframe)]
  exact ⟨frame, hframe, alike_own hpos frames (h id frame hframe)⟩

/-- Whether places only get more, and frames that are no places stay as they are. -/
structure Kept (p q : Padding) (frames later : Frames) : Prop where
  le : p ≤ q
  apart : ∀ pad ∉ p.places, ∀ frame, frames.frame? pad = some frame →
    pad ∉ q.places ∧ later.frame? pad = some frame

variable {frames frames' later : Frames}

theorem Kept.refl (p : Padding) (frames : Frames) : p.Kept p frames frames :=
  ⟨p.le_refl, fun _ hpad _ hframe => ⟨hpad, hframe⟩⟩

theorem Kept.trans {last : Frames} (h : p.Kept q frames later) (k : q.Kept r later last) :
    p.Kept r frames last := by
  refine ⟨le_trans h.le k.le, fun pad hpad frame hframe => ?_⟩
  obtain ⟨hapart, hlater⟩ := h.apart pad hpad frame hframe
  exact k.apart pad hapart frame hlater

theorem Leads.known {id' : FrameId} (h : p.Leads frames id id') : id < p.size := by
  induction h with
  | here known => exact known
  | past _ _ _ ih => exact ih

theorem Leads.kept {id' : FrameId} (h : p.Leads frames id id') (k : p.Kept q frames later) :
    q.Leads later id id' := by
  induction h with
  | here known =>
    rw [← frame_of_le k.le known]
    exact .here (Nat.lt_of_lt_of_le known (size_le k.le))
  | past apart empty _ ih =>
    obtain ⟨hapart, hlater⟩ := k.apart _ apart _ empty
    exact .past hapart hlater ih

theorem Leads.kept_outer {outer outer' : Option FrameId}
    (h : Option.Rel (p.Leads frames) outer outer') (k : p.Kept q frames later) :
    Option.Rel (q.Leads later) outer outer' := by
  cases h with
  | none => exact .none
  | some leads => exact .some (leads.kept k)

theorem Alike.kept {frame frame' : Frame} (h : p.Alike frames frame frame')
    (k : p.Kept q frames later) : q.Alike later frame frame' := by
  refine ⟨?_, fun entry he => (h.values entry he).mono (size_le k.le), ?_⟩
  · rw [h.bindings]
    refine List.map_congr_left fun entry he => ?_
    rw [Binding.rename, Binding.rename, rename_of_le k.le (h.values entry he)]
  · exact Leads.kept_outer h.enclosing k

theorem kept_push (p : Padding) (frames : Frames) (frame : Frame) :
    p.Kept p frames (frames.push frame) := by
  refine ⟨p.le_refl, fun pad hpad found hfound => ⟨hpad, ?_⟩⟩
  rw [Frames.frame?_push, if_neg (Nat.ne_of_lt (Frames.frame?_eq_some_lt hfound)), hfound]

theorem kept_extend (p : Padding) (h : frames.size ∉ p.places) (frame : Frame) :
    p.Kept (p.extend frames.size h) frames (frames.push frame) := by
  refine ⟨p.le_extend h, fun pad hpad found hfound => ⟨?_, ?_⟩⟩
  · have hne := Nat.ne_of_lt (Frames.frame?_eq_some_lt hfound)
    simpa [extend, hne] using hpad
  · exact ((p.kept_push frames frame).apart pad hpad found hfound).2

theorem kept_define {owner : FrameId} (howner : owner < p.size) (frames : Frames) (name : String)
    (binding : Binding) : p.Kept p frames (frames.define (p.frame owner) name binding) := by
  refine ⟨p.le_refl, fun pad hpad found hfound => ⟨hpad, ?_⟩⟩
  have hne : p.frame owner ≠ pad := fun heq => hpad (heq ▸ frame_mem howner)
  rw [Frames.frame?_define, if_neg hne, hfound]

namespace Stores

theorem exists_alike (h : p.Stores frames frames') (hid : id < p.size) :
    ∃ frame frame', frames.frame? id = some frame ∧
      frames'.frame? (p.frame id) = some frame' ∧ p.Alike frames' frame frame' := by
  rw [← h.size] at hid
  have hframe : frames.frame? id = some _ := Array.getElem?_eq_getElem hid
  obtain ⟨frame', hframe', halike⟩ := h.same id _ hframe
  exact ⟨_, frame', hframe, hframe', halike⟩

theorem lt_size (h : p.Stores frames frames') : ∀ place ∈ p.places, place < frames'.size := by
  intro place hplace
  obtain ⟨id, hid, rfl⟩ := exists_frame hplace
  obtain ⟨_, _, _, hframe', _⟩ := h.exists_alike hid
  exact Frames.frame?_eq_some_lt hframe'

theorem next_apart (h : p.Stores frames frames') : frames'.size ∉ p.places :=
  fun hmem => Nat.lt_irrefl _ (h.lt_size _ hmem)

theorem push (h : p.Stores frames frames') {frame frame' : Frame}
    (hframe : p.Alike frames' frame frame') :
    (p.extend frames'.size h.next_apart).Stores (frames.push frame) (frames'.push frame') := by
  have hkept := p.kept_extend h.next_apart frame'
  refine ⟨by rw [Frames.size_push, size_extend, h.size], fun id found hfound => ?_⟩
  rw [Frames.frame?_push] at hfound
  split at hfound
  next hnew =>
    obtain rfl := Option.some.inj hfound
    rw [hnew, h.size, frame_extend, Frames.frame?_push, if_pos rfl]
    exact ⟨frame', rfl, hframe.kept hkept⟩
  next =>
    have hid : id < p.size := h.size ▸ Frames.frame?_eq_some_lt hfound
    obtain ⟨found', hfound', halike⟩ := h.same id found hfound
    have hne := Nat.ne_of_lt (Frames.frame?_eq_some_lt hfound')
    rw [frame_of_le hkept.le hid, Frames.frame?_push, if_neg hne]
    exact ⟨found', hfound', halike.kept hkept⟩

theorem pad (h : p.Stores frames frames') (frame' : Frame) :
    p.Stores frames (frames'.push frame') := by
  refine ⟨h.size, fun id found hfound => ?_⟩
  obtain ⟨found', hfound', halike⟩ := h.same id found hfound
  have hne := Nat.ne_of_lt (Frames.frame?_eq_some_lt hfound')
  rw [Frames.frame?_push, if_neg hne]
  exact ⟨found', hfound', halike.kept (p.kept_push frames' frame')⟩

theorem define (h : p.Stores frames frames') {owner : FrameId} (howner : owner < p.size)
    (name : String) {binding : Binding} (hb : binding.value.Within p.size) :
    p.Stores (frames.define owner name binding)
      (frames'.define (p.frame owner) name (binding.rename p.names)) := by
  have hkept := kept_define howner frames' name (binding.rename p.names)
  refine ⟨by rw [Frames.size_define, h.size], fun id found hfound => ?_⟩
  rw [Frames.frame?_define] at hfound ⊢
  split at hfound
  next hsame =>
    obtain ⟨old, hold, rfl⟩ := Option.map_eq_some_iff.1 hfound
    obtain ⟨old', hold', halike⟩ := h.same id old hold
    have hlater := halike.kept hkept
    rw [if_pos (congrArg p.frame hsame), hold']
    refine ⟨_, rfl, ?_, Frame.values_define hlater.values name hb, hlater.enclosing⟩
    rw [← Frame.define_rename]
    exact congrArg (Frame.put name (binding.rename p.names)) halike.bindings
  next hother =>
    have hid : id < p.size := h.size ▸ Frames.frame?_eq_some_lt hfound
    obtain ⟨found', hfound', halike⟩ := h.same id found hfound
    rw [if_neg fun heq => hother (frame_inj howner hid heq)]
    exact ⟨found', hfound', halike.kept hkept⟩

end Stores

theorem Alike.binding? {frame frame' : Frame} (h : p.Alike frames frame frame') (name : String) :
    frame'.binding? name = (frame.binding? name).map (Binding.rename p.names) := by
  rw [← Frame.binding?_rename]
  exact congrArg (List.lookup name) h.bindings

/-- What is found from the place of a frame is found from all frames that lead there. -/
theorem Leads.search {name : String} {nearest : FrameId × Binding} {id' : FrameId}
    (h : p.Leads frames id id') (k : ∃ ids, frames.Search name (p.frame id) ids nearest) :
    ∃ ids, frames.Search name id' ids nearest := by
  induction h with
  | here _ => exact k
  | past _ empty _ ih =>
    obtain ⟨ids, hids⟩ := ih
    exact ⟨_, .outward empty rfl rfl hids⟩

namespace Stores

variable {name : String}

theorem search (h : p.Stores frames frames') {ids : List FrameId} {nearest : FrameId × Binding}
    (k : frames.Search name id ids nearest) :
    nearest.1 < p.size ∧ nearest.2.value.Within p.size ∧
      ∃ ids', frames'.Search name (p.frame id) ids'
        (p.frame nearest.1, nearest.2.rename p.names) := by
  induction k with
  | @here id frame binding found bound =>
    obtain ⟨frame', found', halike⟩ := h.same _ _ found
    have hbound' := halike.binding? name
    rw [bound] at hbound'
    exact ⟨h.size ▸ Frames.frame?_eq_some_lt found,
      halike.values _ (Frame.mem_of_binding? bound), _, .here found' hbound'⟩
  | @outward id next frame ids nearest found unbound enclosed _ ih =>
    obtain ⟨frame', found', halike⟩ := h.same _ _ found
    have hunbound' := halike.binding? name
    rw [unbound] at hunbound'
    obtain ⟨howner, hwithin, hrest⟩ := ih
    refine ⟨howner, hwithin, ?_⟩
    have henclosing := halike.enclosing
    rw [enclosed] at henclosing
    generalize houter : frame'.enclosing = outer at henclosing
    cases henclosing with
    | some leads =>
      obtain ⟨ids', hids'⟩ := leads.search hrest
      exact ⟨_, .outward found' hunbound' houter hids'⟩

theorem search_back (h : p.Stores frames frames') {id' : FrameId} {ids' : List FrameId}
    {nearest' : FrameId × Binding} (k : frames'.Search name id' ids' nearest')
    (hid : p.Leads frames' id id') : ∃ ids nearest, frames.Search name id ids nearest := by
  induction k generalizing id with
  | here found' bound' =>
    cases hid with
    | past _ empty _ =>
      obtain rfl := Option.some.inj (empty.symm.trans found')
      cases bound'
    | here known =>
      obtain ⟨frame, frame', found, hfound', halike⟩ := h.exists_alike known
      obtain rfl := Option.some.inj (hfound'.symm.trans found')
      rw [halike.binding? name] at bound'
      obtain ⟨binding, bound, _⟩ := Option.map_eq_some_iff.1 bound'
      exact ⟨_, _, .here found bound⟩
  | outward found' unbound' enclosed' _ ih =>
    cases hid with
    | past _ empty rest =>
      obtain rfl := Option.some.inj (empty.symm.trans found')
      obtain rfl := Option.some.inj enclosed'
      exact ih rest
    | here known =>
      obtain ⟨frame, frame', found, hfound', halike⟩ := h.exists_alike known
      obtain rfl := Option.some.inj (hfound'.symm.trans found')
      rw [halike.binding? name] at unbound'
      have henclosing := halike.enclosing
      rw [enclosed'] at henclosing
      generalize houter : frame.enclosing = outer at henclosing
      cases henclosing with
      | some leads =>
        obtain ⟨ids, nearest, hsearch⟩ := ih leads
        exact ⟨_, _, .outward found (Option.map_eq_none_iff.1 unbound') houter hsearch⟩

theorem nearest? (h : p.Stores frames frames') {id' : FrameId} (hid : p.Leads frames' id id')
    (name : String) :
    frames'.nearest? id' name =
        (frames.nearest? id name).map (Prod.map p.frame (Binding.rename p.names)) ∧
      ∀ nearest ∈ frames.nearest? id name,
        nearest.1 < p.size ∧ nearest.2.value.Within p.size := by
  cases hnearest : frames.nearest? id name with
  | some nearest =>
    obtain ⟨ids, hids⟩ := Frames.exists_search hnearest
    obtain ⟨howner, hwithin, hplace⟩ := h.search hids
    obtain ⟨ids', hids'⟩ := hid.search hplace
    refine ⟨hids'.nearestWithin_eq hids'.length_le, fun found hfound => ?_⟩
    obtain rfl := Option.some.inj hfound
    exact ⟨howner, hwithin⟩
  | none =>
    refine ⟨?_, by simp⟩
    cases hnearest' : frames'.nearest? id' name with
    | none => rfl
    | some nearest' =>
      obtain ⟨ids', hids'⟩ := Frames.exists_search hnearest'
      obtain ⟨ids, nearest, hids⟩ := h.search_back hids' hid
      cases hnearest.symm.trans (hids.nearestWithin_eq hids.length_le)

theorem get (h : p.Stores frames frames') {id' : FrameId} (hid : p.Leads frames' id id')
    (name : String) :
    (∃ v v', frames.get id name = .ok v ∧ frames'.get id' name = .ok v' ∧ p.Values v v') ∨
      ∃ fault, frames.get id name = .error fault ∧ frames'.get id' name = .error fault := by
  obtain ⟨hsame, hinside⟩ := h.nearest? hid name
  unfold Frames.get Frames.get?
  rw [hsame]
  cases hnearest : frames.nearest? id name with
  | none => exact .inr ⟨_, rfl, rfl⟩
  | some nearest => exact .inl ⟨_, _, rfl, rfl, rfl, (hinside nearest hnearest).2⟩

theorem target (h : p.Stores frames frames') {id' : FrameId} (hid : p.Leads frames' id id')
    (name : String) :
    (∃ owner < p.size, frames.target id name = .ok owner ∧
        frames'.target id' name = .ok (p.frame owner)) ∨
      ∃ fault, frames.target id name = .error fault ∧ frames'.target id' name = .error fault := by
  obtain ⟨hsame, hinside⟩ := h.nearest? hid name
  unfold Frames.target
  rw [hsame]
  cases hnearest : frames.nearest? id name with
  | none => exact .inr ⟨_, rfl, rfl⟩
  | some nearest =>
    obtain ⟨owner, binding⟩ := nearest
    cases hconstant : binding.constant with
    | true => exact .inr ⟨.constantAssignment name, by simp [hconstant],
        by simp [Binding.rename, hconstant]⟩
    | false => exact .inl ⟨owner, (hinside _ hnearest).1, by simp [hconstant],
        by simp [Binding.rename, hconstant]⟩

end Stores

end Padding

end Scriptlet
