import Scriptlet.Proofs.FrameForest
import Scriptlet.Proofs.FunctionFlow

/-!
Notes of what a run makes. They tell the machines that a run passes, as its moments do, and in
between the functions that it makes, each at the place where its declaration was executed.
Identities in them only grow, and every function that a machine binds has a place in the notes
before that machine. So two functions that programs see as equal have one place: they were made by
one execution of one declaration.
-/

namespace Scriptlet

open Plan (Moment)

/-- What is noted of a run: a machine that it passes, or a function that it makes. -/
inductive Note where
  | saw (m : Machine)
  | made (f : Closure)

namespace Note

def machine? : Note → Option Machine
  | .saw m => some m
  | .made _ => none

def function? : Note → Option Closure
  | .saw _ => none
  | .made f => some f

def functions (notes : List Note) : List Closure := notes.filterMap function?

def following {α : Type} (result : EStateM.Result RuntimeError Machine α)
    (next : α → Machine → List Note) : List Note :=
  match result with
  | .ok x after => next x after
  | .error _ _ => []

@[simp] theorem functions_nil : functions [] = [] := rfl

@[simp] theorem functions_saw (m : Machine) (notes : List Note) :
    functions (.saw m :: notes) = functions notes := rfl

@[simp] theorem functions_made (f : Closure) (notes : List Note) :
    functions (.made f :: notes) = f :: functions notes := rfl

@[simp] theorem functions_append (notes more : List Note) :
    functions (notes ++ more) = functions notes ++ functions more :=
  List.filterMap_append

theorem mem_functions {notes : List Note} {f : Closure} :
    f ∈ functions notes ↔ ∃ i : Nat, notes[i]? = some (.made f) := by
  rw [functions, List.mem_filterMap]
  constructor
  · rintro ⟨note, hmem, hnote⟩
    cases note with
    | saw m => cases hnote
    | made g =>
      cases hnote
      exact List.mem_iff_getElem?.1 hmem
  · intro h
    exact ⟨.made f, List.mem_iff_getElem?.2 h, rfl⟩

theorem mem_functions_take {notes : List Note} {f : Closure} {place : Nat} :
    f ∈ functions (notes.take place) ↔ ∃ i < place, notes[i]? = some (.made f) := by
  simp only [mem_functions, List.getElem?_take]
  constructor
  · rintro ⟨i, hi⟩
    split at hi
    · exact ⟨i, ‹_›, hi⟩
    · cases hi
  · rintro ⟨i, hlt, hi⟩
    exact ⟨i, by rwa [if_pos hlt]⟩

end Note

def Step.notes (host : Host) {α : Type} (s : Step α) (m : Machine) : List Note :=
  Note.following (s.run host m) fun x _ => (s.made x).toList.map .made

namespace Plan

/-- The notes of a run, all but the last machine. -/
def notes (host : Host) {α : Type} : Plan α → Machine → List Note
  | .done _, _ => []
  | .step s next, m =>
    .saw m :: (s.notes host m ++
      Note.following (s.run host m) fun x after => (next x).notes host after)
  | .inFrame frame body next, m =>
    let inside := m.entering (frame m.scope)
    .saw m :: (body.notes host inside ++ .saw ((body.run host).after inside) ::
      Note.following (runInFrame frame (body.run host) m) fun x after => (next x).notes host after)
  | .call paren body next, m =>
    .saw m :: (Note.following (Eval.guardCall host paren m) (fun _ m =>
        let inside := { m with depth := m.depth + 1 }
        body.notes host inside ++ [.saw ((body.run host).after inside)]) ++
      Note.following (runCall host paren (body.run host) m) fun x after =>
        (next x).notes host after)

theorem machines_following {α : Type} (result : EStateM.Result RuntimeError Machine α)
    {next : α → Machine → List Note} {moments : α → Machine → List Moment}
    (h : ∀ x after, (next x after).filterMap Note.machine? =
      (moments x after).map Moment.machine) :
    (Note.following result next).filterMap Note.machine? =
      (following result moments).map Moment.machine := by
  cases result with
  | ok x after => exact h x after
  | error e after => rfl

theorem machines_step (host : Host) {α : Type} (s : Step α) (m : Machine) :
    (s.notes host m).filterMap Note.machine? = [] := by
  unfold Step.notes
  cases s.run host m with
  | ok x after =>
    simp only [Note.following]
    cases s.made x <;> rfl
  | error e after => rfl

theorem machines_notes (host : Host) {α : Type} (plan : Plan α) (m : Machine) :
    (plan.notes host m).filterMap Note.machine? = (plan.moments host m).map Moment.machine := by
  induction plan generalizing m with
  | done x => rfl
  | step s next ih =>
    simp only [notes, moments, List.filterMap_cons, Note.machine?, List.filterMap_append,
      machines_step, List.nil_append, List.map_cons, machines_following _ ih]
  | inFrame frame body next hbody ih =>
    simp only [notes, moments, List.filterMap_cons, Note.machine?, List.filterMap_append, hbody,
      List.map_cons, List.map_append, machines_following _ ih]
  | call paren body next hbody ih =>
    have hpart : ∀ (_ : Unit) (m : Machine),
        (body.notes host { m with depth := m.depth + 1 } ++
          [Note.saw ((body.run host).after { m with depth := m.depth + 1 })]).filterMap
            Note.machine? =
        ((body.moments host { m with depth := m.depth + 1 } ++
          [Moment.mk 0 ((body.run host).after { m with depth := m.depth + 1 })]).map
            Moment.inCall).map Moment.machine := by
      intro _ _
      rw [List.filterMap_append, hbody, List.map_map, List.map_append]
      rfl
    simp only [notes, moments, List.filterMap_cons, Note.machine?, List.filterMap_append,
      List.map_cons]
    rw [List.map_append (f := Moment.machine), machines_following _ hpart, machines_following _ ih]

end Plan

variable {licence : Licence} {made : List Closure} {notes : List Note} {m : Machine}

/-- Whether all functions that are bound were made, and the next one will be new. -/
structure Machine.Recorded (licence : Licence) (made : List Closure) (m : Machine) : Prop where
  bound : m.Knows licence {f | f ∈ made}
  older : ∀ f ∈ made, f.identity < m.nextIdentity

/-- Whether some notes are in order after these functions were made: each machine binds only
functions that were made before, and each function comes from a declaration that may run, with an
identity greater than those before. -/
def Ledger (licence : Licence) : List Closure → List Note → Prop
  | _, [] => True
  | made, .saw m :: notes => m.Recorded licence made ∧ Ledger licence made notes
  | made, .made f :: notes => licence.runs (.stmt (.functionDecl f.name f.parameters f.body)) ∧
      (∀ g ∈ made, g.identity < f.identity) ∧ Ledger licence (made ++ [f]) notes

theorem Machine.Recorded.congr {after : Machine} (h : m.Recorded licence made)
    (hframes : after.frames = m.frames) (hidentity : after.nextIdentity = m.nextIdentity) :
    after.Recorded licence made :=
  ⟨h.bound.congr hframes, by rw [hidentity]; exact h.older⟩

namespace Ledger

theorem append_iff {more : List Note} : Ledger licence made (notes ++ more) ↔
    Ledger licence made notes ∧ Ledger licence (made ++ Note.functions notes) more := by
  induction notes generalizing made with
  | nil => simp [Ledger]
  | cons note notes ih =>
    cases note with
    | saw m => simp only [List.cons_append, Ledger, ih, Note.functions_saw, and_assoc]
    | made f =>
      simp only [List.cons_append, Ledger, ih, Note.functions_made, and_assoc, List.append_assoc,
        List.nil_append]

theorem older (h : Ledger licence made notes) {i : Nat} {f : Closure}
    (hi : notes[i]? = some (.made f)) : ∀ g ∈ made, g.identity < f.identity := by
  induction notes generalizing made i with
  | nil => cases hi
  | cons note notes ih =>
    cases i with
    | zero =>
      cases hi
      exact h.2.1
    | succ i =>
      cases note with
      | saw m => exact ih h.2 hi
      | made other =>
        intro g hg
        exact ih h.2.2 hi g (List.mem_append_left _ hg)

theorem identity_lt (h : Ledger licence made notes) {i j : Nat} {f g : Closure} (hij : i < j)
    (hi : notes[i]? = some (.made f)) (hj : notes[j]? = some (.made g)) :
    f.identity < g.identity := by
  induction notes generalizing made i j with
  | nil => cases hi
  | cons note notes ih =>
    obtain ⟨j, rfl⟩ := Nat.exists_eq_add_of_le' (Nat.lt_of_le_of_lt (Nat.zero_le i) hij)
    cases i with
    | zero =>
      -- for the rest of the notes, the first function is one that was made before
      cases hi
      exact h.2.2.older hj f (by simp)
    | succ i =>
      have hij : i < j := Nat.lt_of_succ_lt_succ hij
      cases note with
      | saw m => exact ih h.2 hij hi hj
      | made other => exact ih h.2.2 hij hi hj

theorem from_place (h : Ledger licence made notes) {i : Nat} {note : Note}
    (hi : notes[i]? = some note) :
    Ledger licence (made ++ Note.functions (notes.take i)) (note :: notes.drop (i + 1)) := by
  obtain ⟨hlt, hget⟩ := List.getElem?_eq_some_iff.1 hi
  rw [← hget, ← List.drop_eq_getElem_cons hlt]
  rw [← List.take_append_drop i notes] at h
  exact (append_iff.1 h).2

end Ledger

/-- Whether the notes of a run are in order, and so is the machine that it leaves; a result has a
property, which may depend on the functions made by then. -/
structure Eval.Recorded {α : Type} (licence : Licence) (made : List Closure) (run : Eval α)
    (notes : List Note) (Q : α → Set Closure → Prop) (m : Machine) : Prop where
  ledger : Ledger licence made notes
  after : (run.after m).Recorded licence (made ++ Note.functions notes)
  result : ∀ x after, run m = .ok x after → Q x {f | f ∈ made ++ Note.functions notes}

theorem Eval.Recorded.followed {α β : Type} {run : Eval α} {rest : α → Eval β}
    {P : α → Set Closure → Prop} {Q : β → Set Closure → Prop} {next : α → Machine → List Note}
    (h : run.Recorded licence made notes P m)
    (k : ∀ x after, after.Recorded licence (made ++ Note.functions notes) →
      P x {f | f ∈ made ++ Note.functions notes} →
      (rest x).Recorded licence (made ++ Note.functions notes) (next x after) Q after) :
    (run >>= rest).Recorded licence made (notes ++ Note.following (run m) next) Q m := by
  obtain ⟨ledger, hafter, result⟩ := h
  cases hr : run m with
  | ok x after =>
    rw [Eval.after_ok hr] at hafter
    obtain ⟨more, hlast, final⟩ := k x after hafter (result x after hr)
    refine ⟨Ledger.append_iff.2 ⟨ledger, more⟩, ?_, fun y last hy => ?_⟩
    · rw [Eval.after_bind_ok hr, Note.functions_append, ← List.append_assoc]
      exact hlast
    · rw [Eval.bind_ok hr] at hy
      rw [Note.functions_append, ← List.append_assoc]
      exact final y last hy
  | error e after =>
    rw [Eval.after_error hr] at hafter
    refine ⟨Ledger.append_iff.2 ⟨ledger, trivial⟩, ?_, fun y last hy => ?_⟩
    · rw [Eval.after_bind_error hr, Note.functions_append, ← List.append_assoc]
      simpa [Note.following] using hafter
    · cases (Eval.bind_error hr).symm.trans hy

namespace Step

variable {α : Type} {s : Step α} {inside : Bool}

theorem made_new {host : Host} {x : α} {after : Machine} {f : Closure}
    (hs : s.Permitted licence inside {f | f ∈ made}) (hrun : s.run host m = .ok x after)
    (hmade : s.made x = some f) :
    licence.runs (.stmt (.functionDecl f.name f.parameters f.body)) ∧
      f.identity = m.nextIdentity ∧ f.identity < after.nextIdentity := by
  cases s with
  | makeClosure name parameters body =>
    cases hrun
    cases hmade
    exact ⟨hs.1, rfl, Nat.lt_succ_self _⟩
  | _ => cases hmade

theorem learned_made (s : Step α) (x : α) :
    s.learned x {f | f ∈ made} = {f | f ∈ made ++ (s.made x).toList} := by
  ext f
  simp [learned]

theorem recorded {host : Host} (detached : host.natives.Detached) (hm : m.Recorded licence made)
    (hdeclares : ∀ name, licence.declares name)
    (hs : s.Permitted licence inside {f | f ∈ made}) :
    (s.run host).Recorded licence made (.saw m :: s.notes host m)
      (fun x more => s.Yields licence inside {f | f ∈ made} x ∧ more = s.learned x {f | f ∈ made})
      m := by
  have hknows := Step.knows_after detached hs hm.bound
  have hretains := Step.retains detached s m
  have holder : ∀ f ∈ made, f.identity < ((s.run host).after m).nextIdentity :=
    fun f hf => Nat.lt_of_lt_of_le (hm.older f hf) hretains.identity
  cases hr : s.run host m with
  | error e after =>
    have hnone : s.notes host m = [] := by simp only [Step.notes, hr, Note.following]
    rw [hnone]
    refine ⟨⟨hm, trivial⟩, ?_, fun x last hlast => by cases hr.symm.trans hlast⟩
    simpa using Machine.Recorded.mk hknows holder
  | ok x after =>
    have hnotes : s.notes host m = (s.made x).toList.map .made := by
      simp only [Step.notes, hr, Note.following]
    have hfunctions : Note.functions (.saw m :: s.notes host m) = (s.made x).toList := by
      rw [hnotes]
      cases s.made x <;> rfl
    refine ⟨⟨hm, ?_⟩, ?_, fun y last hlast => ?_⟩
    · rw [hnotes]
      cases hmade : s.made x with
      | none => trivial
      | some f =>
        obtain ⟨hdeclared, hidentity, -⟩ := made_new hs hr hmade
        exact ⟨hdeclared, fun g hg => hidentity ▸ hm.older g hg, trivial⟩
    · rw [hfunctions, Eval.after_ok hr] at *
      refine ⟨hknows.mono fun f hf => List.mem_append_left _ hf, fun f hf => ?_⟩
      rcases List.mem_append.1 hf with hf | hf
      · exact holder f hf
      · exact (made_new hs hr (Option.mem_toList.1 hf)).2.2
    · cases hr.symm.trans hlast
      have hguard : ∀ name after, Eval.guardBuiltin host.settings name m = .ok () after →
          inside = true ∨ licence.declares name.lexeme :=
        fun name _ _ => .inr (hdeclares name.lexeme)
      refine ⟨Step.yields detached hs hm.bound hguard hr, ?_⟩
      rw [hfunctions, learned_made]

end Step

namespace Plan

variable {α : Type} {Q : α → Set Closure → Prop} {body : Eval α}

theorem recorded_runInFrame {frame : FrameId → Frame} (hm : m.Recorded licence made)
    (h : body.Recorded licence made notes Q (m.entering (frame m.scope))) :
    (runInFrame frame body).Recorded licence made
      (.saw m :: (notes ++ [.saw (body.after (m.entering (frame m.scope)))])) Q m := by
  obtain ⟨ledger, hafter, result⟩ := h
  refine ⟨⟨hm, Ledger.append_iff.2 ⟨ledger, hafter, trivial⟩⟩, ?_, fun x after hrun => ?_⟩
  · rw [after_runInFrame, Note.functions_saw, Note.functions_append, Note.functions_saw,
      Note.functions_nil, List.append_nil]
    exact hafter.congr rfl rfl
  · cases hr : body (m.entering (frame m.scope)) with
    | ok y inner =>
      cases hrun.symm.trans (Eval.inFrame_ok hr)
      simpa using result x inner hr
    | error e inner => cases hrun.symm.trans (Eval.inFrame_error hr)

theorem recorded_runCall (host : Host) (paren : Token) (notes : Machine → List Note)
    (hm : m.Recorded licence made)
    (h : body.Recorded licence made (notes { m.checked with depth := m.checked.depth + 1 }) Q
      { m.checked with depth := m.checked.depth + 1 }) :
    (runCall host paren body).Recorded licence made
      (.saw m :: Note.following (Eval.guardCall host paren m) fun _ m =>
        let inside := { m with depth := m.depth + 1 }
        notes inside ++ [.saw (body.after inside)]) Q m := by
  obtain ⟨ledger, hafter, result⟩ := h
  rcases Eval.guardCall_cases host paren m with ⟨left, hguard, hleft⟩ | ⟨_, hguard⟩
  · have hrun : runCall host paren body m = .error ⟨.stackOverflow, paren⟩ left :=
      Eval.bind_error hguard
    rw [hguard]
    refine ⟨⟨hm, trivial⟩, ?_, fun x after hok => by cases hrun.symm.trans hok⟩
    have hlast : left.Recorded licence made := by
      rcases hleft with rfl | rfl
      · exact hm
      · exact hm.congr rfl rfl
    rw [Eval.after_error hrun]
    simpa [Note.following] using hlast
  · have hrun : runCall host paren body m = Eval.inCall body m.checked := Eval.bind_ok hguard
    have hleft : (runCall host paren body).after m = (Eval.inCall body).after m.checked := by
      simp only [Eval.after, hrun]
    rw [hguard]
    refine ⟨⟨hm, Ledger.append_iff.2 ⟨ledger, hafter, trivial⟩⟩, ?_, fun x after hok => ?_⟩
    · rw [hleft, Eval.after_inCall, Note.following, Note.functions_saw, Note.functions_append,
        Note.functions_saw, Note.functions_nil, List.append_nil]
      exact hafter.congr rfl rfl
    · rw [hrun] at hok
      cases hr : body { m.checked with depth := m.checked.depth + 1 } with
      | ok y inner =>
        cases hok.symm.trans (Eval.inCall_ok hr)
        simpa [Note.following] using result x inner hr
      | error e inner => cases hok.symm.trans (Eval.inCall_error hr)

theorem Confined.recorded {host : Host} (detached : host.natives.Detached) {plan : Plan α}
    {inside : Bool} {known : Set Closure} (h : plan.Confined licence inside Q known)
    (hdeclares : ∀ name, licence.declares name)
    (hknown : known = {f | f ∈ made}) (m : Machine) (hm : m.Recorded licence made) :
    (plan.run host).Recorded licence made (plan.notes host m) Q m := by
  induction h generalizing made m with
  | done h =>
    subst hknown
    rw [notes]
    refine ⟨trivial, ?_, fun x after hrun => ?_⟩
    · rw [Note.functions_nil, List.append_nil]
      exact hm
    · cases hrun
      rwa [Note.functions_nil, List.append_nil]
  | @step _ _ _ _ _ s next permitted rest ih =>
    subst hknown
    -- what is known after the step is what the notes up to it have made
    refine (Step.recorded detached hm hdeclares permitted).followed fun x after hafter hx => ?_
    exact ih x hx.1 hx.2.symm after hafter
  | @inFrame _ _ _ _ _ _ frame body next fine part rest ihpart ih =>
    subst hknown
    have hpart := ihpart rfl (m.entering (frame m.scope)) ⟨hm.bound.entering (fine _), hm.older⟩
    have hwhole := (recorded_runInFrame hm hpart).followed fun x after hafter hx => by
      refine ih x _ (fun f hf => ?_) hx rfl after hafter
      exact List.mem_append_left _ hf
    simpa [notes, run] using hwhole
  | @call _ _ _ _ _ _ paren body next part rest ihpart ih =>
    subst hknown
    have hpart := ihpart rfl { m.checked with depth := m.checked.depth + 1 } (hm.congr rfl rfl)
    have hwhole := (recorded_runCall host paren (body.notes host) hm hpart).followed
      fun x after hafter hx => by
        refine ih x _ (fun f hf => ?_) hx rfl after hafter
        exact List.mem_append_left _ hf
    simpa [notes, run] using hwhole

end Plan

end Scriptlet
