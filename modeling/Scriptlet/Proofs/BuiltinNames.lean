import Scriptlet.Proofs.FunctionFlow

/-!
Builtins survive declarations. A name that is refused in the global scope can still be declared in
every other one, and such a declaration binds it there. So the global binding of the name changes
only by assignment: where no tree that can run assigns the name, it stays as it is, however the run
ends. Outside the global scope nothing is refused, and no call comes back to the global scope: the
body of a function has a frame of its own.
-/

namespace Scriptlet

variable {licence : Licence} {known more : Set Closure} {inside : Bool}

/-- Whether a run may neither declare a name in the global scope nor assign it. -/
structure Licence.Spares (licence : Licence) (name : String) : Prop where
  undeclared : ¬licence.declares name
  unassigned : ∀ target value, licence.runs (.expr (.assignment target value)) →
    target.lexeme ≠ name

/-- Whether the names that a run may not declare are refused in the global scope; `inside` says that
the scope is another one. -/
structure Machine.Guarded (licence : Licence) (host : Host) (inside : Bool) (m : Machine) :
    Prop where
  present : 0 < m.frames.size
  place : inside = true ↔ m.scope ≠ Machine.globals
  refused : ∀ name, ¬licence.declares name →
    host.settings.allowBuiltinShadowing = false ∧ name ∈ m.reserved

/-- Whether the global bindings of spared names are what they were, and no guard is lost. -/
structure Machine.Sparing (licence : Licence) (m after : Machine) : Prop where
  bindings : ∀ name, licence.Spares name →
    after.frames.local? Machine.globals name = m.frames.local? Machine.globals name
  reserved : after.reserved = m.reserved
  size : m.frames.size ≤ after.frames.size
  scope : after.scope = m.scope

namespace Machine

variable {host : Host} {m after : Machine}

theorem Sparing.refl (m : Machine) : m.Sparing licence m :=
  ⟨fun _ _ => rfl, rfl, Nat.le_refl _, rfl⟩

theorem Sparing.trans {a b c : Machine} (h : a.Sparing licence b) (k : b.Sparing licence c) :
    a.Sparing licence c where
  bindings := fun name hname => (k.bindings name hname).trans (h.bindings name hname)
  reserved := k.reserved.trans h.reserved
  size := Nat.le_trans h.size k.size
  scope := k.scope.trans h.scope

theorem Guarded.sparing (hm : m.Guarded licence host inside) (h : m.Sparing licence after) :
    after.Guarded licence host inside where
  present := Nat.lt_of_lt_of_le hm.present h.size
  place := by rw [h.scope]; exact hm.place
  refused := by rw [h.reserved]; exact hm.refused

theorem Guarded.entering (hm : m.Guarded licence host inside) (frame : Frame) :
    (m.entering frame).Guarded licence host true where
  present := by simp [Machine.entering, modifyFrames]
  place := by
    have hnew : (m.entering frame).scope = m.frames.size := Frames.newest_push _ _
    rw [hnew]
    exact iff_of_true rfl (Nat.ne_of_gt hm.present)
  refused := hm.refused

end Machine

theorem Eval.guardBuiltin_refused {settings : Settings} {m : Machine} {name : Token}
    (hshadowing : settings.allowBuiltinShadowing = false) (hscope : m.scope = Machine.globals)
    (hreserved : name.lexeme ∈ m.reserved) :
    guardBuiltin settings name m = .error ⟨.builtinRedefinition name.lexeme, name⟩ m := by
  unfold guardBuiltin
  rw [if_pos]
  simp [hshadowing, hscope, hreserved]

theorem Eval.guardBuiltin_elsewhere {m : Machine} (settings : Settings) (name : Token)
    (hscope : m.scope ≠ Machine.globals) : guardBuiltin settings name m = .ok () m := by
  unfold guardBuiltin
  rw [if_neg]
  simp [hscope]

theorem Machine.Guarded.passes {host : Host} {m after : Machine} {name : Token}
    (hm : m.Guarded licence host inside)
    (h : Eval.guardBuiltin host.settings name m = .ok () after) :
    inside = true ∨ licence.declares name.lexeme := by
  by_contra hnot
  obtain ⟨houtside, hundeclared⟩ := not_or.1 hnot
  have hscope : m.scope = Machine.globals := by
    by_contra hscope
    exact houtside (hm.place.2 hscope)
  obtain ⟨hshadowing, hreserved⟩ := hm.refused _ hundeclared
  cases (Eval.guardBuiltin_refused hshadowing hscope hreserved).symm.trans h

namespace Step

variable {α : Type} {host : Host} {s : Step α} {m : Machine}

theorem sparing (detached : host.natives.Detached) (hm : m.Guarded licence host inside)
    (hs : s.Permitted licence inside known) : m.Sparing licence ((s.run host).after m) := by
  have hreserved := (Step.retains detached s m).reserved
  generalize hafter : (s.run host).after m = after at hreserved
  cases Step.effect hafter with
  | @assigned m target value owner found =>
    obtain ⟨e, hruns⟩ := hs.1
    refine ⟨fun name hname => Frames.local?_define_ne ?_, hreserved, ?_, rfl⟩
    · exact fun h => hname.unassigned target e hruns h.2.symm
    · exact Nat.le_of_eq (Frames.size_define _ _).symm
  | defined m declared binding =>
    refine ⟨fun name hname => Frames.local?_define_ne ?_, hreserved, ?_, rfl⟩
    · rintro ⟨hscope, rfl⟩
      rcases hs.1 with hinside | hdeclares
      · exact hm.place.1 hinside hscope.symm
      · exact hname.undeclared hdeclares
    · exact Nat.le_of_eq (Frames.size_define _ _).symm
  | aside frames scope _ _ =>
    have hframes := frames detached
    exact ⟨fun name _ => by rw [hframes], hreserved, by rw [hframes], scope⟩

theorem error_inside (hm : m.Guarded licence host true) (hs : s.Permitted licence true known)
    {e : RuntimeError} {after : Machine} (hrun : s.run host m = .error e after) :
    e.fault.redefines = false := by
  cases s with
  | settle token result => exact NoRedefinition.settle hs hrun
  | lookUp name => exact (m.frames.noRedefinition_get m.scope name.lexeme).settle hrun
  | assign name value =>
    change Eval.assign name value m = .error e after at hrun
    unfold Eval.assign at hrun
    cases htarget : m.frames.target m.scope name.lexeme with
    | ok owner =>
      rw [htarget] at hrun
      cases hrun
    | error fault =>
      rw [htarget] at hrun
      cases hrun
      exact m.frames.noRedefinition_target m.scope name.lexeme fault htarget
  | define name binding => cases hrun
  | write keyword text =>
    change Eval.write keyword text m = .error e after at hrun
    unfold Eval.write at hrun
    dsimp only at hrun
    split at hrun <;> cases hrun
    rfl
  | makeClosure name parameters body => cases hrun
  | guardBuiltin name =>
    have hpasses := Eval.guardBuiltin_elsewhere host.settings name (hm.place.1 rfl)
    cases hpasses.symm.trans hrun
  | checkStack token =>
    rcases Eval.checkStack_cases host token m with hcheck | hcheck
    · cases hcheck.symm.trans hrun
    · cases hcheck.symm.trans hrun
      rfl
  | guardCall paren =>
    rcases Eval.guardCall_cases host paren m with ⟨_, hguard, _⟩ | ⟨_, hguard⟩
    · cases hguard.symm.trans hrun
      rfl
    · cases hguard.symm.trans hrun
  | applyNative paren code arguments =>
    refine NoRedefinition.settle (fun fault hfault => ?_) hrun
    cases hresult : (host.natives code m.nativeCalls arguments m.heap).1 with
    | ok value =>
      rw [hresult] at hfault
      cases hfault
    | error message =>
      rw [hresult] at hfault
      cases hfault
      rfl

end Step

/-- Whether a run leaves the global bindings of spared names as they are, does not fail because of a
refused name unless it is in the global scope, and ends with a result of a certain property. -/
structure Eval.Sparing {α : Type} (licence : Licence) (inside : Bool)
    (Q : α → Set Closure → Prop) (known : Set Closure) (run : Eval α) (m : Machine) : Prop where
  sparing : m.Sparing licence (run.after m)
  result : ∀ x after, run m = .ok x after →
    ∃ more, known ⊆ more ∧ after.Knows licence more ∧ Q x more
  error : inside = true → ∀ e after, run m = .error e after → e.fault.redefines = false

namespace Eval.Sparing

variable {α β : Type} {Q : α → Set Closure → Prop} {R : β → Set Closure → Prop} {run : Eval α}
  {m : Machine}

theorem bind {next : α → Eval β} (h : run.Sparing licence inside Q known m)
    (k : ∀ x after more, m.Sparing licence after → known ⊆ more → after.Knows licence more →
      Q x more → (next x).Sparing licence inside R more after) :
    (run >>= next).Sparing licence inside R known m := by
  obtain ⟨sparing, result, error⟩ := h
  cases hr : run m with
  | ok x after =>
    rw [Eval.after_ok hr] at sparing
    obtain ⟨more, hsub, hknows, hx⟩ := result x after hr
    have hnext := k x after more sparing hsub hknows hx
    refine ⟨?_, fun y last hlast => ?_, fun hinside e last hlast => ?_⟩
    · rw [Eval.after_bind_ok hr]
      exact sparing.trans hnext.sparing
    · rw [Eval.bind_ok hr] at hlast
      obtain ⟨most, hmost, hrest⟩ := hnext.result y last hlast
      exact ⟨most, hsub.trans hmost, hrest⟩
    · rw [Eval.bind_ok hr] at hlast
      exact hnext.error hinside e last hlast
  | error e after =>
    refine ⟨?_, fun y last hlast => ?_, fun hinside fault last hlast => ?_⟩
    · rw [Eval.after_bind_error hr, ← Eval.after_error hr]
      exact sparing
    · cases (Eval.bind_error hr).symm.trans hlast
    · cases (Eval.bind_error hr).symm.trans hlast
      exact error hinside e after hr

theorem around {part : Eval α} {start : Machine} {back : Machine → Machine} {within : Bool}
    (h : part.Sparing licence within Q known start) (hwithin : inside = true → within = true)
    (hok : ∀ x after, part start = .ok x after → run m = .ok x (back after))
    (herror : ∀ e after, part start = .error e after → run m = .error e (back after))
    (hframes : ∀ after, (back after).frames = after.frames)
    (hback : ∀ after, start.Sparing licence after → m.Sparing licence (back after)) :
    run.Sparing licence inside Q known m := by
  obtain ⟨sparing, result, error⟩ := h
  cases hr : part start with
  | ok x after =>
    have hrun := hok x after hr
    rw [Eval.after_ok hr] at sparing
    refine ⟨?_, fun y last hlast => ?_, fun _ e last hlast => ?_⟩
    · rw [Eval.after_ok hrun]
      exact hback after sparing
    · cases hrun.symm.trans hlast
      obtain ⟨more, hsub, hknows, hx⟩ := result x after hr
      exact ⟨more, hsub, hknows.congr (hframes after), hx⟩
    · cases hrun.symm.trans hlast
  | error e after =>
    have hrun := herror e after hr
    rw [Eval.after_error hr] at sparing
    refine ⟨?_, fun y last hlast => ?_, fun hinside other last hlast => ?_⟩
    · rw [Eval.after_error hrun]
      exact hback after sparing
    · cases hrun.symm.trans hlast
    · cases hrun.symm.trans hlast
      exact error (hwithin hinside) e after hr

theorem runInFrame {frame : FrameId → Frame} (hpresent : 0 < m.frames.size)
    (h : run.Sparing licence true Q known (m.entering (frame m.scope))) :
    (Plan.runInFrame frame run).Sparing licence inside Q known m := by
  refine h.around (fun _ => rfl) (fun x after => Eval.inFrame_ok)
    (fun e after => Eval.inFrame_error) (fun _ => rfl) fun after sparing => ?_
  have hold : ∀ name, (m.entering (frame m.scope)).frames.local? Machine.globals name =
      m.frames.local? Machine.globals name := by
    intro name
    exact (Frames.local?_push (frame m.scope) Machine.globals name).trans
      (if_neg (Nat.ne_of_lt hpresent))
  have hsize : m.frames.size ≤ (m.entering (frame m.scope)).frames.size :=
    Nat.le_of_lt (Nat.lt_of_lt_of_eq (Nat.lt_succ_self _) (Frames.size_push _).symm)
  exact ⟨fun name hname => (sparing.bindings name hname).trans (hold name), sparing.reserved,
    Nat.le_trans hsize sparing.size, rfl⟩

theorem runCall (host : Host) (paren : Token)
    (h : run.Sparing licence inside Q known { m.checked with depth := m.checked.depth + 1 }) :
    (Plan.runCall host paren run).Sparing licence inside Q known m := by
  rcases Eval.guardCall_cases host paren m with ⟨left, hguard, hleft⟩ | ⟨_, hguard⟩
  · have hrun : Plan.runCall host paren run m = .error ⟨.stackOverflow, paren⟩ left :=
      Eval.bind_error hguard
    refine ⟨?_, fun x after hok => ?_, fun _ e after herror => ?_⟩
    · rw [Eval.after_error hrun]
      rcases hleft with rfl | rfl
      · exact .refl _
      · exact ⟨fun _ _ => rfl, rfl, Nat.le_refl _, rfl⟩
    · cases hrun.symm.trans hok
    · cases hrun.symm.trans herror
      rfl
  · have hrun : Plan.runCall host paren run m = Eval.inCall run m.checked := Eval.bind_ok hguard
    refine h.around id (fun x after hr => hrun.trans (Eval.inCall_ok hr))
      (fun e after hr => hrun.trans (Eval.inCall_error hr)) (fun _ => rfl) fun after sparing => ?_
    exact ⟨sparing.bindings, sparing.reserved, sparing.size, sparing.scope⟩

end Eval.Sparing

theorem Step.run_sparing {α : Type} {host : Host} (detached : host.natives.Detached) {s : Step α}
    {m : Machine} (hm : m.Guarded licence host inside) (hknows : m.Knows licence known)
    (hs : s.Permitted licence inside known) :
    (s.run host).Sparing licence inside
      (fun x more => s.Yields licence inside known x ∧ more = s.learned x known) known m := by
  refine ⟨Step.sparing detached hm hs, fun x after hrun => ?_, fun hinside e after hrun => ?_⟩
  · have hafter := Step.knows_after detached hs hknows
    rw [Eval.after_ok hrun] at hafter
    refine ⟨s.learned x known, s.subset_learned x, hafter.mono (s.subset_learned x), ?_, rfl⟩
    exact Step.yields detached hs hknows (fun name after => hm.passes) hrun
  · subst hinside
    exact Step.error_inside hm hs hrun

theorem Plan.Confined.sparing {host : Host} (detached : host.natives.Detached) {α : Type}
    {plan : Plan α} {Q : α → Set Closure → Prop} (h : plan.Confined licence inside Q known)
    (m : Machine) (hm : m.Guarded licence host inside) (hknows : m.Knows licence known) :
    (plan.run host).Sparing licence inside Q known m := by
  induction h generalizing m with
  | @done _ _ _ known _ h =>
    refine ⟨.refl m, fun x after hrun => ?_, fun _ e after hrun => by cases hrun⟩
    cases hrun
    exact ⟨known, subset_rfl, hknows, h⟩
  | step permitted _ ih =>
    refine (Step.run_sparing detached hm hknows permitted).bind
      fun x after more hsparing _ hafter hx => ?_
    obtain ⟨hyields, rfl⟩ := hx
    exact ih x hyields after (hm.sparing hsparing) hafter
  | @inFrame _ _ _ _ _ _ frame _ _ fine _ _ ihpart ih =>
    -- the part may declare spared names as well: its frame is not the global one
    have hpart := ihpart (m.entering (frame m.scope)) (hm.entering _) (hknows.entering (fine _))
    refine (hpart.runInFrame hm.present).bind fun x after more hsparing hsub hafter hx => ?_
    exact ih x more hsub hx after (hm.sparing hsparing) hafter
  | @call _ _ _ _ _ _ paren _ _ _ _ ihpart ih =>
    have hpart := ihpart { m.checked with depth := m.checked.depth + 1 }
      ⟨hm.present, hm.place, hm.refused⟩ (hknows.congr rfl)
    refine (hpart.runCall host paren).bind fun x after more hsparing hsub hafter hx => ?_
    exact ih x more hsub hx after (hm.sparing hsparing) hafter

namespace Node

def assigned? : Node → Option Token
  | .expr (.assignment name _) => some name
  | _ => none

end Node

/-- The name of a declaration, and how the binding comes about that it makes. -/
def Stmt.declaration? (host : Host) (call : Caller) : Stmt → Option (Token × Eval Binding)
  | .variableDecl name initializer constant =>
    some (name, (⟨·, constant⟩) <$> evaluateOr host call .nil initializer)
  | .functionDecl name parameters body =>
    some (name, (⟨·, false⟩) <$> Eval.makeClosure name parameters body)
  | _ => none

def Eval.declare (name : Token) (initial : Eval Binding) : Eval Flow := do
  let binding ← initial
  Eval.define name binding
  pure .normal

theorem execute_declaration {host : Host} {call : Caller} {s : Stmt} {name : Token}
    {initial : Eval Binding} (h : s.declaration? host call = some (name, initial)) :
    execute host call s = (do
      Eval.guardBuiltin host.settings name
      Eval.declare name initial : Eval Flow) := by
  cases s with
  | variableDecl =>
    cases h
    simp only [execute, Eval.declare, bind_map_left]
  | functionDecl =>
    cases h
    simp only [execute, Eval.declare, bind_map_left]
  | _ => cases h

namespace Licence

/-- Everything may run but assignments of one name, which may not be declared globally either. -/
def sparing (name : String) : Licence where
  runs := fun node => ∀ target ∈ node.assigned?, target.lexeme ≠ name
  declares := fun other => other ≠ name

theorem spares_sparing (name : String) : (sparing name).Spares name :=
  ⟨fun h => h rfl, fun target _ h => h target rfl⟩

end Licence

theorem Machine.guarded_of_bound {host : Host} {m : Machine} {name : String}
    (hbound : (m.frames.local? Machine.globals name).isSome)
    (hrefused : ∀ name, ¬licence.declares name →
      host.settings.allowBuiltinShadowing = false ∧ name ∈ m.reserved) :
    m.Guarded licence host (decide (m.scope ≠ Machine.globals)) := by
  refine ⟨?_, decide_eq_true_iff, hrefused⟩
  obtain ⟨binding, hbinding⟩ := Option.isSome_iff_exists.1 hbound
  obtain ⟨frame, hframe, -⟩ := Option.bind_eq_some_iff.1 hbinding
  exact Frames.frame?_eq_some_lt hframe

section Programs

variable {host : Host} {m : Machine} {name : String} (detached : host.natives.Detached)
  (hbound : (m.frames.local? Machine.globals name).isSome)

include detached hbound

theorem interpret_sparing (hshadowing : host.settings.allowBuiltinShadowing = false)
    (hreserved : name ∈ m.reserved) {program : Program}
    (hprogram : (Licence.sparing name).Covers (Stmt.nodesOfAll program))
    (hknows : m.Knows (.sparing name) Set.univ) :
    ((host.interpret program).after m).frames.local? Machine.globals name =
      m.frames.local? Machine.globals name := by
  let watched : Machine := { m with watched := true }
  have hguarded : watched.Guarded (.sparing name) host (decide (m.scope ≠ Machine.globals)) := by
    refine Machine.guarded_of_bound (m := watched) hbound fun other hother => ⟨hshadowing, ?_⟩
    rwa [not_not.1 hother]
  have hplan := Plan.confined_executeAll host.settings
    (Plan.confined_callValue host.settings host.settings.maxCallDepth.toNat) program hprogram
    (decide (m.scope ≠ Machine.globals)) Set.univ
  have hrun := (hplan.sparing detached watched hguarded (hknows.congr rfl)).sparing.bindings name
    (Licence.spares_sparing name)
  rw [host.run_executeAll] at hrun
  rw [Host.interpret]
  rcases Eval.after_asProgram (executeAll host host.call program) m with hafter | hafter
  all_goals
    rw [hafter, Eval.after_watching]
    exact hrun

theorem execute_elsewhere (hscope : m.scope ≠ Machine.globals) (calls : Nat) (s : Stmt)
    {e : RuntimeError} {after : Machine}
    (hrun : execute host (callValue host calls) s m = .error e after) :
    e.fault.redefines = false := by
  have hguarded : m.Guarded .any host (decide (m.scope ≠ Machine.globals)) :=
    Machine.guarded_of_bound hbound fun _ hother => absurd trivial hother
  have hknows : m.Knows .any Set.univ := by
    intro id other binding _
    cases binding.value with
    | function f => exact ⟨trivial, fun _ _ => trivial⟩
    | _ => trivial
  have hcovers : Licence.any.Covers s.nodes := fun _ _ => trivial
  have hplan := Plan.confined_execute host.settings
    (Plan.confined_callValue host.settings calls) s hcovers (decide (m.scope ≠ Machine.globals))
    Set.univ
  refine (hplan.sparing detached m hguarded hknows).error (decide_eq_true hscope) e after ?_
  rwa [host.run_execute]

end Programs

/-- Where builtins cannot be shadowed, the functions of the host keep off the heap and the global
scope still binds the name of a builtin: a program that assigns the name nowhere, run on a machine
whose functions do not assign it either, leaves that binding as it is, whatever it declares,
whatever the host answers and however it ends. A declaration of the name is refused before anything
else exactly in the global scope; in every other scope it binds the name there. -/
theorem builtins_survive_declarations (host : Host) (detached : host.natives.Detached)
    (hshadowing : host.settings.allowBuiltinShadowing = false) (m : Machine) (name : String)
    (hreserved : name ∈ m.reserved)
    (hbound : (m.frames.local? Machine.globals name).isSome) :
    let spares (body : List Stmt) : Prop :=
      ∀ node ∈ Stmt.nodesOfAll body, ∀ target ∈ node.assigned?, target.lexeme ≠ name
    (∀ program, spares program →
      (∀ id other f constant, m.frames.local? id other = some ⟨.function f, constant⟩ →
        spares f.body) →
      ((host.interpret program).after m).frames.local? Machine.globals name =
        m.frames.local? Machine.globals name) ∧
    ∀ calls s token initial, s.declaration? host (callValue host calls) = some (token, initial) →
      token.lexeme = name →
      let run := execute host (callValue host calls) s
      (m.scope = Machine.globals → ∃ e, run m = .error e m ∧ e.token = token ∧
        e.fault.message = "Cannot redefine builtin '" ++ name ++ "'.") ∧
      (m.scope ≠ Machine.globals → run m = Eval.declare token initial m) ∧
      ((∃ e after, run m = .error e after ∧ e.fault = .builtinRedefinition name) ↔
        m.scope = Machine.globals) := by
  intro spares
  constructor
  · intro program hprogram hfunctions
    refine interpret_sparing detached hbound hshadowing hreserved hprogram ?_
    rintro id other ⟨value, constant⟩ hother
    cases value with
    | function f => exact ⟨trivial, hfunctions id other f constant hother⟩
    | _ => trivial
  · rintro calls s token initial hs rfl run
    have hrun : run = (do
        Eval.guardBuiltin host.settings token
        Eval.declare token initial : Eval Flow) := execute_declaration hs
    have hrefused : m.scope = Machine.globals →
        run m = .error ⟨.builtinRedefinition token.lexeme, token⟩ m := by
      intro hscope
      rw [hrun]
      exact Eval.bind_error (Eval.guardBuiltin_refused hshadowing hscope hreserved)
    refine ⟨fun hscope => ⟨_, hrefused hscope, rfl, rfl⟩, fun hscope => ?_, fun h => ?_,
      fun hscope => ⟨_, m, hrefused hscope, rfl⟩⟩
    · rw [hrun]
      exact Eval.bind_ok (Eval.guardBuiltin_elsewhere host.settings token hscope)
    · obtain ⟨e, after, herror, hfault⟩ := h
      by_contra hscope
      have hother := execute_elsewhere detached hbound hscope calls s herror
      rw [hfault] at hother
      cases hother

/-- A builtin whose name is a parameter, a variable of a block and one of a loop before a global
declaration of it is refused, whose initializer would fail in another way. -/
theorem builtins_survive_declarations_shadowed :
    let word (lexeme : String) : Token := ⟨.identifier, lexeme, none, .first⟩
    let len := word "len"
    let body : List Stmt := [.functionDecl len [] []]
    let program : Program := [.functionDecl (word "f") [len] body,
      .expression (.call (.identifier (word "f")) (word ")") [.literal .nil]),
      .block [.variableDecl len none true],
      .forLoop (word "for") (some (.variableDecl len none false)) (some (.literal .nil)) none
        (.block []),
      .variableDecl len (some (.identifier (word "missing"))) false]
    let host := Host.standard { allowBuiltinShadowing := false } fun _ => none
    let m := (Machine.fresh (.empty none)).installBuiltins
    host.natives.Detached ∧ "len" ∈ m.reserved ∧ (m.frames.local? Machine.globals "len").isSome ∧
      (∃ e after, host.interpret program m = .error e after ∧
        e.fault = .builtinRedefinition "len" ∧ after.frames.size = 4) ∧
      ((host.interpret program).after m).frames.local? Machine.globals "len" =
        m.frames.local? Machine.globals "len" := by
  intro word len body program host m
  have hreserved : "len" ∈ m.reserved := by decide
  have hbound : (m.frames.local? Machine.globals "len").isSome := by decide
  have hdetached : host.natives.Detached := Natives.detached_builtins _
  obtain ⟨hkept, -⟩ := builtins_survive_declarations host hdetached rfl m "len" hreserved hbound
  have hprogram : ∀ node ∈ Stmt.nodesOfAll program, ∀ target ∈ node.assigned?,
      target.lexeme ≠ "len" := by
    decide +kernel
  refine ⟨hdetached, hreserved, hbound, ?_,
    hkept program hprogram fun id other f constant hother => ?_⟩
  · have hrun : (match host.interpret program m with
        | .error e after => decide (e.fault = .builtinRedefinition "len" ∧ after.frames.size = 4)
        | .ok _ _ => false) = true := by decide +kernel
    cases hr : host.interpret program m with
    | error e after =>
      rw [hr] at hrun
      exact ⟨e, after, rfl, of_decide_eq_true hrun⟩
    | ok _ after =>
      rw [hr] at hrun
      cases hrun
  · -- no function is bound yet
    have hnone : m.Knows .any ∅ := (Machine.Knows.fresh _).installBuiltins
    exact absurd (hnone id other _ hother).1 (Set.notMem_empty f)

end Scriptlet
