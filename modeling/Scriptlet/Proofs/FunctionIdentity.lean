import Mathlib.Data.List.Find
import Scriptlet.Proofs.FunctionOrigins
import Scriptlet.Proofs.NearestBinding

/-!
Function identity. Programs compare functions by identity, and an identity stands for one execution
of one function declaration: whatever programs run on a machine, one after the other and whether
they fail or not, functions are equal just if one note made them, and then they are the same
function. Executing a declaration once more makes a function that differs from all there were.
Binding, assigning, passing, returning and closing over a function hands on the function itself.
-/

namespace Scriptlet

namespace Frame

theorem binding?_defineAll_notMem {name : String} : ∀ {names : List String} {values : List Value}
    (frame : Frame), name ∉ names →
    (frame.defineAll names values).binding? name = frame.binding? name
  | [], _, _, _ => rfl
  | _ :: _, [], _, _ => rfl
  | first :: names, value :: values, frame, h => by
    have hne : name ≠ first := List.ne_of_not_mem_cons h
    change ((frame.define first ⟨value, false⟩).defineAll names values).binding? name = _
    rw [binding?_defineAll_notMem _ (List.not_mem_of_not_mem_cons h), binding?_define, if_neg hne]

theorem binding?_defineAll {name : String} {value : Value} : ∀ {names : List String}
    {values : List Value} {i : Nat} (frame : Frame), names[i]? = some name →
    values[i]? = some value → (∀ j > i, names[j]? ≠ some name) →
    (frame.defineAll names values).binding? name = some ⟨value, false⟩
  | [], _, _, _, hname, _, _ => by cases hname
  | _ :: _, [], _, _, _, hvalue, _ => by cases hvalue
  | first :: names, _ :: values, 0, frame, hname, hvalue, hlast => by
    cases hname
    cases hvalue
    have hrest : name ∉ names := by
      intro hmem
      obtain ⟨j, hj⟩ := List.mem_iff_getElem?.1 hmem
      exact hlast (j + 1) (Nat.succ_pos j) hj
    change ((frame.define name ⟨value, false⟩).defineAll names values).binding? name = _
    rw [binding?_defineAll_notMem _ hrest, binding?_define, if_pos rfl]
  | first :: names, other :: values, i + 1, frame, hname, hvalue, hlast => by
    change ((frame.define first ⟨other, false⟩).defineAll names values).binding? name = _
    refine binding?_defineAll _ hname hvalue fun j hj => ?_
    exact hlast (j + 1) (Nat.succ_lt_succ hj)

end Frame

namespace Frames

variable {frames : Frames} {id : FrameId} {name : String}

theorem get?_of_local? {binding : Binding} (h : frames.local? id name = some binding) :
    frames.get? id name = some binding.value := by
  obtain ⟨frame, hframe, hbinding⟩ := Option.bind_eq_some_iff.1 h
  obtain ⟨steps, hsteps⟩ := Nat.exists_eq_add_of_lt (frame?_eq_some_lt hframe)
  rw [get?, nearest?, hsteps, nearestWithin_succ name _ hframe, hbinding]
  rfl

theorem get?_push_unbound (hg : frames.Grounded) {frame : Frame} (hid : id < frames.size)
    (henclosing : frame.enclosing = some id) (hname : frame.binding? name = none) :
    (frames.push frame).get? frames.size name = frames.get? id name := by
  obtain ⟨ids, hids⟩ := hg id hid
  have hnew : (frames.push frame).frame? frames.size = some frame := by simp [frame?_push]
  have hlocal : ∀ other ∈ ids,
      (frames.push frame).local? other name = frames.local? other name := by
    intro other hother
    rw [local?_push, if_neg (Nat.ne_of_lt (hids.lt_size other hother))]
  have hfirst : (frames.push frame).firstBinding name (frames.size :: ids) =
      frames.firstBinding name ids := by
    unfold firstBinding
    rw [List.find?_cons, local?_push, if_pos rfl, hname]
    exact List.find?_congr fun other hother => by rw [hlocal other hother]
  have hchain := Chain.more hnew henclosing (hids.push frame)
  rw [get?, get?, nearest?_of_chain name hchain, nearest?_of_chain name hids,
    nearestWithin_eq_firstBinding hchain, nearestWithin_eq_firstBinding hids, hfirst]
  cases hfound : frames.firstBinding name ids with
  | none => rfl
  | some owner =>
    have howner : owner ∈ ids := List.mem_of_find?_eq_some hfound
    simp only [Option.bind_some, hlocal owner howner]

end Frames

theorem Eval.lookUp_of_get? {m : Machine} {name : Token} {value : Value}
    (h : m.frames.get? m.scope name.lexeme = some value) : lookUp name m = .ok value m := by
  simp only [lookUp, Frames.get, h]
  rfl

/-- Whether values stay what they are when they are declared, assigned, passed, left for an inner
scope to look up, or returned: a call of a function that returns a name gives what the name stands
for inside the call. -/
structure Machine.HandsOn (host : Host) (m : Machine) : Prop where
  declared : ∀ name value constant after, Eval.define name ⟨value, constant⟩ m = .ok () after →
    Eval.lookUp name after = .ok value after
  assigned : ∀ name value after, Eval.assign name value m = .ok () after →
    Eval.lookUp name after = .ok value after
  passed : ∀ (f : Closure) arguments (i : Nat) parameter value,
    f.parameters[i]? = some parameter → arguments[i]? = some value →
    (∀ j > i, ∀ other ∈ f.parameters[j]?, other.lexeme ≠ parameter.lexeme) →
    let inside := m.entering (f.frame arguments)
    Eval.lookUp parameter inside = .ok value inside
  closedOver : ∀ (f : Closure) arguments name, f.scope < m.frames.size →
    name ∉ f.parameters.map Token.lexeme →
    let inside := m.entering (f.frame arguments)
    inside.frames.get? inside.scope name = m.frames.get? f.scope name
  returned : ∀ calls (f : Closure) paren arguments keyword name rest value,
    f.body = .returnStmt keyword (some (.identifier name)) :: rest →
    arguments.length = f.parameters.length → Eval.guardCall host paren m = .ok () m.checked →
    let inside := m.entering (f.frame arguments)
    inside.frames.get? inside.scope name.lexeme = some value →
    ∃ after, callValue host (calls + 1) (.function f) paren arguments m = .ok value after

theorem Machine.Forest.grounded {m : Machine} (hm : m.Forest) : m.frames.Grounded := by
  intro id hid
  obtain ⟨ids, hids, -⟩ := hm.outward id hid
  exact ⟨ids, hids⟩

theorem Machine.Forest.handsOn {m : Machine} (hm : m.Forest) (host : Host) : m.HandsOn host where
  declared := by
    intro name value constant after hafter
    cases hafter
    have hbound : (m.frames.define m.scope name.lexeme ⟨value, constant⟩).local? m.scope
        name.lexeme = some ⟨value, constant⟩ := Frames.local?_define_same hm.linked.scope
    exact Eval.lookUp_of_get? (Frames.get?_of_local? hbound)
  assigned := by
    intro name value after hafter
    cases Eval.assigned hm.grounded name value with
    | changed owner binding howned hbound hmutable result =>
      cases result.symm.trans hafter
      refine Eval.lookUp_of_get? ?_
      exact (Frames.get?_define_bound howned.isSome ⟨value, false⟩ hm.grounded m.scope
        name.lexeme).1 ⟨rfl, howned⟩
    | refused _ _ _ _ _ result => cases result.symm.trans hafter
    | missing _ result => cases result.symm.trans hafter
  passed := by
    intro f arguments i parameter value hparameter hargument hlast inside
    have hbound : (f.frame arguments).binding? parameter.lexeme = some ⟨value, false⟩ := by
      refine Frame.binding?_defineAll _ (by simp [hparameter]) hargument fun j hj hother => ?_
      rw [List.getElem?_map] at hother
      obtain ⟨other, hfound, hsame⟩ := Option.map_eq_some_iff.1 hother
      exact hlast j hj other hfound hsame
    have hlocal : inside.frames.local? inside.scope parameter.lexeme = some ⟨value, false⟩ := by
      have hscope : inside.scope = m.frames.size := Frames.newest_push _ _
      rw [hscope]
      exact (Frames.local?_push _ _ _).trans ((if_pos rfl).trans hbound)
    exact Eval.lookUp_of_get? (Frames.get?_of_local? hlocal)
  closedOver := by
    intro f arguments name hscope hname inside
    have hnew : inside.scope = m.frames.size := Frames.newest_push _ _
    rw [hnew]
    refine Frames.get?_push_unbound hm.grounded hscope ?_ ?_
    · rw [Closure.frame, Frame.enclosing_defineAll]
    · exact Frame.binding?_defineAll_notMem _ hname
  returned := by
    intro calls f paren arguments keyword name rest value hbody hcount hguard inside hvalue
    let started : Machine := { m.checked with depth := m.checked.depth + 1 }
    have harity : guardArity paren f.parameters.length arguments m = .ok () m := by
      rw [guardArity, if_pos hcount]
      rfl
    have hlook : Eval.lookUp name (started.entering (f.frame arguments)) =
        .ok value (started.entering (f.frame arguments)) := Eval.lookUp_of_get? hvalue
    have hreturn : execute host (callValue host calls)
        (.returnStmt keyword (some (.identifier name)))
        (started.entering (f.frame arguments)) =
          .ok (.returning value) (started.entering (f.frame arguments)) := by
      simp only [execute, evaluateOr, evaluate, Functor.map, EStateM.map, hlook]
    have hrun : executeAll host (callValue host calls) f.body
        (started.entering (f.frame arguments)) =
          .ok (.returning value) (started.entering (f.frame arguments)) := by
      rw [hbody, executeAll, Eval.bind_ok hreturn]
      rfl
    rw [callValue_function, Eval.bind_ok harity, Eval.bind_ok hguard,
      Eval.bind_ok (Eval.inCall_ok (Eval.inFrame_ok hrun))]
    exact ⟨_, rfl⟩

/-- Whether notes account for all functions: each that a machine binds was made before, and two are
equal just if one note made them, and then they are the same. -/
structure Note.TellApart (notes : List Note) : Prop where
  bound : ∀ (i : Nat) m, notes[i]? = some (.saw m) → ∀ id name f constant,
    m.frames.local? id name = some ⟨.function f, constant⟩ →
    ∃ j < i, notes[j]? = some (.made f)
  apart : ∀ (i j : Nat) f g, notes[i]? = some (.made f) → notes[j]? = some (.made g) →
    ((Value.function f).equals (.function g) = true ↔ i = j) ∧ (i = j → f = g)

variable {licence : Licence} {notes : List Note}

theorem Value.equals_function_iff {f g : Closure} :
    (Value.function f).equals (.function g) = true ↔ f.identity = g.identity :=
  beq_iff_eq

theorem Ledger.tellApart (h : Ledger licence [] notes) : Note.TellApart notes where
  bound := by
    intro i m hi id name f constant hbound
    exact Note.mem_functions_take.1 ((h.from_place hi).1.bound id name _ hbound).1
  apart := by
    intro i j f g hi hj
    rw [Value.equals_function_iff]
    refine ⟨⟨fun hsame => ?_, ?_⟩, ?_⟩
    · rcases Nat.lt_trichotomy i j with hlt | heq | hlt
      · exact absurd hsame (Nat.ne_of_lt (h.identity_lt hlt hi hj))
      · exact heq
      · exact absurd hsame.symm (Nat.ne_of_lt (h.identity_lt hlt hj hi))
    all_goals
      rintro rfl
      cases hi.symm.trans hj
      rfl

/-- A function that was made differs from all values that were bound before. -/
theorem Note.TellApart.new (h : Note.TellApart notes) {i j : Nat} {f : Closure} {m : Machine}
    (hi : notes[i]? = some (.made f)) (hji : j < i) (hj : notes[j]? = some (.saw m))
    {id : FrameId} {name : String} {binding : Binding}
    (hbound : m.frames.local? id name = some binding) :
    (Value.function f).equals binding.value = false := by
  obtain ⟨value, constant⟩ := binding
  cases value with
  | function g =>
    obtain ⟨k, hkj, hk⟩ := h.bound j m hj id name g constant hbound
    refine Bool.eq_false_iff.2 fun hequal => ?_
    have hsame : i = k := (h.apart i k f g hi hk).1.1 hequal
    omega
  | _ => rfl

/-- Whether all functions in the values of a result are told apart, from each other and from those
there were before, by the notes taken before and during the run. -/
structure Plan.Originates {α : Type} (host : Host) (before : List Note) (plan : Plan α)
    (run : Eval α) (values : α → List Value) (m : Machine) : Prop where
  carriedOut : plan.run host = run
  tellApart : Note.TellApart (before ++ plan.notes host m)
  made : ∀ x after, run m = .ok x after → ∀ f, .function f ∈ values x →
    ∃ i : Nat, (before ++ plan.notes host m)[i]? = some (.made f)

theorem Plan.Confined.originates {α : Type} {host : Host} (detached : host.natives.Detached)
    {before : List Note} {plan : Plan α} {run : Eval α} {values : α → List Value} {m : Machine} {inside : Bool}
    {Q : α → Set Closure → Prop}
    (hplan : plan.Confined .any inside Q {f | f ∈ Note.functions before})
    (hvalues : ∀ x more, Q x more → ∀ v ∈ values x, v.Known .any more)
    (hrun : plan.run host = run) (hbefore : Ledger .any [] before)
    (hm : m.Recorded .any (Note.functions before)) :
    plan.Originates host before run values m := by
  have hrecorded := hplan.recorded detached (fun _ => trivial) rfl m hm
  refine ⟨hrun, ?_, fun x after hx f hf => Note.mem_functions.1 ?_⟩
  · exact (Ledger.append_iff.2 ⟨hbefore, hrecorded.ledger⟩).tellApart
  · rw [Note.functions_append]
    rw [hrun] at hrecorded
    exact (hvalues x _ (hrecorded.result x after hx) _ hf).1

/-- Whether a function that is declared is new and has the name, parameters, body and scope of its
declaration, and the name is bound to it. -/
structure Machine.Declares (m after : Machine) (before : List Note) (declaration : List Note)
    (name : Token) (parameters : List Token) (body : List Stmt) (f : Closure) : Prop where
  once : Note.functions declaration = [f]
  origin : f.name = name ∧ f.parameters = parameters ∧ f.body = body ∧ f.scope = m.scope
  bound : after.frames.local? m.scope name.lexeme = some ⟨.function f, false⟩
  new : ∀ g ∈ Note.functions before, (Value.function f).equals (.function g) = false

theorem Machine.Recorded.declares {m after : Machine} {before : List Note}
    (hm : m.Recorded licence (Note.functions before)) (hscope : m.scope < m.frames.size)
    {host : Host} {call : Caller} (plans : Plan.Caller) {name : Token} {parameters : List Token}
    {body : List Stmt} {flow : Flow}
    (h : execute host call (.functionDecl name parameters body) m = .ok flow after) :
    ∃ f, m.Declares after before
      ((Plan.execute host.settings plans (.functionDecl name parameters body)).notes host m)
      name parameters body f := by
  let f : Closure := ⟨m.nextIdentity, name, parameters, body, m.scope⟩
  cases hguard : Eval.guardBuiltin host.settings name m with
  | error e last =>
    simp only [execute] at h
    cases (Eval.bind_error hguard).symm.trans h
  | ok _ last =>
    obtain rfl : last = m := by
      unfold Eval.guardBuiltin at hguard
      split at hguard <;> cases hguard
      rfl
    have hplan : Plan.execute host.settings plans (.functionDecl name parameters body) =
        .step (.guardBuiltin name) fun _ => .step (.makeClosure name parameters body) fun value =>
          .step (.define name ⟨value, false⟩) fun _ => .done .normal := by
      simp only [Plan.execute]
      rfl
    refine ⟨f, ?_, ⟨rfl, rfl, rfl, rfl⟩, ?_, fun g hg => ?_⟩
    · rw [hplan]
      simp only [Plan.notes, Step.notes, Step.run, hguard, Note.following]
      rfl
    · simp only [execute] at h
      rw [Eval.bind_ok hguard] at h
      cases h
      exact Frames.local?_define_same hscope
    · exact beq_eq_false_iff_ne.2 (Nat.ne_of_gt (hm.older g hg))

namespace Host

def record (host : Host) : Machine → List Program → List Note
  | m, [] => [.saw m]
  | m, program :: programs =>
    let watched := { m with watched := true }
    .saw m :: ((Plan.executeAll host.settings host.plans program).notes host watched ++
      .saw ((executeAll host host.call program).after watched) ::
        host.record ((host.interpret program).after m) programs)

theorem machines_record (host : Host) (programs : List Program) (m : Machine) :
    (host.record m programs).filterMap Note.machine? =
      host.points m (programs.map .interpret) ++
        [(programs.map .interpret).foldl host.perform m] := by
  induction programs generalizing m with
  | nil => rfl
  | cons program programs ih =>
    have hrun : (Plan.executeAll host.settings host.plans program).run host =
        executeAll host host.call program := host.run_executeAll _ program
    simp only [record, List.filterMap_append, List.filterMap_cons, Note.machine?,
      Plan.machines_notes, ih, List.map_cons, points, passed, Plan.history, List.map_append,
      List.map_nil, hrun, List.append_assoc, List.cons_append, List.nil_append, List.foldl_cons,
      perform]

/-- Notes of programs are in order, if the licence covers all of them. -/
theorem ledger_record {host : Host} (detached : host.natives.Detached)
    (hdeclares : ∀ name, licence.declares name) (programs : List Program)
    (hcovers : ∀ p ∈ programs, licence.Covers (Stmt.nodesOfAll p)) {made : List Closure}
    {m : Machine} (hm : m.Recorded licence made) :
    Ledger licence made (host.record m programs) := by
  induction programs generalizing m made with
  | nil => exact ⟨hm, trivial⟩
  | cons program programs ih =>
    obtain ⟨hfirst, hrest⟩ := List.forall_mem_cons.1 hcovers
    have hplan := Plan.confined_executeAll host.settings
      (Plan.confined_callValue host.settings host.settings.maxCallDepth.toNat) program hfirst false
      {f | f ∈ made}
    have hrecorded := hplan.recorded detached hdeclares rfl { m with watched := true }
      (hm.congr rfl rfl)
    have hafter := hrecorded.after
    rw [host.run_executeAll] at hafter
    refine ⟨hm, Ledger.append_iff.2 ⟨hrecorded.ledger, hafter, ih hrest ?_⟩⟩
    rw [Host.interpret]
    rcases Eval.after_asProgram (executeAll host host.call program) m with hlast | hlast
    all_goals
      rw [hlast, Eval.after_watching]
      exact hafter.congr rfl rfl

theorem admits_programs (host : Host) (programs : List Program) (m : Machine) :
    host.Admits m (programs.map .interpret) := by
  induction programs generalizing m with
  | nil => trivial
  | cons program programs ih => exact ⟨trivial, ih _⟩

end Host

def Licence.ofPrograms (programs : List Program) : Licence where
  runs := fun node => ∃ program ∈ programs, node ∈ Stmt.nodesOfAll program
  declares := fun _ => True

/-- On a machine without declared functions, whatever programs run one after the other and whatever
the host answers, if its functions keep off the heap: at every point the functions that are bound
were made before by executions of declarations of these programs, and so were those in results and
arguments of expressions evaluated there; two are equal just if one execution made both, and then
they are the same function. Each execution of a declaration makes one function, with what the
declaration says and the scope of that point, and it differs from all values there were. Values are
handed on as they are. -/
theorem functions_equal_iff_made_together (host : Host) (detached : host.natives.Detached)
    (m : Machine) (hm : m.Forest)
    (hnone : ∀ id name f constant, m.frames.local? id name ≠ some ⟨.function f, constant⟩)
    (programs : List Program) :
    let operations := programs.map Operation.interpret
    let notes := host.record m programs
    notes.filterMap Note.machine? =
      host.points m operations ++ [operations.foldl host.perform m] ∧
    Note.TellApart notes ∧
    (∀ (i : Nat) f, notes[i]? = some (.made f) →
      (∃ program ∈ programs,
        .stmt (.functionDecl f.name f.parameters f.body) ∈ Stmt.nodesOfAll program) ∧
      ∀ j < i, ∀ p, notes[j]? = some (.saw p) → ∀ id name binding,
        p.frames.local? id name = some binding →
        (Value.function f).equals binding.value = false) ∧
    ∀ (i : Nat) p, notes[i]? = some (.saw p) → p.HandsOn host ∧ ∀ calls,
      let call := callValue host calls
      let plans := Plan.callValue host.settings calls
      (∀ e, (Plan.evaluate plans e).Originates host (notes.take i) (evaluate host call e)
        (fun value => [value]) p) ∧
      (∀ es, (Plan.evaluateAll plans es).Originates host (notes.take i) (evaluateAll host call es)
        (fun values => values) p) ∧
      ∀ name parameters body flow after,
        execute host call (.functionDecl name parameters body) p = .ok flow after →
        ∃ f, p.Declares after (notes.take i)
          ((Plan.execute host.settings plans (.functionDecl name parameters body)).notes host p)
          name parameters body f := by
  intro operations notes
  have hstart : ∀ licence, m.Recorded licence [] := by
    refine fun licence => ⟨?_, by simp⟩
    rintro id name ⟨value, constant⟩ hbound
    cases value with
    | function f => exact absurd hbound (hnone id name f constant)
    | _ => trivial
  have hledger : Ledger .any [] notes :=
    Host.ledger_record detached (fun _ => trivial) programs (fun _ _ _ _ => trivial) (hstart .any)
  have hcovers : ∀ p ∈ programs, (Licence.ofPrograms programs).Covers (Stmt.nodesOfAll p) :=
    fun p hp node hnode => ⟨p, hp, hnode⟩
  have hdeclared : Ledger (.ofPrograms programs) [] notes :=
    Host.ledger_record detached (fun _ => trivial) programs hcovers (hstart _)
  have hmachines := host.machines_record programs m
  have hforest : ∀ (i : Nat) p, notes[i]? = some (.saw p) → p.Forest := by
    intro i p hi
    have hmem : p ∈ notes.filterMap Note.machine? :=
      List.mem_filterMap.2 ⟨.saw p, List.mem_iff_getElem?.2 ⟨i, hi⟩, rfl⟩
    rw [hmachines] at hmem
    have htrail := Host.trail_points detached operations m hm (host.admits_programs programs m)
    exact htrail.forest hm p hmem
  refine ⟨hmachines, hledger.tellApart, fun i f hi => ⟨(hdeclared.from_place hi).1, ?_⟩,
    fun i p hi => ⟨(hforest i p hi).handsOn host, fun calls => ?_⟩⟩
  · intro j hji p hj id name binding hbound
    exact hledger.tellApart.new hi hji hj hbound
  · have hbefore : Ledger .any [] (notes.take i) := by
      rw [← List.take_append_drop i notes] at hledger
      exact (Ledger.append_iff.1 hledger).1
    have hp : p.Recorded .any (Note.functions (notes.take i)) := (hledger.from_place hi).1
    have hcall : (Plan.callValue host.settings calls).Confined .any :=
      Plan.confined_callValue host.settings calls
    refine ⟨fun e => ?_, fun es => ?_, fun name parameters body flow after hrun => ?_⟩
    · refine (Plan.confined_evaluate hcall e (fun _ _ => trivial) false _).originates detached
        (fun value more hvalue => ?_) (host.run_evaluate calls e) hbefore hp
      exact List.forall_mem_singleton.2 hvalue
    · have hrun := Plan.run_evaluateAll (Plan.plansFor_callValue host calls) es
      exact (Plan.confined_evaluateAll hcall es (fun _ _ => trivial) false _).originates detached
        (fun _ _ hvalues => hvalues) hrun hbefore hp
    · exact hp.declares (hforest i p hi).linked.scope _ hrun

/-- The same line run twice: the function of the second run has the same name and scope as the
first, and differs from it and from all that was bound before. -/
theorem functions_equal_iff_made_together_same_line :
    let word (lexeme : String) : Token := ⟨.identifier, lexeme, none, .first⟩
    let line : Program := [.functionDecl (word "f") [] []]
    let host := Host.standard {} fun _ => none
    let m := (Machine.fresh (.empty none)).installBuiltins
    let notes := host.record m [line, line]
    host.natives.Detached ∧ m.Forest ∧
      (∀ id name f constant, m.frames.local? id name ≠ some ⟨.function f, constant⟩) ∧
      ∃ f g : Closure, notes[3]? = some (.made f) ∧ notes[9]? = some (.made g) ∧
        f.name = g.name ∧ f.scope = g.scope ∧
        (Value.function f).equals (.function g) = false ∧
        ∀ p, notes[6]? = some (.saw p) → ∀ id name binding,
          p.frames.local? id name = some binding →
          (Value.function g).equals binding.value = false := by
  intro word line host m notes
  have hdetached : host.natives.Detached := Natives.detached_builtins _
  have hforest : m.Forest := by
    have hfresh := Machine.Forest.fresh (.empty none)
    have hwithin : Operation.installBuiltins.Within (Machine.fresh (.empty none)).frames.size :=
      trivial
    exact (Host.trail_passed hdetached hfresh hwithin).forest_last hfresh
  have hnone : ∀ id name f constant,
      m.frames.local? id name ≠ some ⟨.function f, constant⟩ := by
    intro id name f constant hbound
    have hknows : m.Knows .any ∅ := (Machine.Knows.fresh _).installBuiltins
    exact Set.notMem_empty f (hknows id name _ hbound).1
  obtain ⟨_, htold, hmade, _⟩ :=
    functions_equal_iff_made_together host hdetached m hforest hnone [line, line]
  let f : Closure := ⟨5, word "f", [], [], 0⟩
  let g : Closure := ⟨6, word "f", [], [], 0⟩
  have hfirst : notes[3]? = some (.made f) := rfl
  have hsecond : notes[9]? = some (.made g) := rfl
  refine ⟨hdetached, hforest, hnone, f, g, hfirst, hsecond, rfl, rfl, ?_, ?_⟩
  · refine Bool.eq_false_iff.2 fun hequal => ?_
    cases (htold.apart 3 9 f g hfirst hsecond).1.1 hequal
  · exact (hmade 9 g hsecond).2 6 (by decide)

end Scriptlet
