import Scriptlet.Proofs.Plans
import Scriptlet.Proofs.Returns

/-!
An output that takes only so many bytes cuts a run at the exact byte. No step but a write looks at
the output, so a run with a limit does what the run without one does, until a write does not fit. It
writes the part that fits, and the run is over.
-/

namespace Scriptlet

theorem extract_of_size_le {bytes : ByteArray} {stop : Nat} (h : bytes.size ≤ stop) :
    bytes.extract 0 stop = bytes := by
  rw [← ByteArray.extract_zero_size (b := bytes), ByteArray.extract_extract]
  simp only [ByteArray.extract_zero_size, Nat.zero_add, Nat.min_eq_right h]

namespace Output

structure GrowsTo (before after : Output) : Prop where
  bytes : ∃ more, after.bytes = before.bytes ++ more
  capacity : after.capacity = before.capacity

variable {a b c : Output}

theorem GrowsTo.refl (a : Output) : a.GrowsTo a := ⟨⟨.empty, ByteArray.append_empty.symm⟩, rfl⟩

theorem GrowsTo.trans (h : a.GrowsTo b) (k : b.GrowsTo c) : a.GrowsTo c := by
  obtain ⟨⟨first, hfirst⟩, hcapacity⟩ := h
  obtain ⟨⟨second, hsecond⟩, hcapacity'⟩ := k
  refine ⟨⟨first ++ second, ?_⟩, hcapacity'.trans hcapacity⟩
  rw [hsecond, hfirst, ByteArray.append_assoc]

theorem GrowsTo.size_le (h : a.GrowsTo b) : a.bytes.size ≤ b.bytes.size := by
  obtain ⟨more, hmore⟩ := h.bytes
  rw [hmore, ByteArray.size_append]
  exact Nat.le_add_right _ _

theorem growsTo_write (output : Output) (text : String) : output.GrowsTo (output.write text) :=
  ⟨⟨_, rfl⟩, rfl⟩

end Output

namespace Machine

def withOutput (m : Machine) (output : Output) : Machine := { m with output := output }

def withCapacity (m : Machine) (capacity : Option Nat) : Machine :=
  m.withOutput ⟨m.output.bytes, capacity⟩

end Machine

def resultWith {α : Type} (change : Machine → Machine) :
    EStateM.Result RuntimeError Machine α → EStateM.Result RuntimeError Machine α
  | .ok x after => .ok x (change after)
  | .error e after => .error e (change after)

theorem resultWith_resultWith {α : Type} (change change' : Machine → Machine)
    (result : EStateM.Result RuntimeError Machine α) :
    resultWith change (resultWith change' result) = resultWith (change ∘ change') result := by
  cases result <;> rfl

section Results

variable {α : Type} {run : Eval α} {m other : Machine} {change : Machine → Machine}

theorem Eval.after_resultWith (h : run other = resultWith change (run m)) :
    run.after other = change (run.after m) := by
  cases hr : run m with
  | ok x after =>
    rw [hr] at h
    rw [Eval.after_ok h, Eval.after_ok hr]
  | error e after =>
    rw [hr] at h
    rw [Eval.after_error h, Eval.after_error hr]

theorem Plan.runInFrame_eq (frame : FrameId → Frame) (run : Eval α) (m : Machine) :
    runInFrame frame run m =
      resultWith ({ · with scope := m.scope }) (run (m.entering (frame m.scope))) := by
  cases h : run (m.entering (frame m.scope)) with
  | ok x after => exact Eval.inFrame_ok h
  | error e after => exact Eval.inFrame_error h

theorem Eval.inCall_eq (run : Eval α) (m : Machine) :
    inCall run m = resultWith (fun after => { after with depth := after.depth - 1 })
      (run { m with depth := m.depth + 1 }) := by
  cases h : run { m with depth := m.depth + 1 } with
  | ok x after => exact inCall_ok h
  | error e after => exact inCall_error h

theorem resultWith_congr {change' : Machine → Machine}
    (h : change (run.after m) = change' (run.after m)) :
    resultWith change (run m) = resultWith change' (run m) := by
  cases hr : run m with
  | ok x after =>
    rw [Eval.after_ok hr] at h
    exact congrArg (EStateM.Result.ok x) h
  | error e after =>
    rw [Eval.after_error hr] at h
    exact congrArg (EStateM.Result.error e) h

end Results

def Step.writes {α : Type} : Step α → Bool
  | .write _ _ => true
  | _ => false

theorem Eval.settle_withOutput {α : Type} (token : Token) (result : Except Fault α) (m : Machine)
    (output : Output) : settle token result (m.withOutput output) =
      resultWith (·.withOutput output) (settle token result m) := by
  cases result <;> rfl

theorem Eval.checkStack_withOutput (host : Host) (token : Token) (m : Machine) (output : Output) :
    checkStack host token (m.withOutput output) =
      resultWith (·.withOutput output) (checkStack host token m) := by
  simp only [checkStack, apply_ite (resultWith _)]
  rfl

/-- No step but a write looks at the output. -/
theorem Step.run_withOutput (host : Host) {α : Type} {s : Step α} (hs : s.writes = false)
    (m : Machine) (output : Output) :
    s.run host (m.withOutput output) = resultWith (·.withOutput output) (s.run host m) := by
  cases s with
  | settle token result => exact Eval.settle_withOutput token result m output
  | lookUp name => exact Eval.settle_withOutput name _ m output
  | assign name value =>
    simp only [Step.run, Eval.assign, Machine.withOutput]
    cases m.frames.target m.scope name.lexeme <;> rfl
  | define name binding => rfl
  | write keyword text => cases hs
  | makeClosure name parameters body => rfl
  | guardBuiltin name =>
    simp only [Step.run, Eval.guardBuiltin, apply_ite (resultWith _)]
    rfl
  | checkStack token => exact Eval.checkStack_withOutput host token m output
  | guardCall paren =>
    simp only [Step.run]
    by_cases hfull : host.settings.maxCallDepth.toNat ≤ m.depth
    · rw [Eval.guardCall_of_full host paren hfull,
        Eval.guardCall_of_full (m := m.withOutput output) host paren hfull]
      rfl
    · rw [Eval.guardCall_of_room host paren hfull,
        Eval.guardCall_of_room (m := m.withOutput output) host paren hfull]
      exact Eval.checkStack_withOutput host paren m output
  | applyNative paren code arguments =>
    let answer := host.natives code m.nativeCalls arguments m.heap
    exact Eval.settle_withOutput paren (answer.1.mapError .nativeFailed)
      { m.withHeap answer.2 with nativeCalls := m.nativeCalls + 1 } output

theorem Step.output_after (host : Host) {α : Type} {s : Step α} (hs : s.writes = false)
    (m : Machine) : ((s.run host).after m).output = m.output := by
  have h : (s.run host).after m = ((s.run host).after m).withOutput m.output :=
    Eval.after_resultWith (Step.run_withOutput host hs m m.output)
  rw [h]
  rfl

theorem Eval.output_refused {host : Host} {paren : Token} {m after : Machine} {e : RuntimeError}
    (h : Eval.guardCall host paren m = .error e after) : after.output = m.output := by
  have hstay := Step.output_after host (s := .guardCall paren) rfl m
  rwa [Step.run, Eval.after_error h] at hstay

namespace Eval

variable {keyword : Token} {text : String} {m : Machine}

theorem write_fits (h : m.output.fits text.utf8ByteSize = true) :
    write keyword text m =
      .ok () (m.withOutput ⟨m.output.bytes ++ text.toUTF8, m.output.capacity⟩) := by
  have hroom : m.output.room text.toUTF8.size = text.toUTF8.size := by
    unfold Output.fits at h
    unfold Output.room
    split <;> rename_i hcapacity
    · rw [hcapacity] at h
      have hle := of_decide_eq_true h
      exact Nat.min_eq_left (Nat.le_sub_of_add_le' hle)
    · rfl
  have hwrite : m.output.write text = ⟨m.output.bytes ++ text.toUTF8, m.output.capacity⟩ := by
    rw [Output.write, hroom, ByteArray.extract_zero_size]
  unfold write
  rw [if_pos h]
  exact congrArg (fun output => EStateM.Result.ok () (m.withOutput output)) hwrite

theorem write_free (hnone : m.output.capacity = none) :
    write keyword text m =
      .ok () (m.withOutput ⟨m.output.bytes ++ text.toUTF8, none⟩) := by
  have hfits : m.output.fits text.utf8ByteSize = true := by simp only [Output.fits, hnone]
  rw [write_fits hfits, hnone]

theorem write_full {capacity : Nat} (hcapacity : m.output.capacity = some capacity)
    (hle : m.output.bytes.size ≤ capacity)
    (hlt : capacity < m.output.bytes.size + text.utf8ByteSize) :
    write keyword text m = .error ⟨.outputFailed Output.failure, keyword⟩
      (m.withOutput ⟨(m.output.bytes ++ text.toUTF8).extract 0 capacity, some capacity⟩) := by
  have hfull : m.output.fits text.utf8ByteSize = false := by
    simp only [Output.fits, hcapacity, decide_eq_false_iff_not]
    exact Nat.not_le_of_lt hlt
  have hroom : m.output.room text.toUTF8.size = capacity - m.output.bytes.size := by
    simp only [Output.room, hcapacity]
    exact Nat.min_eq_right (Nat.sub_le_iff_le_add'.2 (Nat.le_of_lt hlt))
  have hwrite : m.output.write text =
      ⟨(m.output.bytes ++ text.toUTF8).extract 0 capacity, some capacity⟩ := by
    rw [Output.write, hroom, hcapacity, ByteArray.extract_append, extract_of_size_le hle,
      Nat.zero_sub]
  unfold write
  rw [if_neg (Bool.eq_false_iff.1 hfull)]
  exact congrArg (fun output => EStateM.Result.error _ (m.withOutput output)) hwrite

end Eval

/-- Whether a run only adds to the output, and is the same with a limit that leaves room for all
that it writes without one. -/
structure Eval.Appends {α : Type} (run : Eval α) : Prop where
  grows : ∀ m : Machine, m.output.GrowsTo (run.after m).output
  room : ∀ (capacity : Nat) (m : Machine), m.output.capacity = none →
    (run.after m).output.bytes.size ≤ capacity →
    run (m.withCapacity (some capacity)) = resultWith (·.withCapacity (some capacity)) (run m)

namespace Eval.Appends

variable {α β : Type} {run : Eval α} {next : α → Eval β} {m after : Machine} {x : α}

theorem grows_ok (h : run.Appends) (hr : run m = .ok x after) : m.output.GrowsTo after.output := by
  have hgrows := h.grows m
  rwa [after_ok hr] at hgrows

theorem grows_next (run : Eval α) (k : ∀ x, (next x).Appends) (m : Machine) :
    (run.after m).output.GrowsTo ((run >>= next).after m).output := by
  cases hr : run m with
  | ok x after =>
    rw [after_ok hr, after_bind_ok hr]
    exact (k x).grows after
  | error e after =>
    rw [after_error hr, after_bind_error hr]
    exact .refl _

theorem room_ok (h : run.Appends) (hnone : m.output.capacity = none) (hr : run m = .ok x after)
    {capacity : Nat} (hsize : after.output.bytes.size ≤ capacity) :
    run (m.withCapacity (some capacity)) = .ok x (after.withCapacity (some capacity)) := by
  have hrun := h.room capacity m hnone (by rwa [after_ok hr])
  rwa [hr] at hrun

theorem bind (h : run.Appends) (k : ∀ x, (next x).Appends) : (run >>= next).Appends where
  grows m := after_bind (fun m after => m.output.GrowsTo after.output) .trans (h.grows m)
    fun x after => (k x).grows after
  room capacity m hnone hsize := by
    cases hr : run m with
    | ok x after =>
      rw [after_bind_ok hr] at hsize
      have hrun := h.room_ok hnone hr (Nat.le_trans ((k x).grows after).size_le hsize)
      rw [bind_ok hr, bind_ok hrun]
      exact (k x).room capacity after ((h.grows_ok hr).capacity.trans hnone) hsize
    | error e after =>
      rw [after_bind_error hr] at hsize
      have hrun := h.room capacity m hnone (by rwa [after_error hr])
      rw [hr] at hrun
      rw [bind_error hr, bind_error hrun]
      rfl

theorem inFrame (frame : FrameId → Frame) (h : run.Appends) :
    (Plan.runInFrame frame run).Appends where
  grows m := by
    rw [Plan.after_runInFrame]
    exact h.grows (m.entering (frame m.scope))
  room capacity m hnone hsize := by
    rw [Plan.after_runInFrame] at hsize
    have hrun := h.room capacity (m.entering (frame m.scope)) hnone hsize
    rw [Plan.runInFrame_eq, Plan.runInFrame_eq, resultWith_resultWith]
    exact (congrArg (resultWith _) hrun).trans (resultWith_resultWith _ _ _)

theorem inCall (h : run.Appends) : (Eval.inCall run).Appends where
  grows m := by
    rw [after_inCall]
    exact h.grows { m with depth := m.depth + 1 }
  room capacity m hnone hsize := by
    rw [after_inCall] at hsize
    have hrun := h.room capacity { m with depth := m.depth + 1 } hnone hsize
    rw [inCall_eq, inCall_eq, resultWith_resultWith]
    exact (congrArg (resultWith _) hrun).trans (resultWith_resultWith _ _ _)

end Eval.Appends

theorem Eval.appends_write (keyword : Token) (text : String) : (write keyword text).Appends where
  grows m := by
    have hafter : ((write keyword text).after m).output = m.output.write text := by
      unfold Eval.after write
      dsimp only
      cases m.output.fits text.utf8ByteSize <;> rfl
    rw [hafter]
    exact m.output.growsTo_write text
  room capacity m hnone hsize := by
    rw [after_ok (write_free hnone)] at hsize
    have hfits : (m.withCapacity (some capacity)).output.fits text.utf8ByteSize = true :=
      decide_eq_true (ByteArray.size_append ▸ hsize)
    rw [write_free hnone, write_fits hfits]
    rfl

theorem Step.appends (host : Host) {α : Type} (s : Step α) : (s.run host).Appends := by
  cases hs : s.writes with
  | true =>
    cases s with
    | write keyword text => exact Eval.appends_write keyword text
    | _ => cases hs
  | false =>
    constructor
    · intro m
      rw [Step.output_after host hs m]
      exact .refl _
    · intro capacity m _ _
      refine (Step.run_withOutput host hs m _).trans (resultWith_congr ?_)
      rw [Machine.withCapacity, Step.output_after host hs m]

theorem Plan.appends_runCall {host : Host} {α : Type} (paren : Token) {body : Eval α}
    (h : body.Appends) :
    (runCall host paren body).Appends :=
  ((Step.guardCall paren).appends host).bind fun _ => h.inCall

theorem Plan.appends (host : Host) {α : Type} (plan : Plan α) : (plan.run host).Appends := by
  induction plan with
  | done x => exact ⟨fun m => .refl _, fun _ _ _ _ => rfl⟩
  | step s next ih => exact (s.appends host).bind ih
  | inFrame frame body next hbody ih => exact (hbody.inFrame frame).bind ih
  | call paren body next hbody ih => exact (appends_runCall paren hbody).bind ih

/-- A text that is written during a run, by the statement with this keyword. The machine is the one
just before. -/
structure Print where
  keyword : Token
  text : String
  machine : Machine

namespace Print

def bytes (print : Print) : ByteArray := print.machine.output.bytes ++ print.text.toUTF8

/-- Whether a print writes the byte with this number; the first byte has the number zero. -/
structure Writes (print : Print) (number : Nat) : Prop where
  start : print.machine.output.bytes.size ≤ number
  stop : number < print.bytes.size

def cut (print : Print) (capacity : Nat) : Machine :=
  print.machine.withOutput ⟨print.bytes.extract 0 capacity, some capacity⟩

end Print

namespace Plan

/-- What is left of a plan, and the machine, when its first part is over. -/
inductive Continues (host : Host) {α : Type} : Plan α → Machine → Plan α → Machine → Prop where
  | step {β : Type} {s : Step β} {next : β → Plan α} {m after : Machine} {x : β}
      (ran : s.run host m = .ok x after) : Continues host (.step s next) m (next x) after
  | inFrame {β : Type} {frame : FrameId → Frame} {body : Plan β} {next : β → Plan α}
      {m after : Machine} {x : β} (ran : runInFrame frame (body.run host) m = .ok x after) :
      Continues host (.inFrame frame body next) m (next x) after
  | call {β : Type} {paren : Token} {body : Plan β} {next : β → Plan α} {m after : Machine}
      {x : β} (ran : runCall host paren (body.run host) m = .ok x after) :
      Continues host (.call paren body next) m (next x) after

inductive Prints (host : Host) : {α : Type} → Plan α → Machine → Print → Prop where
  | here {α : Type} (keyword : Token) (text : String) (next : Unit → Plan α) (m : Machine) :
      Prints host (.step (.write keyword text) next) m ⟨keyword, text, m⟩
  | inFrame {α β : Type} {frame : FrameId → Frame} {body : Plan β} {next : β → Plan α}
      {m : Machine} {print : Print}
      (inside : Prints host body (m.entering (frame m.scope)) print) :
      Prints host (.inFrame frame body next) m print
  | inCall {α β : Type} {paren : Token} {body : Plan β} {next : β → Plan α} {m : Machine}
      {print : Print} (admitted : Eval.guardCall host paren m = .ok () m.checked)
      (inside : Prints host body { m.checked with depth := m.checked.depth + 1 } print) :
      Prints host (.call paren body next) m print
  | later {α : Type} {plan rest : Plan α} {m after : Machine} {print : Print}
      (first : plan.Continues host m rest after) (remaining : Prints host rest after print) :
      Prints host plan m print

variable {host : Host} {α : Type} {plan rest : Plan α} {m after : Machine} {print : Print}

theorem after_runCall {paren : Token} (h : Eval.guardCall host paren m = .ok () m.checked)
    (body : Eval α) :
    let inside := body.after { m.checked with depth := m.checked.depth + 1 }
    (runCall host paren body).after m = { inside with depth := inside.depth - 1 } := by
  rw [runCall, Eval.after_bind_ok h, Eval.after_inCall]

namespace Continues

theorem exists_first (h : plan.Continues host m rest after) :
    ∃ (β : Type) (first : Eval β) (next : β → Plan α) (x : β), first.Appends ∧
      plan.run host = (first >>= fun x => (next x).run host) ∧ first m = .ok x after ∧
      next x = rest := by
  cases h with
  | step ran => exact ⟨_, _, _, _, Step.appends host _, rfl, ran, rfl⟩
  | inFrame ran => exact ⟨_, _, _, _, (appends host _).inFrame _, rfl, ran, rfl⟩
  | call ran => exact ⟨_, _, _, _, appends_runCall _ (appends host _), rfl, ran, rfl⟩

theorem grows (h : plan.Continues host m rest after) : m.output.GrowsTo after.output := by
  obtain ⟨_, first, _, _, happends, _, hfirst, _⟩ := h.exists_first
  exact happends.grows_ok hfirst

theorem after_run (h : plan.Continues host m rest after) :
    (plan.run host).after m = (rest.run host).after after := by
  obtain ⟨_, first, next, x, _, hrun, hfirst, rfl⟩ := h.exists_first
  rw [hrun, Eval.after_bind_ok hfirst]

theorem run_limited (h : plan.Continues host m rest after) (hnone : m.output.capacity = none)
    {capacity : Nat} (hsize : after.output.bytes.size ≤ capacity) :
    plan.run host (m.withCapacity (some capacity)) =
      rest.run host (after.withCapacity (some capacity)) := by
  obtain ⟨_, first, next, x, happends, hrun, hfirst, rfl⟩ := h.exists_first
  rw [hrun, Eval.bind_ok (happends.room_ok hnone hfirst hsize)]

end Continues

namespace Prints

theorem grows (h : plan.Prints host m print) : m.output.GrowsTo print.machine.output := by
  induction h with
  | here keyword text next m => exact .refl _
  | inFrame _ ih => exact ih
  | inCall _ _ ih => exact ih
  | later first _ ih => exact first.grows.trans ih

theorem stays (h : plan.Prints host m print) (hnone : m.output.capacity = none) :
    (⟨print.bytes, none⟩ : Output).GrowsTo ((plan.run host).after m).output := by
  induction h with
  | here keyword text next m =>
    have hwrite : (Step.write keyword text).run host m = _ := Eval.write_free hnone
    rw [(Continues.step hwrite).after_run]
    exact (appends host (next ())).grows (m.withOutput ⟨m.output.bytes ++ text.toUTF8, none⟩)
  | @inFrame _ _ frame body next m _ _ ih =>
    have hnext := Eval.Appends.grows_next (runInFrame frame (body.run host))
      (fun x => appends host (next x)) m
    rw [after_runInFrame] at hnext
    exact (ih hnone).trans hnext
  | @inCall _ _ paren body next m _ admitted _ ih =>
    have hnext := Eval.Appends.grows_next (runCall host paren (body.run host))
      (fun x => appends host (next x)) m
    rw [after_runCall admitted] at hnext
    exact (ih hnone).trans hnext
  | later first _ ih =>
    rw [first.after_run]
    exact ih (first.grows.capacity.trans hnone)

/-- When only a part of a print fits, the run ends there. -/
theorem run_cut (h : plan.Prints host m print) (hnone : m.output.capacity = none) {capacity : Nat}
    (hwrites : print.Writes capacity) :
    ∃ scope depth, plan.run host (m.withCapacity (some capacity)) =
      .error ⟨.outputFailed Output.failure, print.keyword⟩
        { print.cut capacity with scope := scope, depth := depth } := by
  induction h with
  | here keyword text next m =>
    have hlt : capacity < m.output.bytes.size + text.utf8ByteSize := by
      have hstop := hwrites.stop
      rwa [Print.bytes, ByteArray.size_append] at hstop
    exact ⟨m.scope, m.depth, Eval.bind_error (Eval.write_full rfl hwrites.start hlt)⟩
  | @inFrame _ _ frame body next m print _ ih =>
    obtain ⟨scope, depth, hrun⟩ := ih hnone hwrites
    have hframe : runInFrame frame (body.run host) (m.withCapacity (some capacity)) = _ :=
      (runInFrame_eq frame (body.run host) _).trans (congrArg (resultWith _) hrun)
    exact ⟨m.scope, depth, Eval.bind_error hframe⟩
  | @inCall _ _ paren body next m print admitted hinside ih =>
    obtain ⟨scope, depth, hrun⟩ := ih hnone hwrites
    have hadmitted := ((Step.guardCall paren).appends host).room_ok hnone admitted
      (Nat.le_trans hinside.grows.size_le hwrites.start)
    have hcall : runCall host paren (body.run host) (m.withCapacity (some capacity)) = _ :=
      (Eval.bind_ok hadmitted).trans
        ((Eval.inCall_eq (body.run host) _).trans (congrArg (resultWith _) hrun))
    exact ⟨scope, depth - 1, Eval.bind_error hcall⟩
  | later first remaining ih =>
    rw [first.run_limited hnone (Nat.le_trans remaining.grows.size_le hwrites.start)]
    exact ih (first.grows.capacity.trans hnone) hwrites

end Prints

theorem exists_prints_later {β : Type} {first : Eval β} {next : β → Plan α} {number : Nat}
    (hfirst : ∀ {x after}, first m = .ok x after → plan.Continues host m (next x) after)
    (hnone : m.output.capacity = none) (hmiddle : (first.after m).output.bytes.size ≤ number)
    (hlast : number < ((first >>= fun x => (next x).run host).after m).output.bytes.size)
    (hrest : ∀ x (after : Machine), after.output.capacity = none →
      after.output.bytes.size ≤ number →
      number < (((next x).run host).after after).output.bytes.size →
      ∃ print, (next x).Prints host after print ∧ print.Writes number) :
    ∃ print, plan.Prints host m print ∧ print.Writes number := by
  cases hr : first m with
  | ok x after =>
    rw [Eval.after_ok hr] at hmiddle
    rw [Eval.after_bind_ok hr] at hlast
    have hcapacity := (hfirst hr).grows.capacity.trans hnone
    obtain ⟨print, hprints, hwrites⟩ := hrest x after hcapacity hmiddle hlast
    exact ⟨print, .later (hfirst hr) hprints, hwrites⟩
  | error e after =>
    rw [Eval.after_error hr] at hmiddle
    rw [Eval.after_bind_error hr] at hlast
    exact absurd hlast (Nat.not_lt_of_le hmiddle)

/-- Every byte of a run without a limit is written by one of its prints. -/
theorem exists_prints (plan : Plan α) (m : Machine) (hnone : m.output.capacity = none)
    {number : Nat} (hstart : m.output.bytes.size ≤ number)
    (hlast : number < ((plan.run host).after m).output.bytes.size) :
    ∃ print, plan.Prints host m print ∧ print.Writes number := by
  induction plan generalizing m with
  | done x => exact absurd hlast (Nat.not_lt_of_le hstart)
  | step s next ih =>
    rcases Nat.lt_or_ge number ((s.run host).after m).output.bytes.size with hlt | hge
    · cases hs : s.writes with
      | false =>
        rw [Step.output_after host hs m] at hlt
        exact absurd hlt (Nat.not_lt_of_le hstart)
      | true =>
        cases s with
        | write keyword text =>
          have hwrite : (Step.write keyword text).run host m = _ := Eval.write_free hnone
          rw [Eval.after_ok hwrite] at hlt
          exact ⟨_, .here keyword text next m, hstart, hlt⟩
        | _ => cases hs
    · exact exists_prints_later .step hnone hge hlast ih
  | inFrame frame body next hbody ih =>
    rcases Nat.lt_or_ge number
      ((runInFrame frame (body.run host)).after m).output.bytes.size with hlt | hge
    · rw [after_runInFrame] at hlt
      obtain ⟨print, hprints, hwrites⟩ := hbody (m.entering (frame m.scope)) hnone hstart hlt
      exact ⟨print, .inFrame hprints, hwrites⟩
    · exact exists_prints_later .inFrame hnone hge hlast ih
  | call paren body next hbody ih =>
    rcases Nat.lt_or_ge number
      ((runCall host paren (body.run host)).after m).output.bytes.size with hlt | hge
    · rcases Eval.guardCall_cases host paren m with ⟨after, hrefused, _⟩ | ⟨_, hadmitted⟩
      · rw [runCall, Eval.after_bind_error hrefused, Eval.output_refused hrefused] at hlt
        exact absurd hlt (Nat.not_lt_of_le hstart)
      · rw [after_runCall hadmitted] at hlt
        obtain ⟨print, hprints, hwrites⟩ :=
          hbody { m.checked with depth := m.checked.depth + 1 } hnone hstart hlt
        exact ⟨print, .inCall hadmitted hprints, hwrites⟩
    · exact exists_prints_later .call hnone hge hlast ih

/-- Whether an output only grows from one moment to the next. -/
def Growing (start : Output) (moments : List Moment) : Prop :=
  (start :: moments.map fun moment => moment.machine.output).Pairwise Output.GrowsTo

namespace Growing

variable {start other : Output} {moments more : List Moment}

theorem single (h : start.GrowsTo m.output) (calls : Nat) : Growing start [⟨calls, m⟩] := by
  simpa [Growing] using h

theorem cons (h : Growing m.output moments) (calls : Nat) :
    Growing m.output (⟨calls, m⟩ :: moments) := by
  refine List.pairwise_cons.2 ⟨?_, h⟩
  rw [List.map_cons, List.forall_mem_cons]
  exact ⟨.refl _, (List.pairwise_cons.1 h).1⟩

theorem of_growsTo (h : start.GrowsTo other) (k : Growing other moments) :
    Growing start moments := by
  obtain ⟨hfirst, hrest⟩ := List.pairwise_cons.1 k
  exact List.pairwise_cons.2 ⟨fun output hmem => h.trans (hfirst output hmem), hrest⟩

theorem inCall (h : Growing start moments) : Growing start (moments.map Moment.inCall) := by
  rw [Growing, List.map_map]
  exact h

theorem append {last : Moment} (h : Growing start (moments ++ [last]))
    (k : Growing last.machine.output more) : Growing start (moments ++ [last] ++ more) := by
  obtain ⟨hmore, hordered⟩ := List.pairwise_cons.1 k
  have hlast : ∀ output ∈ start :: (moments ++ [last]).map fun moment => moment.machine.output,
      output.GrowsTo last.machine.output := by
    intro output hmem
    rw [Growing, List.map_append, ← List.cons_append, List.pairwise_append] at h
    rw [List.map_append, ← List.cons_append] at hmem
    rcases List.mem_append.1 hmem with hmem | hmem
    · exact h.2.2 output hmem _ List.mem_cons_self
    · rw [List.mem_singleton.1 hmem]
      exact .refl _
  rw [Growing, List.map_append, ← List.cons_append, List.pairwise_append]
  exact ⟨h, hordered, fun a ha b hb => (hlast a ha).trans (hmore b hb)⟩

end Growing

theorem growing_following {β : Type} (first : Eval β) {next : β → Plan α} (m : Machine)
    (h : ∀ x after, Growing after.output ((next x).history host after)) :
    Growing (first.after m).output
      (following (first m) (fun x after => (next x).moments host after) ++
        [⟨0, (first >>= fun x => (next x).run host).after m⟩]) := by
  cases hr : first m with
  | ok x after =>
    rw [Eval.after_ok hr, Eval.after_bind_ok hr]
    exact h x after
  | error e after =>
    rw [Eval.after_error hr, Eval.after_bind_error hr]
    exact .single (.refl _) 0

theorem growing_history (plan : Plan α) (m : Machine) :
    Growing m.output (plan.history host m) := by
  induction plan generalizing m with
  | done x => exact .single (.refl _) 0
  | step s next ih =>
    exact ((growing_following (s.run host) m ih).of_growsTo ((s.appends host).grows m)).cons 0
  | inFrame frame body next hbody ih =>
    have hrest := growing_following (runInFrame frame (body.run host)) m ih
    rw [after_runInFrame] at hrest
    have hall := (hbody (m.entering (frame m.scope))).append hrest
    simp only [history, moments, List.cons_append, List.append_assoc, List.nil_append] at hall ⊢
    exact hall.cons 0
  | call paren body next hbody ih =>
    have hrest := growing_following (runCall host paren (body.run host)) m ih
    simp only [history, moments, List.cons_append, List.append_assoc]
    rcases Eval.guardCall_cases host paren m with ⟨after, hrefused, _⟩ | ⟨_, hadmitted⟩
    · rw [runCall, Eval.after_bind_error hrefused, Eval.output_refused hrefused] at hrest
      rw [hrefused]
      exact hrest.cons 0
    · rw [after_runCall hadmitted] at hrest
      rw [hadmitted]
      have hinside := (hbody { m.checked with depth := m.checked.depth + 1 }).inCall
      rw [history, List.map_append, List.map_singleton] at hinside
      have hall := hinside.append hrest
      simp only [following, List.map_append, List.map_singleton, List.append_assoc] at hall ⊢
      exact hall.cons 0

end Plan

theorem Eval.output_after_asProgram (run : Eval Flow) (m : Machine) :
    (run.asProgram.after m).output = (run.after { m with watched := true }).output := by
  unfold Eval.after asProgram
  cases run { m with watched := true } <;> rfl

theorem Eval.asProgram_withCapacity {run : Eval Flow} {m other : Machine} {capacity : Option Nat}
    (hwatched : other.watched = m.watched) (h : run { other with watched := true } =
      resultWith (·.withCapacity capacity) (run { m with watched := true })) :
    run.asProgram other = resultWith (·.withCapacity capacity) (run.asProgram m) := by
  simp only [asProgram, h, hwatched]
  cases run { m with watched := true } <;> rfl

theorem Output.GrowsTo.extract {a b : Output} (h : a.GrowsTo b) {stop : Nat}
    (hstop : stop ≤ a.bytes.size) : b.bytes.extract 0 stop = a.bytes.extract 0 stop := by
  obtain ⟨more, hmore⟩ := h.bytes
  have hnone : more.extract 0 0 = .empty := ByteArray.extract_eq_empty_iff.2 (Nat.min_le_left _ _)
  rw [hmore, ByteArray.extract_append, Nat.zero_sub, Nat.sub_eq_zero_of_le hstop, hnone,
    ByteArray.append_empty]

/-- What fits of the print that comes to the limit, with all before it, is what fits of all that the
run writes. -/
theorem Plan.Prints.extract_bytes {host : Host} {α : Type} {plan : Plan α} {m : Machine}
    {print : Print} (h : plan.Prints host m print) (hnone : m.output.capacity = none)
    {printed : ByteArray}
    (hwhole : ((plan.run host).after m).output.bytes = m.output.bytes ++ printed) {count : Nat}
    (hwrites : print.Writes (m.output.bytes.size + count)) :
    print.bytes.extract 0 (m.output.bytes.size + count) =
      m.output.bytes ++ printed.extract 0 count := by
  have hstays := (h.stays hnone).extract (Nat.le_of_lt hwrites.stop)
  rw [← hstays, hwhole, ByteArray.extract_append, extract_of_size_le (Nat.le_add_right _ _),
    Nat.zero_sub, Nat.add_sub_cancel_left]

/-- A program whose output takes only so many more bytes. If all that it prints without a limit
fits, it ends in the same way, with the same frames and the same output. If not, one of its prints
writes the first byte that does not fit, and any such print is where it fails: at the keyword of
that statement, with the frames of that moment, and with exactly the bytes that fit. In every run,
failing or not, the output only grows from each moment to all later ones. -/
theorem output_cut_exact (host : Host) (program : Program) (m : Machine) (count : Nat) :
    let calls := host.settings.maxCallDepth.toNat
    let plan := Plan.executeAll host.settings (Plan.callValue host.settings calls) program
    let run := host.interpret program
    let free := m.withCapacity none
    let started := { free with watched := true }
    let capacity := m.output.bytes.size + count
    let limited := m.withCapacity (some capacity)
    (plan.run host).asProgram = run ∧
    (∃ printed, (run.after free).output.bytes = m.output.bytes ++ printed ∧
      (printed.size ≤ count →
        run limited = resultWith (·.withCapacity (some capacity)) (run free)) ∧
      (count < printed.size → ∃ print, plan.Prints host started print ∧ print.Writes capacity) ∧
      ∀ print, plan.Prints host started print → print.Writes capacity →
        run limited = .error ⟨.outputFailed "disk full", print.keyword⟩
          { print.machine with
            scope := Machine.globals
            depth := 0
            watched := m.watched
            output := ⟨m.output.bytes ++ printed.extract 0 count, some capacity⟩ }) ∧
    (Fault.outputFailed "disk full").message = "Could not write output: disk full." ∧
    ∀ start : Machine, Plan.Growing start.output (plan.history host start) ∧
      start.output.GrowsTo (run.after start).output := by
  intro calls plan run free started capacity limited
  have hrun : (plan.run host).asProgram = run :=
    congrArg Eval.asProgram (host.run_executeAll calls program)
  have hgrows : ∀ start : Machine, start.output.GrowsTo (run.after start).output := by
    intro start
    rw [← hrun, Eval.output_after_asProgram]
    exact (plan.appends host).grows { start with watched := true }
  refine ⟨hrun, ?_, rfl, fun start => ⟨plan.growing_history start, hgrows start⟩⟩
  obtain ⟨printed, hprinted⟩ := (hgrows free).bytes
  have hwhole : ((plan.run host).after started).output.bytes = m.output.bytes ++ printed := by
    rw [← Eval.output_after_asProgram, hrun]
    exact hprinted
  have hsize : ((plan.run host).after started).output.bytes.size =
      m.output.bytes.size + printed.size := by
    rw [hwhole, ByteArray.size_append]
  refine ⟨printed, hprinted, ?_, ?_, ?_⟩
  · intro hle
    have hroom := (plan.appends host).room capacity started rfl
      (hsize ▸ Nat.add_le_add_left hle m.output.bytes.size)
    rw [← hrun]
    exact Eval.asProgram_withCapacity rfl hroom
  · intro hlt
    exact plan.exists_prints started rfl (Nat.le_add_right _ _)
      (hsize ▸ Nat.add_lt_add_left hlt m.output.bytes.size)
  · intro print hprints hwrites
    obtain ⟨scope, depth, hcut⟩ := hprints.run_cut rfl hwrites
    have hbytes : print.bytes.extract 0 capacity = m.output.bytes ++ printed.extract 0 count :=
      hprints.extract_bytes rfl hwhole hwrites
    rw [← hrun, ← hbytes]
    exact Eval.asProgram_error (m := limited) hcut

/-- Three bytes of room: the first print fits, the second one is cut inside its first character. -/
theorem output_cut_exact_inside_character :
    let stop (lexeme : String) (column : Nat) : Token := ⟨.identifier, lexeme, none, ⟨1, column⟩⟩
    let program : Program := [.print (stop "print" 1) (.literal (.string "a")),
      .block [.print (stop "print" 14) (.literal (.string "é"))]]
    let host := Host.standard {} fun _ => none
    let calls := host.settings.maxCallDepth.toNat
    let plan := Plan.executeAll host.settings (Plan.callValue host.settings calls) program
    let m := Machine.fresh (.empty none)
    ∃ print, plan.Prints host { m with watched := true } print ∧ print.Writes 3 ∧
      host.interpret program (m.withCapacity (some 3)) =
        .error ⟨.outputFailed "disk full", stop "print" 14⟩
          { print.machine with
            scope := Machine.globals
            depth := 0
            watched := false
            output := ⟨⟨#[97, 10, 195]⟩, some 3⟩ } := by
  intro stop program host calls plan m
  obtain ⟨_, ⟨printed, hprinted, _, hreached, hcut⟩, _, _⟩ :=
    output_cut_exact host program m 3
  have hall : ((host.interpret program).after m).output.bytes =
      ⟨#[97, 10, 195, 169, 10]⟩ := by decide +kernel
  obtain rfl : printed = ⟨#[97, 10, 195, 169, 10]⟩ :=
    ByteArray.empty_append.symm.trans (hprinted.symm.trans hall)
  obtain ⟨print, hprints, hwrites⟩ := hreached (by decide +kernel)
  have hrun : host.interpret program (m.withCapacity (some 3)) = _ :=
    hcut print hprints hwrites
  have hkeyword : (match host.interpret program (m.withCapacity (some 3)) with
      | .error e _ => some e.token
      | .ok _ _ => none) = some (stop "print" 14) := by decide +kernel
  rw [hrun] at hkeyword
  have hstop : print.keyword = stop "print" 14 := Option.some.inj hkeyword
  have hbytes : m.output.bytes ++ ByteArray.extract ⟨#[97, 10, 195, 169, 10]⟩ 0 3 =
      ⟨#[97, 10, 195]⟩ := by decide +kernel
  rw [hbytes, hstop] at hrun
  exact ⟨print, hprints, hwrites, hrun⟩

end Scriptlet
