import Scriptlet.Host
import Scriptlet.Machine.Output

/-!
The state in which programs run, and the steps of a run. A run may fail; what it did before stays
done.
-/

namespace Scriptlet

structure Machine where
  frames : Frames
  scope : FrameId
  depth : Nat
  /-- Whether a program runs, which has to keep to the budget of the stack. -/
  watched : Bool
  reserved : List String
  nextIdentity : Nat
  nativeCalls : Nat
  stackChecks : Nat
  output : Output

namespace Machine

def globals : FrameId := 0

def fresh (output : Output) : Machine where
  frames := Frames.empty.push ⟨[], none⟩
  scope := globals
  depth := 0
  watched := false
  reserved := []
  nextIdentity := 0
  nativeCalls := 0
  stackChecks := 0
  output := output

-- A machine gives up what is to change before it changes, so that frames and output change in place.
def modifyFrames (change : Frames → Frames) : Machine → Machine
  | { frames, scope, depth, watched, reserved, nextIdentity, nativeCalls, stackChecks, output } =>
    { frames := change frames, scope, depth, watched, reserved, nextIdentity, nativeCalls,
      stackChecks, output }

def modifyOutput (change : Output → Output) : Machine → Machine
  | { frames, scope, depth, watched, reserved, nextIdentity, nativeCalls, stackChecks, output } =>
    { frames, scope, depth, watched, reserved, nextIdentity, nativeCalls, stackChecks,
      output := change output }

def heap (m : Machine) : Heap := ⟨m.frames, m.nextIdentity⟩

def withHeap (m : Machine) (heap : Heap) : Machine :=
  { m with frames := heap.frames, nextIdentity := heap.nextIdentity }

def makeNative (m : Machine) (name : String) (arity code : Nat) : Value × Machine :=
  (.native ⟨m.nextIdentity, name, arity, code⟩, { m with nextIdentity := m.nextIdentity + 1 })

def defineGlobal (m : Machine) (name : String) (binding : Binding) : Machine :=
  m.modifyFrames (·.define globals name binding)

def install (m : Machine) (values : List (String × Value)) : Machine :=
  values.foldl (fun m (name, value) =>
    let m := m.defineGlobal name ⟨value, false⟩
    { m with reserved := name :: m.reserved }) m

def installBuiltins (m : Machine) : Machine :=
  Builtin.all.foldl (fun m builtin =>
    let (value, m) := m.makeNative builtin.name builtin.arity builtin.code
    m.install [(builtin.name, value)]) m

def global? (m : Machine) (name : String) : Option Value := m.frames.get? globals name

end Machine

abbrev Eval (α : Type) := EStateM RuntimeError Machine α

inductive Flow where
  | normal
  | returning (value : Value)

namespace Eval

def raise {α : Type} (fault : Fault) (token : Token) : Eval α := throw ⟨fault, token⟩

/-- A result, or an error at the given token. -/
def settle {α : Type} (token : Token) : Except Fault α → Eval α
  | .ok x => pure x
  | .error fault => raise fault token

def lookUp (name : Token) : Eval Value := fun m =>
  settle name (m.frames.get m.scope name.lexeme) m

def assign (name : Token) (value : Value) : Eval Unit := fun m =>
  match m.frames.target m.scope name.lexeme with
  | .ok owner => .ok () (m.modifyFrames (·.define owner name.lexeme ⟨value, false⟩))
  | .error fault => .error ⟨fault, name⟩ m

def define (name : Token) (binding : Binding) : Eval Unit := fun m =>
  let scope := m.scope
  .ok () (m.modifyFrames (·.define scope name.lexeme binding))

/-- Runs with a new frame as the innermost scope and leaves it again, whatever happens. -/
def inFrame {α : Type} (frame : Frame) (run : Eval α) : Eval α := fun m =>
  let outer := m.scope
  let m := m.modifyFrames (·.push frame)
  match run { m with scope := m.frames.newest } with
  | .ok x m => .ok x { m with scope := outer }
  | .error e m => .error e { m with scope := outer }

def inScope {α : Type} (run : Eval α) : Eval α := fun m =>
  inFrame ⟨[], some m.scope⟩ run m

def inCall {α : Type} (run : Eval α) : Eval α := fun m =>
  match run { m with depth := m.depth + 1 } with
  | .ok x m => .ok x { m with depth := m.depth - 1 }
  | .error e m => .error e { m with depth := m.depth - 1 }

def write (keyword : Token) (text : String) : Eval Unit := fun m =>
  let fits := m.output.fits text.utf8ByteSize
  let m := m.modifyOutput (·.write text)
  if fits then .ok () m else .error ⟨.outputFailed Output.failure, keyword⟩ m

def makeClosure (name : Token) (parameters : List Token) (body : List Stmt) : Eval Value := fun m =>
  .ok (.function ⟨m.nextIdentity, name, parameters, body, m.scope⟩)
    { m with nextIdentity := m.nextIdentity + 1 }

def applyNative (host : Host) (paren : Token) (code : Nat) (arguments : List Value) :
    Eval Value := fun m =>
  let (result, heap) := host.natives code m.nativeCalls arguments m.heap
  settle paren (result.mapError .nativeFailed)
    { m.withHeap heap with nativeCalls := m.nativeCalls + 1 }

def guardBuiltin (settings : Settings) (name : Token) : Eval Unit := fun m =>
  if !settings.allowBuiltinShadowing && m.scope = Machine.globals && m.reserved.contains name.lexeme
  then .error ⟨.builtinRedefinition name.lexeme, name⟩ m
  else .ok () m

/-- Refuses to go on when the budget of the stack is spent, if a program runs. -/
def checkStack (host : Host) (token : Token) : Eval Unit := fun m =>
  let holds := !m.watched || host.stack m.stackChecks m.depth
  let m := { m with stackChecks := m.stackChecks + 1 }
  if holds then .ok () m else .error ⟨.stackOverflow, token⟩ m

def guardDepth (settings : Settings) (paren : Token) : Eval Unit := fun m =>
  if settings.maxCallDepth.toNat ≤ m.depth then .error ⟨.stackOverflow, paren⟩ m else .ok () m

def guardCall (host : Host) (paren : Token) : Eval Unit := do
  guardDepth host.settings paren
  checkStack host paren

/-- Runs as a program, which has to keep to the budget of the stack. After an error the machine is
at rest again. -/
def asProgram (run : Eval Flow) : Eval Unit := fun m =>
  let watched := m.watched
  match run { m with watched := true } with
  | .ok _ m => .ok () { m with watched }
  | .error e m => .error e { m with watched, scope := Machine.globals, depth := 0 }

end Eval

end Scriptlet
