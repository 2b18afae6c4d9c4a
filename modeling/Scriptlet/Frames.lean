import Scriptlet.Fault
import Scriptlet.Value

/-!
Scopes as frames in a store. A frame binds names and is enclosed by at most one other frame; look-up
and assignment go outward to the nearest frame that binds the name, definition stays in the frame
itself. Closures and inner scopes share a frame by its number.
-/

namespace Scriptlet

structure Binding where
  value : Value
  constant : Bool

structure Frame where
  bindings : List (String × Binding)
  enclosing : Option FrameId

namespace Frame

def binding? (frame : Frame) (name : String) : Option Binding := frame.bindings.lookup name

def put (name : String) (binding : Binding) : List (String × Binding) → List (String × Binding)
  | [] => [(name, binding)]
  | entry :: rest => if entry.1 = name then (name, binding) :: rest else entry :: put name binding rest

def define (frame : Frame) (name : String) (binding : Binding) : Frame :=
  { frame with bindings := put name binding frame.bindings }

def defineAll (frame : Frame) (names : List String) (values : List Value) : Frame :=
  (names.zip values).foldl (fun frame (name, value) => frame.define name ⟨value, false⟩) frame

end Frame

/-- All frames ever made, each at the place that its number names. -/
structure Frames where
  store : Array Frame

namespace Frames

def empty : Frames := ⟨#[]⟩

def frame? (frames : Frames) (id : FrameId) : Option Frame := frames.store[id]?

def size (frames : Frames) : Nat := frames.store.size

def push (frames : Frames) (frame : Frame) : Frames := ⟨frames.store.push frame⟩

def newest (frames : Frames) : FrameId := frames.size - 1

@[simp] theorem newest_push (frames : Frames) (frame : Frame) :
    (frames.push frame).newest = frames.size := by
  simp [newest, push, size]

def local? (frames : Frames) (id : FrameId) (name : String) : Option Binding :=
  (frames.frame? id).bind (·.binding? name)

def define (frames : Frames) (id : FrameId) (name : String) (binding : Binding) : Frames :=
  ⟨frames.store.modify id (·.define name binding)⟩

def nearestWithin (frames : Frames) (name : String) :
    Nat → FrameId → Option (FrameId × Binding)
  | 0, _ => none
  | steps + 1, id => do
    let frame ← frames.frame? id
    match frame.binding? name with
    | some binding => some (id, binding)
    | none => nearestWithin frames name steps (← frame.enclosing)

/-- The nearest binding of a name and its frame. No way outward is longer than the store. -/
def nearest? (frames : Frames) (id : FrameId) (name : String) : Option (FrameId × Binding) :=
  frames.nearestWithin name frames.size id

def get? (frames : Frames) (id : FrameId) (name : String) : Option Value :=
  (frames.nearest? id name).map (·.2.value)

def get (frames : Frames) (id : FrameId) (name : String) : Except Fault Value :=
  match frames.get? id name with
  | some value => .ok value
  | none => .error (.undefinedVariable name)

/-- The frame of the nearest binding, which must not be constant. -/
def target (frames : Frames) (id : FrameId) (name : String) : Except Fault FrameId :=
  match frames.nearest? id name with
  | none => .error (.undefinedVariable name)
  | some (owner, binding) =>
    if binding.constant then .error (.constantAssignment name) else .ok owner

def assign (frames : Frames) (id : FrameId) (name : String) (value : Value) :
    Except Fault Frames := do
  let owner ← frames.target id name
  return frames.define owner name ⟨value, false⟩

end Frames

end Scriptlet
