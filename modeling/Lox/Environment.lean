import Lox.Value
/-!
# Frames and scope chains

Variables live in frames. A scope chain lists the frames that can be seen from a place, and
frames that several chains share are seen to change by all of them. Reading and writing comes
in two ways: by walking the chain to the nearest frame that binds a name, and by going straight
to the frame a given number of steps out.
-/

namespace Lox

/-- All frames, by number. -/
abbrev Frames := Array (Bindings Value)

namespace Frames

/-- The value that a frame binds to a name. -/
def lookup (fs : Frames) (f : FrameId) (name : Bytes) : Option Value :=
  fs[f]?.bind (Bindings.get? name)

def binds (fs : Frames) (f : FrameId) (name : Bytes) : Bool := (fs.lookup f name).isSome

/-- Binds a name in a frame, replacing an earlier binding. -/
def define (fs : Frames) (f : FrameId) (name : Bytes) (v : Value) : Frames :=
  fs.modify f (Bindings.insert name v)

/-- Binds a name in the innermost frame of a chain. -/
def defineHere (fs : Frames) (chain : Chain) (name : Bytes) (v : Value) : Frames :=
  match chain with
  | [] => fs
  | f :: _ => fs.define f name v

/-- The nearest frame of a chain that binds a name. -/
def nearest? (fs : Frames) (chain : Chain) (name : Bytes) : Option FrameId :=
  chain.find? (fs.binds · name)

/-- The value of a name, from the nearest frame that binds it. -/
def get? (fs : Frames) (chain : Chain) (name : Bytes) : Option Value :=
  chain.findSome? (fs.lookup · name)

/-- The value of a name in the frame `hops` steps out; `nil` if it is not bound there. -/
def getAt (fs : Frames) (chain : Chain) (hops : Nat) (name : Bytes) : Value :=
  (chain[hops]?.bind (fs.lookup · name)).getD .nil

/-- Binds a name in the frame `hops` steps out. -/
def assignAt (fs : Frames) (chain : Chain) (hops : Nat) (name : Bytes) (v : Value) : Frames :=
  match chain[hops]? with
  | some f => fs.define f name v
  | none => fs

end Frames

end Lox
