import Lox.Environment
import Lox.RuntimeError
/-!
# Forests of frames

Frames that enclose each other, as they arise when a program runs. A frame is known by its
number. It has a link to the frame around it, and its chain leads along the links out to a frame
that nothing encloses. Several frames can be inside one, so chains share their outer parts.
-/

namespace Lox

structure Forest where
  frames : Frames
  /-- The frame around each frame, by its number. -/
  outers : Array (Option FrameId)
  size_outers : outers.size = frames.size
  /-- A frame is older than those inside it. -/
  older : ∀ {f p : FrameId}, outers[f]?.join = some p → p < f

namespace Forest

/-- A single empty frame. -/
def root : Forest where
  frames := #[[]]
  outers := #[none]
  size_outers := rfl
  older h := by
    rw [Array.getElem?_singleton] at h
    split at h <;> cases h

/-- The frame around a frame. -/
def outer? (g : Forest) (f : FrameId) : Option FrameId := g.outers[f]?.join

/-- The frames from a frame outwards, beginning with itself. -/
def chain (g : Forest) (f : FrameId) : Chain :=
  if f < g.frames.size then
    f :: match h : g.outer? f with
      | some p =>
        have : p < f := g.older h
        g.chain p
      | none => []
  else []
termination_by f

/-- The frame a number of steps out; none if the chain is shorter. -/
def ancestor? (g : Forest) : FrameId → Nat → Option FrameId
  | f, 0 => if f < g.frames.size then some f else none
  | f, hops + 1 => (g.outer? f).bind (g.ancestor? · hops)

/-- Adds an empty frame inside `f`; where there is no such frame, inside nothing. -/
def enclose (g : Forest) (f : FrameId) : FrameId × Forest :=
  let n := g.frames.size
  (n, {
    frames := g.frames.push []
    outers := g.outers.push (if f < n then some f else none)
    size_outers := by simp [g.size_outers]
    older := fun h => by
      rw [Array.getElem?_push] at h
      split at h
      · rename_i hnew
        split at h
        · cases h
          rw [hnew, g.size_outers]
          assumption
        · cases h
      · exact g.older h })

def define (g : Forest) (f : FrameId) (name : Bytes) (v : Value) : Forest :=
  { g with
    frames := g.frames.define f name v
    size_outers := by simp [Frames.define, g.size_outers] }

/-- The value of a name as seen from a frame. -/
def get? (g : Forest) (f : FrameId) (name : Bytes) : Option Value :=
  g.frames.get? (g.chain f) name

/-- Changes the binding of a name that a frame sees; it never makes one. -/
def assign? (g : Forest) (f : FrameId) (name : Bytes) (v : Value) : Option Forest :=
  (g.frames.nearest? (g.chain f) name).map (g.define · name v)

/-- Reads a variable as it is seen from a frame. -/
def get (g : Forest) (f : FrameId) (name : Token) : Except RuntimeError Value :=
  match g.get? f name.lexeme with
  | some v => .ok v
  | none => .error (.undefinedVariable name)

/-- Writes a variable as it is seen from a frame, and gives the forest that it leaves. -/
def assign (g : Forest) (f : FrameId) (name : Token) (v : Value) :
    Except RuntimeError Unit × Forest :=
  match g.assign? f name.lexeme v with
  | some g' => (.ok (), g')
  | none => (.error (.undefinedVariable name), g)

/-- The value of a name in the frame `hops` steps out; `nil` if it is not bound there. -/
def getAt (g : Forest) (f : FrameId) (hops : Nat) (name : Bytes) : Value :=
  ((g.ancestor? f hops).bind (g.frames.lookup · name)).getD .nil

/-- Binds a name in the frame `hops` steps out. -/
def assignAt (g : Forest) (f : FrameId) (hops : Nat) (name : Bytes) (v : Value) : Forest :=
  match g.ancestor? f hops with
  | some p => g.define p name v
  | none => g

/-- The names that each frame binds, in bytewise order. -/
def names (g : Forest) : List (List Bytes) := g.frames.toList.map fun b => b.sorted.names

end Forest

end Lox
