import Lox.Yaml.Event
import Lox.Yaml.Scalar
/-!
# Documents

A document is a tree of scalars, sequences and mappings. A node knows the line it starts on and
its tag; a scalar without a tag of its own has the tag of what it stands for. A node may be named
and then referred to, also from within itself.
-/

namespace Lox.Yaml

/-- A node of a document. A reference has the number of the named node, and a number of its own. -/
inductive Node where
  | scalar (line : Nat) (tag : Bytes) (text : Bytes)
  | sequence (line : Nat) (tag : Bytes) (items : List Node)
  | mapping (line : Nat) (tag : Bytes) (entries : List (Node × Node))
  | reference (line : Nat) (name : Bytes) (target number : Nat)

namespace Node

def line : Node → Nat
  | scalar n _ _ | sequence n _ _ | mapping n _ _ | reference n _ _ _ => n

def isMapping : Node → Bool
  | mapping _ _ _ => true
  | _ => false

/-- The short form of a tag. -/
def shortTag (tag : Bytes) : Bytes :=
  match Bytes.dropStart? (utf8 "tag:yaml.org,2002:") tag with
  | some name => utf8 "!!" ++ name
  | none => tag

/-- The tag of a node: the one given, or else the one it has by itself. A lone exclamation mark
gives none. -/
def chooseTag (given : Option Bytes) (own : Bytes) : Bytes :=
  match given with
  | some tag => if tag == utf8 "!" then own else shortTag tag
  | none => own

end Node

/-- A document: its root, and its named nodes by their numbers. -/
structure Document where
  root : Node
  named : Array Node

/-- A collection that is not complete: where it starts, its tag, its number if it is named, and
what it holds so far, last one first. -/
inductive Frame where
  | sequence (line : Nat) (tag : Bytes) (number : Option Nat) (items : List Node)
  | mapping (line : Nat) (tag : Bytes) (number : Option Nat) (entries : List (Node × Node))
      (key : Option Node)

/-- The state while a document is put together. -/
structure Composer where
  progress : Progress
  frames : List Frame
  /-- The numbers that names stand for. -/
  numbers : Bindings Nat
  named : Array Node
  references : Nat

/-- A step of putting a document together. -/
abbrev Composing := StateT Composer (Except Fault)

namespace Composing

def event : Composing Event := do
  let c ← get
  let (e, progress) ← Parsing.event.run c.progress
  set { c with progress := progress }
  return e

/-- A number for a node that is named. -/
def number (anchor : Option Bytes) : Composing (Option Nat) := do
  match anchor with
  | none => return none
  | some name =>
    let c ← get
    let n := c.named.size
    set { c with numbers := c.numbers.insert name n, named := c.named.push (.scalar 0 [] []) }
    return some n

/-- A reference to a node by its name. -/
def reference (line : Nat) (name : Bytes) : Composing Node := do
  let c ← get
  match c.numbers.get? name with
  | none => throw (.general (.unknownAnchor name))
  | some target =>
    set { c with references := c.references + 1 }
    return .reference line name target c.references

/-- Puts a node where it belongs. If it belongs to nothing, it is the root. -/
def place (number : Option Nat) (node : Node) : Composing (Option Node) := do
  let c ← get
  let c := match number with
    | some n => { c with named := c.named.setIfInBounds n node }
    | none => c
  match c.frames with
  | [] =>
    set c
    return some node
  | .sequence line tag n items :: outer =>
    set { c with frames := .sequence line tag n (node :: items) :: outer }
    return none
  | .mapping line tag n entries none :: outer =>
    set { c with frames := .mapping line tag n entries (some node) :: outer }
    return none
  | .mapping line tag n entries (some key) :: outer =>
    set { c with frames := .mapping line tag n ((key, node) :: entries) none :: outer }
    return none

/-- Closes the innermost collection. -/
def close : Composing (Option Node) := do
  let c ← get
  match c.frames with
  | .sequence line tag n items :: outer =>
    set { c with frames := outer }
    place n (.sequence line tag items.reverse)
  | .mapping line tag n entries _ :: outer =>
    set { c with frames := outer }
    place n (.mapping line tag entries.reverse)
  | [] => return none

def push (f : Frame) : Composing Unit := modify fun c => { c with frames := f :: c.frames }

/-- Reads events until the root is complete. -/
def root : Nat → Composing Node
  | 0 => throw (.general .unknown)
  | fuel + 1 => do
    let e ← event
    let line := e.start.line + 1
    let done ← match e.kind with
      | .reference name => do place none (← reference line name)
      | .scalar p plain text => do
        let own := if plain then Scalar.plainTag text else Scalar.textTag
        place (← number p.anchor) (.scalar line (Node.chooseTag p.tag own) text)
      | .sequenceStart p => do
        push (.sequence line (Node.chooseTag p.tag (utf8 "!!seq")) (← number p.anchor) [])
        pure none
      | .mappingStart p => do
        push (.mapping line (Node.chooseTag p.tag (utf8 "!!map")) (← number p.anchor) [] none)
        pure none
      | .sequenceEnd | .mappingEnd => close
      | _ => pure none
    match done with
    | some node => return node
    | none => root fuel

/-- Reads the first document, up to the event after it. There may be none. -/
def document (fuel : Nat) : Composing (Option Document) := do
  let _ ← event
  let e ← event
  if e.kind == .streamEnd then return none
  let node ← root fuel
  let _ ← event
  return some ⟨node, (← get).named⟩

end Composing

/-- The first document of a text, if there is one. -/
def Document.read (text : Bytes) : Except Fault (Option Document) :=
  let start : Composer :=
    { progress := .ofBytes text, frames := [], numbers := [], named := #[], references := 0 }
  ((Composing.document (8 * (text.length + 8))).run start).map (·.1)

end Lox.Yaml
