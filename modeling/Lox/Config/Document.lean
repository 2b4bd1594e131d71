import Lox.Config.Settings
import Lox.Yaml.Node
/-!
# Settings from a document

A document changes the settings that it names. All mismatches in it are collected; a scalar that
does not fit the tag it has ends the reading at once.
-/

namespace Lox

/-- A mismatch between a document and the settings. -/
inductive Mismatch where
  | type (line : Nat) (tag text : Bytes) (target : String)
  | unknownField (line : Nat) (name : Bytes) (target : String)
  | repeatedField (line : Nat) (name : Bytes) (target : String)
  | repeatedKey (line : Nat) (name : Bytes) (earlier : Nat)

namespace Mismatch

/-- A text cut short for a message. -/
def excerpt (text : Bytes) : Bytes :=
  if 10 < text.length then text.take 7 ++ utf8 "..." else text

def message : Mismatch → Bytes
  | type line tag text target =>
    utf8 "line " ++ Bytes.ofNat line ++ utf8 ": cannot unmarshal " ++ tag ++
      (if tag == utf8 "!!seq" || tag == utf8 "!!map" then text
        else utf8 " `" ++ excerpt text ++ utf8 "`") ++
      utf8 " into " ++ utf8 target
  | unknownField line name target =>
    utf8 "line " ++ Bytes.ofNat line ++ utf8 ": field " ++ name ++ utf8 " not found in type " ++
      utf8 target
  | repeatedField line name target =>
    utf8 "line " ++ Bytes.ofNat line ++ utf8 ": field " ++ name ++
      utf8 " already set in type " ++ utf8 target
  | repeatedKey line name earlier =>
    utf8 "line " ++ Bytes.ofNat line ++ utf8 ": mapping key " ++ Quoted.encode name ++
      utf8 " already defined at line " ++ Bytes.ofNat earlier

end Mismatch

/-- Why settings cannot be read from a document. -/
inductive DocumentFault where
  | yaml (fault : Yaml.Fault)
  | mismatches (all : List Mismatch)

def DocumentFault.message : DocumentFault → Bytes
  | yaml fault => fault.message
  | mismatches all =>
    utf8 "yaml: unmarshal errors:\n  " ++ Bytes.join (utf8 "\n  ") (all.map Mismatch.message)

namespace Document

open Yaml (Node Scalar)

/-- The state while settings are read from a document. -/
structure Decoder where
  /-- The named nodes of the document. -/
  named : Array Node
  /-- The mismatches found, the last one first. -/
  found : List Mismatch
  /-- How many nodes have been read, and how many of them by way of a reference. -/
  nodes : Nat
  referred : Nat
  /-- The references that are being followed. -/
  active : List Nat
  /-- While mappings are merged, the names that are set already. -/
  merged : Option (List Bytes)

/-- Reading that collects mismatches. -/
abbrev Decode := StateT Decoder (Except Yaml.Fault)

def note (m : Mismatch) : Decode Unit := modify fun d => { d with found := m :: d.found }

/-! ## Nodes -/

/-- The part of the nodes that may be read by way of references, once there are many. It goes down
as there are more of them. -/
def allowedRatio (nodes : Nat) : Float :=
  if nodes ≤ 400000 then 0.99
  else if 4000000 ≤ nodes then 0.10
  else 0.99 - 0.89 * ((nodes - 400000).toFloat / 3600000)

/-- Counts a node. -/
def visit : Decode Unit := do
  let d ← get
  let d :=
    { d with
      nodes := d.nodes + 1
      referred := if d.active.isEmpty then d.referred else d.referred + 1 }
  set d
  if 100 < d.referred && 1000 < d.nodes &&
      allowedRatio d.nodes < d.referred.toFloat / d.nodes.toFloat then
    throw (.general .excessiveAliasing)

def target (number : Nat) : Decode Node :=
  return ((← get).named[number]?).getD (.scalar 0 [] [])

/-- Reads a node by `f`, or the one that it refers to. A reference that leads back to itself cannot
be read. -/
def following {α : Type} (node : Node) (f : Node → Decode α) : Decode α := do
  visit
  match node with
  | .reference _ name number n =>
    if (← get).active.contains n then throw (.general (.recursiveAnchor name))
    modify fun d => { d with active := n :: d.active }
    visit
    let a ← f (← target number)
    modify fun d => { d with active := d.active.tail }
    return a
  | _ => f node

/-- What a scalar stands for. -/
def scalarValue (tag text : Bytes) : Decode Scalar :=
  match Scalar.ofTagged tag text with
  | .ok v => return v
  | .error p => throw (.general p)

/-- What a node is wrong for. -/
def mismatch (target : String) : Node → Decode Unit
  | .scalar line tag text => note (.type line tag text target)
  | .sequence line tag _ | .mapping line tag _ => note (.type line tag [] target)
  | .reference _ _ _ _ => return

/-- Keys of one kind with one text. -/
def sameKey : Node → Node → Bool
  | .scalar _ _ a, .scalar _ _ b => a == b
  | .sequence _ _ _, .sequence _ _ _ => true
  | .mapping _ _ _, .mapping _ _ _ => true
  | .reference _ a _ _, .reference _ b _ _ => a == b
  | _, _ => false

def keyText : Node → Bytes
  | .scalar _ _ text => text
  | .reference _ name _ _ => name
  | _ => []

/-- The keys that stand more than once in a mapping, each with every later one. -/
def repeats : List (Node × Node) → List Mismatch
  | [] => []
  | (k, _) :: rest =>
    (rest.filterMap fun (l, _) =>
      if sameKey k l then some (.repeatedKey l.line (keyText l) k.line) else none) ++
      repeats rest

/-- Notes repeated keys; tells whether there are none. -/
def checkKeys (entries : List (Node × Node)) : Decode Bool := do
  let found := repeats entries
  modify fun d => { d with found := found.reverse ++ d.found }
  return found.isEmpty

/-! ## Scalars -/

/-- A value from a scalar by `read`. A scalar that stands for nothing changes nothing. -/
def scalar {α : Type} (target : String) (read : Scalar → Bytes → Option α) (node : Node) :
    Decode (Option α) :=
  following node fun node => do
    match node with
    | .scalar _ tag text =>
      match ← scalarValue tag text with
      | .null => return none
      | v =>
        match read v text with
        | some a => return some a
        | none =>
          mismatch target node
          return none
    | .mapping _ _ entries =>
      if ← checkKeys entries then mismatch target node
      return none
    | _ =>
      mismatch target node
      return none

def text (node : Node) : Decode (Option Bytes) :=
  scalar "string" (fun v written => match v with
    | .text s => some s
    | _ => some written) node

/-- The whole part of a double in 64 bits; those that do not fit give the least number. -/
def wholePart (x : Float) : Int :=
  if -9223372036854775808 ≤ x && x < 9223372036854775808 then x.toInt64.toInt
  else -9223372036854775808

def number (node : Node) : Decode (Option Int) :=
  scalar "int" (fun v _ => match v with
    | .int n => if n < Nat.pow 2 63 then some n else none
    | .float x => if x ≤ 9223372036854775808 then some (wholePart x) else none
    | _ => none) node

def duration (node : Node) : Decode (Option Duration) :=
  scalar "time.Duration" (fun v _ => match v with
    | .text s => (Duration.read s).toOption
    | _ => none) node

/-! ## Records -/

/-- A field of a record: its name, and how a node changes the record. -/
structure Field (α : Type) where
  name : String
  assign : Node → α → Decode α

def field {α β : Type} (name : String) (read : Node → Decode (Option β)) (put : β → α → α) :
    Field α :=
  { name := name
    assign := fun node a => do
      match ← read node with
      | some b => return put b a
      | none => return a }

def isMerge : Node → Bool
  | .scalar _ tag text => text == utf8 "<<" && tag == Scalar.mergeTag
  | _ => false

/-- The text that a key stands for, if it stands for a text. -/
def keyName (key : Node) : Decode (Option Bytes) :=
  following key fun key => do
    match key with
    | .scalar _ tag text =>
      match ← scalarValue tag text with
      | .text s => return some s
      | _ => return none
    | _ => return none

/-- A record that is being read: which of its fields the mapping has set, and while mappings are merged,
the names that are set already. -/
structure Draft (α : Type) where
  record : α
  done : List Bytes
  merged : Option (List Bytes)

/-- Changes a record by one entry of a mapping. A name that a merged mapping does not set first is
passed over; otherwise a field is set only once. -/
def entry {α : Type} (target : String) (fields : List (Field α)) (p : Draft α)
    (entry : Node × Node) : Decode (Draft α) := do
  let (key, value) := entry
  if isMerge key then return p
  match ← text key with
  | none => return p
  | some name =>
    if p.merged.any (·.contains name) then return p
    let p := { p with merged := p.merged.map (name :: ·) }
    match fields.find? fun f => utf8 f.name == name with
    | some f =>
      if p.done.contains name then
        note (.repeatedField key.line name target)
        return p
      return { p with record := ← f.assign value p.record, done := name :: p.done }
    | none =>
      note (.unknownField key.line name target)
      return p

/-- Whether a node is a mapping, or refers to one. -/
def isMergeable (node : Node) : Decode Bool := do
  match node with
  | .reference _ _ number _ => return (← target number).isMapping
  | _ => return node.isMapping

mutual

/-- Changes a record by the entries of a mapping, and then by the mappings merged into it. -/
def entries {α : Type} (target : String) (fields : List (Field α)) (fuel : Nat) (a : α)
    (all : List (Node × Node)) : Decode α :=
  match fuel with
  | 0 => return a
  | fuel + 1 => do
    if !(← checkKeys all) then return a
    let merged := (← get).merged
    modify ({ · with merged := none })
    let p ← all.foldlM (entry target fields) ⟨a, [], merged⟩
    modify ({ · with merged := p.merged })
    match all.find? fun e => isMerge e.1 with
    | none => return p.record
    | some (_, node) =>
      if p.merged.isNone then
        let names ← all.mapM fun e => keyName e.1
        modify ({ · with merged := some (names.filterMap id) })
      let a ← merge target fields fuel p.record node
      if p.merged.isNone then modify ({ · with merged := none })
      return a

/-- Changes a record by the mappings that a merge names. -/
def merge {α : Type} (target : String) (fields : List (Field α)) (fuel : Nat) (a : α)
    (node : Node) : Decode α :=
  match fuel with
  | 0 => return a
  | fuel + 1 =>
    let mergeOne (a : α) (node : Node) : Decode α := do
      if !(← isMergeable node) then throw (.general .mergeTarget)
      following node fun node =>
        match node with
        | .mapping _ _ all => entries target fields fuel a all
        | _ => return a
    match node with
    | .sequence _ _ items => items.foldlM mergeOne a
    | _ => mergeOne a node

end

/-- How many merges may stand within one another. -/
def mergeDepth : Nat := 2 * Yaml.maxDepth

/-- Changes a record by a node, which has to be a mapping. -/
def record {α : Type} (target : String) (fields : List (Field α)) (node : Node) (a : α) :
    Decode α :=
  following node fun node => do
    match node with
    | .mapping _ _ all => entries target fields mergeDepth a all
    | .scalar _ tag text =>
      match ← scalarValue tag text with
      | .null => return a
      | _ =>
        mismatch target node
        return a
    | _ =>
      mismatch target node
      return a

def serverFields : List (Field ServerSettings) :=
  [ field "addr" text fun v s => { s with address := v },
    field "jwt_secret" text fun v s => { s with secret := v },
    field "token_ttl" duration fun v s => { s with tokenLifetime := v },
    field "password_hash" text fun v s => { s with passwordHash := v } ]

def mailFields : List (Field MailSettings) :=
  [ field "host" text fun v s => { s with host := v },
    field "port" number fun v s => { s with port := v },
    field "user" text fun v s => { s with user := v },
    field "pass" text fun v s => { s with password := v },
    field "from" text fun v s => { s with sender := v } ]

def settingsFields : List (Field Settings) :=
  [ field "log_level" text fun v s => { s with logLevel := v },
    field "prompt" text fun v s => { s with prompt := v },
    field "history_file" text fun v s => { s with historyFile := v },
    { name := "server"
      assign := fun n s => do
        return { s with server := ← record "config.ServerConfig" serverFields n s.server } },
    { name := "smtp"
      assign := fun n s => do
        return { s with mail := ← record "config.SMTPConfig" mailFields n s.mail } } ]

end Document

/-- Settings changed by the first document of a file, if it has one. -/
def Settings.withDocument (s : Settings) (file : Bytes) : Except DocumentFault Settings :=
  match Yaml.Document.read file with
  | .error fault => .error (.yaml fault)
  | .ok none => .ok s
  | .ok (some document) =>
    let start : Document.Decoder :=
      { named := document.named, found := [], nodes := 1, referred := 0, active := [],
        merged := none }
    match (Document.record "config.Config" Document.settingsFields document.root s).run start with
    | .error fault => .error (.yaml fault)
    | .ok (s, d) => if d.found.isEmpty then .ok s else .error (.mismatches d.found.reverse)

end Lox
