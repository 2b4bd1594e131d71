import Lox.Bindings
import Lox.Yaml.Scan
/-!
# Events of a YAML text

The order of the tokens makes up documents, collections and scalars. What may come next depends on
what has been begun and is not complete.
-/

namespace Lox.Yaml

/-- The marks before a node: its name and its tag, if any. -/
structure Properties where
  anchor : Option Bytes
  tag : Option Bytes
deriving DecidableEq, Repr

def Properties.none : Properties := ⟨Option.none, Option.none⟩

inductive EventKind where
  | streamStart
  | streamEnd
  | documentStart
  | documentEnd
  | reference (name : Bytes)
  | scalar (p : Properties) (plain : Bool) (text : Bytes)
  | sequenceStart (p : Properties)
  | sequenceEnd
  | mappingStart (p : Properties)
  | mappingEnd
deriving DecidableEq, Repr

/-- An event and the place where it starts. -/
structure Event where
  kind : EventKind
  start : Mark
deriving DecidableEq, Repr

/-- What is expected next. A collection starts differently from how it goes on. -/
inductive Expectation where
  | streamStart
  | documentStart
  | documentContent
  | documentEnd
  | blockNode
  | blockEntry (first : Bool)
  | indentlessEntry
  | blockKey (first : Bool)
  | blockValue
  | flowEntry (first : Bool)
  | pairKey
  | pairValue
  | pairEnd
  | flowKey (first : Bool)
  | flowValue
  | flowNoValue
  | nothing
deriving DecidableEq, Repr

/-- How far a text has been read. -/
structure Progress where
  scanner : Scanner
  expected : Expectation
  /-- What is expected after the innermost node, and after the nodes around it. -/
  outer : List Expectation
  /-- Where the open collections start. -/
  starts : List Mark
  /-- What the handles of tags stand for. -/
  handles : Bindings Bytes

def Progress.ofBytes (text : Bytes) : Progress :=
  { scanner := .ofBytes text, expected := .streamStart, outer := [], starts := [], handles := [] }

/-- A step of reading events. -/
abbrev Parsing := StateT Progress (Except Fault)

namespace Parsing

/-! ## Tokens -/

/-- The next token, which stays the next one. -/
def peek : Parsing Token := do
  let r ← get
  let (_, s) ← (Scanning.settle r.scanner.source.size).run r.scanner
  set { r with scanner := s }
  return (s.tokens[s.taken]?).getD ⟨.streamEnd, s.mark, s.mark⟩

/-- Takes the next token. -/
def advance : Parsing Unit :=
  modify fun r => { r with scanner := { r.scanner with taken := r.scanner.taken + 1 } }

/-- Takes the next token and gives the one after it. -/
def next : Parsing Token := do
  advance
  peek

def fail {α : Type} (context problem : Mark) (p : Problem) : Parsing α :=
  throw (.parsing context problem p)

/-! ## Expectations -/

def expect (e : Expectation) : Parsing Unit := modify ({ · with expected := e })

/-- Notes what is expected after the node that comes next. -/
def expectAfter (e : Expectation) : Parsing Unit := modify fun r => { r with outer := e :: r.outer }

/-- The node is complete. -/
def complete : Parsing Unit :=
  modify fun r => { r with expected := r.outer.headD .nothing, outer := r.outer.tail }

/-- The mark at the start of a collection. -/
def openCollection (first : Bool) : Parsing Unit := do
  if first then
    let t ← peek
    modify fun r => { r with starts := t.start :: r.starts }
    advance

/-- The collection is complete, and so is the node. -/
def closeCollection : Parsing Unit := do
  complete
  modify fun r => { r with starts := r.starts.tail }

/-- Fails within the innermost collection. -/
def failInside {α : Type} (t : Token) (p : Problem) : Parsing α := do
  fail ((← get).starts.headD Mark.origin) t.start p

/-- A scalar that stands for nothing. -/
def empty (mark : Mark) : Event := ⟨.scalar .none true [], mark⟩

/-! ## Nodes -/

/-- Reads a name and a tag, each at most once, in either order. Also gives the place of the tag. -/
def marks (t : Token) : Parsing (Option Bytes × Option (Bytes × Bytes × Mark)) := do
  match t.kind with
  | .anchor name =>
    let u ← next
    match u.kind with
    | .tag handle suffix =>
      advance
      return (some name, some (handle, suffix, u.start))
    | _ => return (some name, none)
  | .tag handle suffix =>
    let u ← next
    match u.kind with
    | .anchor name =>
      advance
      return (some name, some (handle, suffix, t.start))
    | _ => return (none, some (handle, suffix, t.start))
  | _ => return (none, none)

/-- The marks before a node that starts with `t`. -/
def properties (t : Token) : Parsing Properties := do
  let (anchor, tag) ← marks t
  let _ ← peek
  match tag with
  | none => return ⟨anchor, none⟩
  | some (handle, suffix, mark) =>
    if handle.isEmpty then return ⟨anchor, some suffix⟩
    match (← get).handles.get? handle with
    | some text => return ⟨anchor, some (text ++ suffix)⟩
    | none => fail t.start mark .tagHandle

/-- Reads the start of a node, or a whole one. Block collections are allowed if `block`, and a
sequence that is not indented if `indentless`. -/
def node (block indentless : Bool) : Parsing Event := do
  let t ← peek
  if let .reference name := t.kind then
    complete
    advance
    return ⟨.reference name, t.start⟩
  let p ← properties t
  let u ← peek
  let begins (e : Expectation) (kind : EventKind) : Parsing Event := do
    expect e
    return ⟨kind, t.start⟩
  let absent : Parsing Event := do
    if p.anchor.isSome || p.tag.isSome then
      complete
      return ⟨.scalar p true [], t.start⟩
    else fail t.start u.start .content
  match u.kind with
  | .blockEntry => if indentless then begins .indentlessEntry (.sequenceStart p) else absent
  | .scalar plain text =>
    complete
    advance
    return ⟨.scalar p plain text, t.start⟩
  | .flowSequenceStart => begins (.flowEntry true) (.sequenceStart p)
  | .flowMappingStart => begins (.flowKey true) (.mappingStart p)
  | .blockSequenceStart => if block then begins (.blockEntry true) (.sequenceStart p) else absent
  | .blockMappingStart => if block then begins (.blockKey true) (.mappingStart p) else absent
  | _ => absent

/-- Reads a node unless the next token, `t`, shows that there is none, by `ends`. -/
def nodeOr (after : Expectation) (block indentless : Bool) (t : Token) (ends : TokenKind → Bool)
    (mark : Mark) : Parsing Event := do
  if ends t.kind then
    expect after
    return empty mark
  else
    expectAfter after
    node block indentless

/-! ## Documents -/

/-- What handles stand for if nothing else is declared. -/
def defaultHandles : Bindings Bytes :=
  [(utf8 "!", utf8 "!"), (utf8 "!!", utf8 "tag:yaml.org,2002:")]

/-- Reads the directives before a document. -/
def directives (versioned : Bool) : Nat → Parsing Unit
  | 0 => throw (.general .unknown)
  | fuel + 1 => do
    let t ← peek
    match t.kind with
    | .version major minor =>
      if versioned then fail Mark.origin t.start .repeatedVersion
      if major ≠ 1 || minor ≠ 1 then fail Mark.origin t.start .incompatible
      advance
      directives true fuel
    | .handle name text =>
      if (← get).handles.has name then fail Mark.origin t.start .repeatedTag
      modify fun r => { r with handles := r.handles ++ [(name, text)] }
      advance
      directives versioned fuel
    | _ => modify fun r => { r with handles := r.handles ++ defaultHandles }

def streamStart : Parsing Event := do
  let t ← peek
  expect .documentStart
  advance
  return ⟨.streamStart, t.start⟩

def documentStart : Parsing Event := do
  let t ← peek
  let fuel := (← get).scanner.source.size
  match t.kind with
  | .streamEnd =>
    expect .nothing
    advance
    return ⟨.streamEnd, t.start⟩
  | .version _ _ | .handle _ _ | .documentStart =>
    directives false fuel
    let u ← peek
    if u.kind != .documentStart then fail Mark.origin u.start .documentStart
    expectAfter .documentEnd
    expect .documentContent
    advance
    return ⟨.documentStart, t.start⟩
  | _ =>
    directives false fuel
    expectAfter .documentEnd
    expect .blockNode
    return ⟨.documentStart, t.start⟩

def endsContent : TokenKind → Bool
  | .version _ _ | .handle _ _ | .documentStart | .documentEnd | .streamEnd => true
  | _ => false

def documentContent : Parsing Event := do
  let t ← peek
  if endsContent t.kind then
    complete
    return empty t.start
  else node true false

def documentEnd : Parsing Event := do
  let t ← peek
  if t.kind == .documentEnd then advance
  modify fun r => { r with handles := [], expected := .nothing }
  return ⟨.documentEnd, t.start⟩

/-! ## Block collections -/

def endsBlockNode : TokenKind → Bool
  | .key | .value | .blockEnd => true
  | _ => false

def blockEntry (first : Bool) : Parsing Event := do
  openCollection first
  let t ← peek
  match t.kind with
  | .blockEntry =>
    nodeOr (.blockEntry false) true false (← next) (fun k => k == .blockEntry || k == .blockEnd)
      t.stop
  | .blockEnd =>
    closeCollection
    advance
    return ⟨.sequenceEnd, t.start⟩
  | _ => failInside t .entryExpected

/-- An entry of a sequence that is indented no more than the mapping around it. -/
def indentlessEntry : Parsing Event := do
  let t ← peek
  match t.kind with
  | .blockEntry =>
    nodeOr .indentlessEntry true false (← next) (fun k => k == .blockEntry || endsBlockNode k)
      t.stop
  | _ =>
    complete
    return ⟨.sequenceEnd, t.start⟩

def blockKey (first : Bool) : Parsing Event := do
  openCollection first
  let t ← peek
  match t.kind with
  | .key => nodeOr .blockValue true true (← next) endsBlockNode t.stop
  | .blockEnd =>
    closeCollection
    advance
    return ⟨.mappingEnd, t.start⟩
  | _ => failInside t .keyExpected

def blockValue : Parsing Event := do
  let t ← peek
  match t.kind with
  | .value => nodeOr (.blockKey false) true true (← next) endsBlockNode t.stop
  | _ =>
    expect (.blockKey false)
    return empty t.start

/-! ## Collections in brackets -/

def endsPair (k : TokenKind) : Bool := k == .flowEntry || k == .flowSequenceEnd

def endsEntry (k : TokenKind) : Bool := k == .flowEntry || k == .flowMappingEnd

/-- The next token of a collection in brackets, after the comma before it. -/
def afterComma (first : Bool) (close : TokenKind) (p : Problem) : Parsing Token := do
  let t ← peek
  if first || t.kind == close then return t
  else if t.kind == .flowEntry then next
  else failInside t p

/-- An item of a sequence in brackets. A key makes an item a mapping of one entry. -/
def flowEntry (first : Bool) : Parsing Event := do
  openCollection first
  let t ← afterComma first .flowSequenceEnd .sequenceEnd
  match t.kind with
  | .flowSequenceEnd =>
    closeCollection
    advance
    return ⟨.sequenceEnd, t.start⟩
  | .key =>
    expect .pairKey
    advance
    return ⟨.mappingStart .none, t.start⟩
  | _ =>
    expectAfter (.flowEntry false)
    node false false

def pairKey : Parsing Event := do
  let t ← peek
  if t.kind == .value || endsPair t.kind then
    advance
    expect .pairValue
    return empty t.stop
  else
    expectAfter .pairValue
    node false false

/-- The value after the token `t`, if that is a colon. -/
def flowValueAt (after : Expectation) (ends : TokenKind → Bool) (t : Token) : Parsing Event := do
  if t.kind == .value then
    let u ← next
    nodeOr after false false u ends u.start
  else
    expect after
    return empty t.start

def pairValue : Parsing Event := do flowValueAt .pairEnd endsPair (← peek)

def pairEnd : Parsing Event := do
  let t ← peek
  expect (.flowEntry false)
  return ⟨.mappingEnd, t.start⟩

def flowKey (first : Bool) : Parsing Event := do
  openCollection first
  let t ← afterComma first .flowMappingEnd .mappingEnd
  match t.kind with
  | .flowMappingEnd =>
    closeCollection
    advance
    return ⟨.mappingEnd, t.start⟩
  | .key =>
    let u ← next
    nodeOr .flowValue false false u (fun k => k == .value || endsEntry k) u.start
  | _ =>
    expectAfter .flowNoValue
    node false false

def flowValue : Parsing Event := do flowValueAt (.flowKey false) endsEntry (← peek)

def flowNoValue : Parsing Event := do
  let t ← peek
  expect (.flowKey false)
  return empty t.start

/-! ## Events -/

/-- Reads the event that is expected. -/
def expectedEvent : Parsing Event := do
  match (← get).expected with
  | .streamStart => streamStart
  | .documentStart => documentStart
  | .documentContent => documentContent
  | .documentEnd => documentEnd
  | .blockNode => node true false
  | .blockEntry first => blockEntry first
  | .indentlessEntry => indentlessEntry
  | .blockKey first => blockKey first
  | .blockValue => blockValue
  | .flowEntry first => flowEntry first
  | .pairKey => pairKey
  | .pairValue => pairValue
  | .pairEnd => pairEnd
  | .flowKey first => flowKey first
  | .flowValue => flowValue
  | .flowNoValue => flowNoValue
  | .nothing => return ⟨.streamEnd, (← get).scanner.mark⟩

/-- Reads the next event. If something was wrong on the way that could be done without, it counts
now. -/
def event : Parsing Event := do
  let e ← expectedEvent
  match (← get).scanner.source.fault with
  | some p => throw (.general p)
  | none => return e

end Parsing

end Lox.Yaml
