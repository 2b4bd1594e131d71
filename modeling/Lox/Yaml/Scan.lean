import Std.Data.HashMap
import Lox.Yaml.BlockScalar
import Lox.Yaml.PlainScalar
import Lox.Yaml.Tag
import Lox.Yaml.Token
/-!
# Scanning a YAML text

Tokens are read on demand. A block collection has no token of its own in the text: it starts
where the indentation grows and ends where it shrinks. Nor has a key of one line: only the colon
after it shows that it was one, so a token that may begin a key waits until that is settled.
-/

namespace Lox.Yaml

/-- A token that may turn out to begin a key: whether that is so still, whether it has to be a key,
its number among all tokens, and its place. -/
structure KeySlot where
  possible : Bool
  required : Bool
  number : Nat
  mark : Mark

def KeySlot.empty : KeySlot := ⟨false, false, 0, Mark.origin⟩

/-- The state of a scan. -/
structure Scanner where
  source : Source
  /-- The indentation of the innermost block collection, and of those around it. -/
  indent : Int
  indents : List Int
  /-- How many indentations there are around the innermost one. -/
  depth : Nat
  /-- The possible key of the text outside of brackets, and of each open pair of brackets. -/
  slots : Array KeySlot
  /-- The slot in which the token of a number waits. -/
  slotOf : Std.HashMap Nat Nat
  /-- Whether a key may start here. -/
  keyAllowed : Bool
  tokens : Array Token
  /-- How many of the tokens have been taken. -/
  taken : Nat

namespace Scanner

def ofBytes (text : Bytes) : Scanner :=
  { source := .ofBytes text, indent := -1, indents := [], depth := 0, slots := #[.empty],
    slotOf := ∅, keyAllowed := true, tokens := #[], taken := 0 }

def mark (s : Scanner) : Mark := s.source.mark

/-- Whether the scan is within brackets or braces. -/
def inFlow (s : Scanner) : Bool := 1 < s.slots.size

/-- The slot of the innermost brackets. -/
def slot (s : Scanner) : KeySlot := s.slots.back?.getD .empty

def setSlot (s : Scanner) (k : KeySlot) : Scanner :=
  { s with slots := s.slots.setIfInBounds (s.slots.size - 1) k }

def push (s : Scanner) (kind : TokenKind) (start stop : Mark) : Scanner :=
  { s with tokens := s.tokens.push ⟨kind, start, stop⟩ }

/-- Puts a token before the one with a given number, unless that has been taken. -/
def insert (s : Scanner) (number : Nat) (kind : TokenKind) (mark : Mark) : Scanner :=
  if h : s.taken ≤ number ∧ number ≤ s.tokens.size then
    { s with tokens := s.tokens.insertIdx number ⟨kind, mark, mark⟩ h.2 }
  else s.push kind mark mark

end Scanner

/-- A step of scanning. -/
abbrev Scanning := StateT Scanner (Except Fault)

namespace Scanning

def reading {α : Type} (step : Reading α) : Scanning α := do
  let s ← get
  let (a, source) ← step.run s.source
  set { s with source := source }
  return a

def fail {α : Type} (context : Mark) (p : Problem) : Scanning α := do
  throw (.scanning context (← get).mark p)

/-- Fails with nothing around the place to point at. -/
def failHere {α : Type} (p : Problem) : Scanning α := do fail (← get).mark p

def peek (i : Nat) : Scanning Char := return (← get).source.peek i

def allowKey (allowed : Bool) : Scanning Unit := modify ({ · with keyAllowed := allowed })

/-! ## Possible keys -/

/-- Whether a possible key is one no longer: keys have one line and at most 1024 characters. -/
def isStale (s : Scanner) (k : KeySlot) : Bool :=
  k.mark.line < s.mark.line || k.mark.index + 1024 < s.mark.index

/-- Whether the possible key of a slot is one still. -/
def isValid (i : Nat) : Scanning Bool := do
  let s ← get
  match s.slots[i]? with
  | none => return false
  | some k =>
    if !k.possible then return false
    else if !isStale s k then return true
    else if k.required then fail k.mark .missingColon
    else
      set { s with slots := s.slots.setIfInBounds i { k with possible := false } }
      return false

/-- Gives the innermost possible key up. -/
def removeKey : Scanning Unit := do
  let s ← get
  let k := s.slot
  if k.possible then
    if k.required then fail k.mark .missingColon
    set { s.setSlot { k with possible := false } with slotOf := s.slotOf.erase k.number }

/-- Notes that the next token may begin a key. -/
def saveKey : Scanning Unit := do
  let s ← get
  if s.keyAllowed then
    let k : KeySlot :=
      { possible := true
        required := !s.inFlow && s.indent == (s.mark.column : Int)
        number := s.tokens.size
        mark := s.mark }
    removeKey
    modify fun s =>
      { s.setSlot k with slotOf := s.slotOf.insert k.number (s.slots.size - 1) }

/-! ## Brackets and indentation -/

/-- Opens a pair of brackets. -/
def openFlow : Scanning Unit := do
  modify fun s => { s with slots := s.slots.push ⟨false, false, s.tokens.size, s.mark⟩ }
  if maxDepth < (← get).slots.size - 1 then failHere .tooDeep

/-- Closes a pair of brackets, if there is an open one. The token that its slot counts for waits no
more. -/
def closeFlow : Scanning Unit :=
  modify fun s =>
    if s.inFlow then { s with slots := s.slots.pop, slotOf := s.slotOf.erase s.slot.number } else s

/-- Starts a block collection if the indentation grows. It starts before the token with the
given number, if any. -/
def roll (column : Nat) (number : Option Nat) (kind : TokenKind) (mark : Mark) :
    Scanning Unit := do
  let s ← get
  if !s.inFlow && s.indent < (column : Int) then
    if maxDepth ≤ s.depth then fail s.slot.mark .tooDeep
    let s := { s with indents := s.indent :: s.indents, indent := column, depth := s.depth + 1 }
    set (match number with
      | some n => s.insert n kind mark
      | none => s.push kind mark mark)

/-- Ends block collections that are indented by more than `column`. -/
def unrollFrom (column : Int) (mark : Mark) (s : Scanner) : List Int → Scanner
  | [] => s
  | outer :: more =>
    if column < s.indent then
      let s := s.push .blockEnd mark mark
      unrollFrom column mark { s with indent := outer, indents := more, depth := s.depth - 1 } more
    else s

def unroll (column : Int) (mark : Mark) : Scanning Unit :=
  modify fun s => if s.inFlow then s else unrollFrom column mark s s.indents

/-! ## White space -/

/-- Skips blanks and remarks before a token on this line. A byte order mark is skipped too, as far
as it can be told. Tabs count as blanks if `tabs`. -/
def skipBlanks (tabs : Bool) : Reading Unit := do
  Reading.ensure 1
  let s ← get
  if s.mark.column == 0 && s.marked then Reading.skip
  Reading.skipWhile (fun c => c == ' ' || (tabs && c == '\t')) s.size
  if (← Reading.peek 0) == '#' then Reading.pastRemarks 0 s.size

/-- Skips white space and remarks. A line end outside of brackets allows a key again. -/
def skipGaps : Nat → Scanning Unit
  | 0 => reading Reading.exhausted
  | fuel + 1 => do
    let s ← get
    reading (skipBlanks (s.inFlow || !s.keyAllowed))
    if isBreak (← peek 0) then
      reading Reading.skipLine
      if !s.inFlow then allowKey true
      skipGaps fuel

/-! ## Tokens -/

/-- Takes a token that a step reads. -/
def token (step : Reading TokenKind) : Scanning Unit := do
  let start := (← get).mark
  let kind ← reading step
  modify fun s => s.push kind start s.mark

/-- Takes a token of one character. -/
def sign (kind : TokenKind) : Scanning Unit :=
  token do
    Reading.skip
    return kind

/-- Ends all block collections; no key can start here. -/
def closeBlocks : Scanning Unit := do
  unroll (-1) (← get).mark
  removeKey
  allowKey false

def streamEnd : Scanning Unit := do
  modify fun s =>
    if s.mark.column == 0 then s
    else { s with source := { s.source with mark := ⟨s.mark.index, s.mark.line + 1, 0⟩ } }
  closeBlocks
  modify fun s => s.push .streamEnd s.mark s.mark

def document (kind : TokenKind) : Scanning Unit := do
  closeBlocks
  token do
    Reading.skipMany 3
    return kind

/-- A line that starts with a percent sign. -/
def directive : Scanning Unit := do
  closeBlocks
  let start := (← get).mark
  token do
    Reading.skip
    let name ← Reading.directiveName start
    let kind ←
      if name == utf8 "YAML" then do
        let (major, minor) ← Reading.version start
        pure (.version major minor)
      else if name == utf8 "TAG" then do
        let (handle, text) ← Reading.handle start
        pure (.handle handle text)
      else Reading.fail start .directiveName
    Reading.restOfLine start
    return kind

def flowStart (kind : TokenKind) : Scanning Unit := do
  saveKey
  openFlow
  allowKey true
  sign kind

def flowEnd (kind : TokenKind) : Scanning Unit := do
  removeKey
  closeFlow
  allowKey false
  sign kind

def flowEntry : Scanning Unit := do
  removeKey
  allowKey true
  sign .flowEntry

def blockEntry : Scanning Unit := do
  let s ← get
  if !s.inFlow then
    if !s.keyAllowed then failHere .entryNotAllowed
    roll s.mark.column none .blockSequenceStart s.mark
  removeKey
  allowKey true
  sign .blockEntry

def key : Scanning Unit := do
  let s ← get
  if !s.inFlow then
    if !s.keyAllowed then failHere .keyNotAllowed
    roll s.mark.column none .blockMappingStart s.mark
  removeKey
  allowKey (!s.inFlow)
  sign .key

/-- A colon. If a possible key stands before it, that is a key now. -/
def value : Scanning Unit := do
  if ← isValid ((← get).slots.size - 1) then
    let k := (← get).slot
    modify fun s => s.insert k.number .key k.mark
    roll k.mark.column (some k.number) .blockMappingStart k.mark
    modify fun s =>
      { s.setSlot { k with possible := false } with slotOf := s.slotOf.erase k.number }
    allowKey false
  else
    let s ← get
    if !s.inFlow then
      if !s.keyAllowed then failHere .valueNotAllowed
      roll s.mark.column none .blockMappingStart s.mark
    allowKey (!s.inFlow)
  sign .value

/-- Takes a token that may begin a key, after which no key can start. -/
def keyToken (step : Reading TokenKind) : Scanning Unit := do
  saveKey
  allowKey false
  token step

/-- Characters that may follow the name of an anchor. -/
def endsName (c : Char) : Bool := isGap c || "?:,]\x7d%@`".toList.contains c

def anchor (kind : Bytes → TokenKind) : Scanning Unit :=
  keyToken do
    let start ← Reading.mark
    Reading.skip
    let name ← Reading.readWhile isWordChar [] (← Reading.size)
    if name.isEmpty || !endsName (← Reading.peek 0) then Reading.fail start .anchorName
    return kind (bytesOfReversed name)

def tag : Scanning Unit :=
  keyToken do
    let (handle, suffix) ← Reading.tag
    return .tag handle suffix

def quotedScalar (single : Bool) : Scanning Unit :=
  keyToken do return .scalar false (← Reading.quoted single)

def plainScalar : Scanning Unit := do
  saveKey
  allowKey false
  let s ← get
  let (text, broken) ← reading (Reading.plain (s.indent + 1) s.inFlow)
  if broken then allowKey true
  modify fun t => t.push (.scalar true text) s.mark t.mark

def blockScalar (literal : Bool) : Scanning Unit := do
  removeKey
  allowKey true
  let indent := (← get).indent
  token do return .scalar false (← Reading.block literal indent)

/-- Characters that no plain scalar starts with, unless they are followed by more text. -/
def isIndicator (c : Char) : Bool :=
  "-?:,[]\x7b\x7d#&*!|>'\"%@`".toList.contains c

def startsPlain (flow : Bool) (c next : Char) : Bool :=
  !(isGap c || isIndicator c) || (c == '-' && !isBlank next) ||
    (!flow && (c == '?' || c == ':') && !isGap next)

/-- Reads a token that starts with `c`, which `next` follows. -/
def fetchSign (c next : Char) : Scanning Unit := do
  let flow := (← get).inFlow
  match c with
  | '[' => flowStart .flowSequenceStart
  | '\x7b' => flowStart .flowMappingStart
  | ']' => flowEnd .flowSequenceEnd
  | '\x7d' => flowEnd .flowMappingEnd
  | ',' => flowEntry
  | '*' => anchor .reference
  | '&' => anchor .anchor
  | '!' => tag
  | '\'' => quotedScalar true
  | '"' => quotedScalar false
  | _ =>
    if c == '-' && isGap next then blockEntry
    else if c == '?' && (flow || isGap next) then key
    else if c == ':' && (flow || isGap next) then value
    else if c == '|' && !flow then blockScalar true
    else if c == '>' && !flow then blockScalar false
    else if startsPlain flow c next then plainScalar
    else failHere .unknownStart

/-- Reads the remark after a token on its line. After the mark of an entry there is none. -/
def lineRemark : Scanning Unit := do
  if (← get).tokens.back?.map (·.kind) != some .blockEntry then reading Reading.lineRemark

/-- Reads one more token, with the block collections that end before it. -/
def fetch : Scanning Unit := do
  reading (Reading.ensure 1)
  let before := (← get).mark
  if (← get).tokens.isEmpty then modify fun s => s.push .streamStart before before
  else
    skipGaps (← get).source.size
    unroll (← get).mark.column before
    reading (Reading.ensure 4)
    let s ← get
    let c ← peek 0
    if c == endMark then streamEnd
    else if s.mark.column == 0 && c == '%' then directive
    else if s.source.atDocument then
      document (if c == '-' then .documentStart else .documentEnd)
    else
      fetchSign c (← peek 1)
      lineRemark

/-- Reads tokens until the next one is settled: two more stand behind it, and it is known
whether it begins a key. -/
def settle : Nat → Scanning Unit
  | 0 => reading Reading.exhausted
  | fuel + 1 => do
    let s ← get
    if s.tokens.size ≤ s.taken + 2 then
      fetch
      settle fuel
    else match s.slotOf[s.taken]? with
      | none => return
      | some i =>
        if ← isValid i then
          fetch
          settle fuel

end Scanning

end Lox.Yaml
