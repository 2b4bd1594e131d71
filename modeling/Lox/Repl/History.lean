import Lox.Text.Utf8
/-!
# Lines and the history of a conversation

Lines are read through a buffer of limited size: a longer line comes in parts.
-/

namespace Lox

/-- A line, or a part of one that is too long. -/
structure InputLine where
  text : Bytes
  isPart : Bool
deriving DecidableEq, Repr

namespace InputLine

def bufferSize : Nat := 4096

def dropReturn (line : Bytes) : Bytes :=
  if line.getLast? == some '\r'.toUInt8 then line.dropLast else line

/-- The next line of an input that is not at its end, and what follows. -/
def next (s : Bytes) : InputLine × Bytes :=
  let buffer := s.take bufferSize
  let line := buffer.takeWhile (· != Bytes.newline)
  if line.length < buffer.length then (⟨dropReturn line, false⟩, s.drop (line.length + 1))
  else if buffer.length < bufferSize then (⟨line, false⟩, [])
  else
    let part := dropReturn line
    (⟨part, true⟩, s.drop part.length)

def linesOf : Nat → Bytes → List InputLine
  | 0, _ => []
  | _ + 1, [] => []
  | fuel + 1, s => let (line, rest) := next s; line :: linesOf fuel rest

/-- The lines of an input. A last line without a line end counts. -/
def all (s : Bytes) : List InputLine := linesOf s.length s

end InputLine

/-- The entries of earlier conversations and of this one. -/
abbrev History := List Bytes

namespace History

/-- How many entries are kept. -/
def limit : Nat := 1000

/-- Adds an entry; beyond the limit the oldest one goes. -/
def push (h : History) (entry : Bytes) : History :=
  let h := h ++ [entry]
  if limit < h.length then h.drop 1 else h

/-- Adds an entry, unless it repeats the last one. -/
def add (h : History) (entry : Bytes) : History :=
  if h.getLast? == some entry then h else h.push entry

/-- Reads entries up to the first one that is too long or not UTF-8. -/
def ofBytes (file : Bytes) : History :=
  ((InputLine.all file).takeWhile fun l => !l.isPart && Utf8.isValid l.text).foldl
    (fun h l => h.push l.text) []

def toBytes (h : History) : Bytes := h.flatMap fun entry => entry ++ [Bytes.newline]

end History

end Lox
