import Lox.Text.Bytes
/-!
# Paths

Paths with slashes between their segments.
-/

namespace Lox.Path

def slash : UInt8 := '/'.toUInt8

def isRooted (path : Bytes) : Bool := path.head? == some slash

/-- The segments of a path that count, the last one first: without those that are empty or a
point, and without those that a later `..` takes back. A `..` with nothing to take back stays,
except at the root. -/
def keep (rooted : Bool) (kept : List Bytes) (segment : Bytes) : List Bytes :=
  if segment.isEmpty || segment == utf8 "." then kept
  else if segment == utf8 ".." then
    match kept with
    | last :: before => if last == utf8 ".." then segment :: kept else before
    | [] => if rooted then [] else [segment]
  else segment :: kept

def segments (path : Bytes) : List Bytes :=
  ((Bytes.splitOn slash path).foldl (keep (isRooted path)) []).reverse

/-- The shortest path with the same meaning. -/
def clean (path : Bytes) : Bytes :=
  let body := Bytes.join [slash] (segments path)
  if isRooted path then slash :: body
  else if body.isEmpty then utf8 "."
  else body

/-- Joins parts to one path; empty parts do not count. -/
def join (parts : List Bytes) : Bytes :=
  let parts := parts.filter fun p => !p.isEmpty
  if parts.isEmpty then [] else clean (Bytes.join [slash] parts)

end Lox.Path
