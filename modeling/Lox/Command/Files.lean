import Lox.Bindings
import Lox.Text.Path
/-!
# Files

Files by their paths. A directory is there as soon as a file in it is.
-/

namespace Lox

/-- Why a file cannot be read or written. -/
inductive FileCause where
  | missing
  | directory
  | notDirectory
  | nameTooLong
  | invalid
deriving DecidableEq, Repr

def FileCause.message : FileCause → String
  | missing => "no such file or directory"
  | directory => "is a directory"
  | notDirectory => "not a directory"
  | nameTooLong => "file name too long"
  | invalid => "invalid argument"

/-- What failed on which file, and why. -/
structure FileFault where
  action : String
  path : Bytes
  cause : FileCause
deriving DecidableEq, Repr

def FileFault.message (f : FileFault) : Bytes :=
  utf8 (f.action ++ " ") ++ f.path ++ utf8 (": " ++ f.cause.message)

/-- The content of each file, by its shortest path. -/
abbrev Files := Bindings Bytes

namespace Files

def ofList (files : List (Bytes × Bytes)) : Files :=
  files.foldl (fun all (name, content) => all.insert (Path.clean name) content) []

/-! ## Places -/

/-- How long one name in a path may be. -/
def maxName : Nat := 255

/-- How long a path may be. -/
def maxPath : Nat := 4095

/-- Where a path leads to: the names on the way from the working directory or from the root, the
last one first, or a directory above the working directory. -/
inductive Place where
  | within (names : List Bytes)
  | rooted (names : List Bytes)
  | above
deriving DecidableEq, Repr

namespace Place

/-- The shortest path to a place, if it is known. -/
def path? : Place → Option Bytes
  | within names => some (Bytes.join [Path.slash] names.reverse)
  | rooted names => some (Path.slash :: Bytes.join [Path.slash] names.reverse)
  | above => none

/-- The place of a name in a directory. -/
def child (name : Bytes) : Place → Place
  | within names => within (name :: names)
  | rooted names => rooted (name :: names)
  | above => above

def parent : Place → Place
  | within [] => above
  | within (_ :: names) => within names
  | rooted names => rooted names.tail
  | above => above

/-- Where a path starts. -/
def start (path : Bytes) : Place := if Path.isRooted path then rooted [] else within []

end Place

def isDirectory (files : Files) : Place → Bool
  | .within [] | .rooted [] | .above => true
  | place => place.path?.any fun path =>
    files.names.any (Bytes.startsWith (path ++ [Path.slash]))

def content? (files : Files) (place : Place) : Option Bytes := place.path?.bind files.get?

/-- What a name stands for in a directory. Nothing is known of what is above the working
directory. -/
def enter (files : Files) (place : Place) (name : Bytes) : Except FileCause Place :=
  if !files.isDirectory place then .error .notDirectory
  else if name.isEmpty || name == utf8 "." then .ok place
  else if name == utf8 ".." then .ok place.parent
  else if maxName < name.length then .error .nameTooLong
  else if place = .above then .error .missing
  else
    let place := place.child name
    if (files.content? place).isSome || files.isDirectory place then .ok place
    else .error .missing

def checkPath (path : Bytes) : Except FileCause Unit :=
  if path.isEmpty then .error .missing
  else if path.contains 0 then .error .invalid
  else if maxPath < path.length then .error .nameTooLong
  else .ok ()

/-- Follows a path name by name. A slash at its end asks for a directory. -/
def locate (files : Files) (path : Bytes) : Except FileCause Place := do
  checkPath path
  (Bytes.splitOn Path.slash path).foldlM files.enter (.start path)

/-! ## Content -/

def read (files : Files) (path : Bytes) : Except FileFault Bytes :=
  match files.locate path with
  | .error cause => .error ⟨"open", path, cause⟩
  | .ok place =>
    match files.content? place with
    | some content => .ok content
    | none => .error ⟨"read", path, .directory⟩

/-- The path of a file that may be written. The directory has to be there. -/
def locateNew (files : Files) (path : Bytes) : Except FileCause Bytes := do
  checkPath path
  let segments := Bytes.splitOn Path.slash path
  let name := segments.getLastD []
  let directory ← segments.dropLast.foldlM files.enter (.start path)
  if !files.isDirectory directory then .error .notDirectory
  else if name.isEmpty || name == utf8 "." || name == utf8 ".." then .error .directory
  else if maxName < name.length then .error .nameTooLong
  else
    let place := directory.child name
    if files.isDirectory place then .error .directory
    else match place.path? with
      | some path => .ok path
      | none => .error .missing

/-- Puts content in place of what is at a path. -/
def write (files : Files) (path content : Bytes) : Except FileFault Files :=
  match files.locateNew path with
  | .error cause => .error ⟨"open", path, cause⟩
  | .ok place => .ok (files.insert place content)

/-- Copies a file over another. -/
def copy (files : Files) (source target : Bytes) : Except FileFault Files := do
  files.write target (← files.read source)

end Files

end Lox
