import Lox.Text.Path
/-!
# Installing

Where the program is installed, under which name, and how its build is marked.
-/

namespace Lox.Install

/-! ## Dates -/

/-- A day of the calendar. -/
structure Date where
  year : Int
  month : Nat
  day : Nat
deriving DecidableEq, Repr

/-- The date of a day, counted from the first day of 1970. Years are counted from March on, so
that the day added in a leap year is the last one. -/
def Date.ofDays (days : Int) : Date :=
  let shifted := days + 719468
  let era := shifted.fdiv 146097
  let dayOfEra := (shifted - era * 146097).toNat
  let yearOfEra :=
    (dayOfEra - dayOfEra / 1460 + dayOfEra / 36524 - dayOfEra / 146096) / 365
  let dayOfYear := dayOfEra - (365 * yearOfEra + yearOfEra / 4 - yearOfEra / 100)
  let fromMarch := (5 * dayOfYear + 2) / 153
  let month := if fromMarch < 10 then fromMarch + 3 else fromMarch - 9
  let year := (yearOfEra : Int) + era * 400
  { year := if month ≤ 2 then year + 1 else year
    month := month
    day := dayOfYear - (153 * fromMarch + 2) / 5 + 1 }

def pad (width : Nat) (n : Nat) : Bytes :=
  let digits := Bytes.ofNat n
  List.replicate (width - digits.length) '0'.toUInt8 ++ digits

/-- The first second of the calendar, counted from the start of 1970: the first of March of a year
long past. -/
def firstSecond : Int := -(719468 + 146097 * (292277022400 / 400)) * 86400

/-- A point in time of 64 bits within the calendar, which goes on for 64 bits from its first second.
A time before it wraps around. -/
def withinCalendar (seconds : Int) : Int :=
  if seconds < firstSecond then seconds + Nat.pow 2 64 else seconds

/-- A point in time, in seconds from the start of 1970, as a date and a time in UTC. -/
def timestamp (seconds : Int) : Bytes :=
  let seconds := withinCalendar seconds
  let days := seconds.fdiv 86400
  let rest := (seconds - days * 86400).toNat
  let date := Date.ofDays days
  let year := if date.year < 0 then '-'.toUInt8 :: pad 4 date.year.natAbs
    else pad 4 date.year.natAbs
  year ++ utf8 "-" ++ pad 2 date.month ++ utf8 "-" ++ pad 2 date.day ++ utf8 "T" ++
    pad 2 (rest / 3600) ++ utf8 ":" ++ pad 2 (rest / 60 % 60) ++ utf8 ":" ++ pad 2 (rest % 60) ++
    utf8 "Z"

/-! ## The build -/

/-- The linker flags that mark a build with its commit and its time. -/
def buildFlags (commit : Bytes) (seconds : Int) : Bytes :=
  utf8 "-X lox/pkg/version.GitCommit=" ++ commit ++ utf8 " -X lox/pkg/version.BuildDate=" ++
    timestamp seconds

def isWindows (system : Bytes) : Bool := system == utf8 "windows"

/-- The name of the program's file on a system. -/
def binaryName (system : Bytes) : Bytes :=
  if isWindows system then utf8 "lox.exe" else utf8 "lox"

/-- Where the program goes if no place is given. -/
def directory (system localData temporary : Bytes) : Bytes :=
  if !isWindows system then utf8 "/usr/local/bin"
  else if localData.isEmpty then Path.join [temporary, utf8 "Lox"]
  else Path.join [localData, utf8 "Programs", utf8 "Lox"]

end Lox.Install
