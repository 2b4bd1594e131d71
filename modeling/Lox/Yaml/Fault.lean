import Lox.Text.Bytes
/-!
# Faults of a YAML text
-/

namespace Lox.Yaml

/-- A place in a text: how many characters stand before it, its line and its column, all
counted from zero. -/
structure Mark where
  index : Nat
  line : Nat
  column : Nat
deriving DecidableEq, Repr

def Mark.origin : Mark := ⟨0, 0, 0⟩

/-- How many brackets or indentations may stand within one another. -/
def maxDepth : Nat := 10000

/-- What can be wrong with a text. -/
inductive Problem where
  | controlCharacter
  | leadingByte
  | trailingByte
  | incompleteSequence
  | sequenceLength
  | invalidCharacter
  | incompleteUnit
  | incompletePair
  | lowSurrogate
  | noLowSurrogate
  | unreadable (cause : Bytes)
  | unknownStart
  | entryNotAllowed
  | keyNotAllowed
  | valueNotAllowed
  | missingColon
  | tooDeep
  | unclosedQuote
  | documentInQuote
  | unknownEscape
  | escapeDigits
  | escapeValue
  | tabInPlain
  | tabInBlock
  | lineEnd
  | blockIndent
  | anchorName
  | tagMark
  | tagText
  | tagClosing
  | tagEscape
  | tagLeadingByte
  | tagTrailingByte
  | tagEnd
  | tagGap
  | tagHandle
  | directiveNoName
  | directiveNameEnd
  | directiveName
  | versionNumber
  | versionLength
  | versionPoint
  | repeatedVersion
  | repeatedTag
  | incompatible
  | documentStart
  | content
  | entryExpected
  | keyExpected
  | sequenceEnd
  | mappingEnd
  | unknownAnchor (name : Bytes)
  | recursiveAnchor (name : Bytes)
  | excessiveAliasing
  | wrongType (found : String) (text tag : Bytes)
  | binaryData
  | mergeTarget
  | unknown

def Problem.message : Problem → Bytes
  | controlCharacter => utf8 "control characters are not allowed"
  | leadingByte => utf8 "invalid leading UTF-8 octet"
  | trailingByte => utf8 "invalid trailing UTF-8 octet"
  | incompleteSequence => utf8 "incomplete UTF-8 octet sequence"
  | sequenceLength => utf8 "invalid length of a UTF-8 sequence"
  | invalidCharacter => utf8 "invalid Unicode character"
  | incompleteUnit => utf8 "incomplete UTF-16 character"
  | incompletePair => utf8 "incomplete UTF-16 surrogate pair"
  | lowSurrogate => utf8 "unexpected low surrogate area"
  | noLowSurrogate => utf8 "expected low surrogate area"
  | unreadable cause => utf8 "input error: " ++ cause
  | unknownStart => utf8 "found character that cannot start any token"
  | entryNotAllowed => utf8 "block sequence entries are not allowed in this context"
  | keyNotAllowed => utf8 "mapping keys are not allowed in this context"
  | valueNotAllowed => utf8 "mapping values are not allowed in this context"
  | missingColon => utf8 "could not find expected ':'"
  | tooDeep => utf8 "exceeded max depth of " ++ Bytes.ofNat maxDepth
  | unclosedQuote => utf8 "found unexpected end of stream"
  | documentInQuote => utf8 "found unexpected document indicator"
  | unknownEscape => utf8 "found unknown escape character"
  | escapeDigits => utf8 "did not find expected hexdecimal number"
  | escapeValue => utf8 "found invalid Unicode character escape code"
  | tabInPlain => utf8 "found a tab character that violates indentation"
  | tabInBlock => utf8 "found a tab character where an indentation space is expected"
  | lineEnd => utf8 "did not find expected comment or line break"
  | blockIndent => utf8 "found an indentation indicator equal to 0"
  | anchorName => utf8 "did not find expected alphabetic or numeric character"
  | tagMark => utf8 "did not find expected '!'"
  | tagText => utf8 "did not find expected tag URI"
  | tagClosing => utf8 "did not find the expected '>'"
  | tagEscape => utf8 "did not find URI escaped octet"
  | tagLeadingByte => utf8 "found an incorrect leading UTF-8 octet"
  | tagTrailingByte => utf8 "found an incorrect trailing UTF-8 octet"
  | tagEnd => utf8 "did not find expected whitespace or line break"
  | tagGap => utf8 "did not find expected whitespace"
  | tagHandle => utf8 "found undefined tag handle"
  | directiveNoName => utf8 "could not find expected directive name"
  | directiveNameEnd => utf8 "found unexpected non-alphabetical character"
  | directiveName => utf8 "found unknown directive name"
  | versionNumber => utf8 "did not find expected version number"
  | versionLength => utf8 "found extremely long version number"
  | versionPoint => utf8 "did not find expected digit or '.' character"
  | repeatedVersion => utf8 "found duplicate %YAML directive"
  | repeatedTag => utf8 "found duplicate %TAG directive"
  | incompatible => utf8 "found incompatible YAML document"
  | documentStart => utf8 "did not find expected <document start>"
  | content => utf8 "did not find expected node content"
  | entryExpected => utf8 "did not find expected '-' indicator"
  | keyExpected => utf8 "did not find expected key"
  | sequenceEnd => utf8 "did not find expected ',' or ']'"
  | mappingEnd => utf8 "did not find expected ',' or '\x7d'"
  | unknownAnchor name => utf8 "unknown anchor '" ++ name ++ utf8 "' referenced"
  | recursiveAnchor name => utf8 "anchor '" ++ name ++ utf8 "' value contains itself"
  | excessiveAliasing => utf8 "document contains excessive aliasing"
  | wrongType found text tag =>
    utf8 "cannot decode " ++ utf8 found ++ utf8 " \x60" ++ text ++ utf8 "\x60 as a " ++ tag
  | binaryData => utf8 "!!binary value contains invalid base64 data"
  | mergeTarget => utf8 "map merge requires map or sequence of maps as the value"
  | unknown => utf8 "unknown problem parsing YAML content"

/-- A problem and the line to name with it, if any. -/
structure Fault where
  problem : Problem
  line : Option Nat

def Fault.message (f : Fault) : Bytes :=
  utf8 "yaml: " ++
    (match f.line with
      | some n => utf8 "line " ++ Bytes.ofNat n ++ utf8 ": "
      | none => []) ++
    f.problem.message

/-- A problem of the text as a whole. -/
def Fault.general (problem : Problem) : Fault := ⟨problem, none⟩

/-- The line to name: that of the surroundings, or else that of the problem. The first line of
a text is never named. -/
def Fault.lineOf (context problem : Mark) : Option Nat :=
  if context.line ≠ 0 then some context.line
  else if problem.line ≠ 0 then some problem.line
  else none

/-- A problem found while taking the text apart; lines count from one. -/
def Fault.scanning (context : Mark) (problem : Mark) (p : Problem) : Fault :=
  ⟨p, (lineOf context problem).map (· + 1)⟩

/-- A problem of the order of tokens; lines count from zero. -/
def Fault.parsing (context : Mark) (problem : Mark) (p : Problem) : Fault :=
  ⟨p, lineOf context problem⟩

end Lox.Yaml
