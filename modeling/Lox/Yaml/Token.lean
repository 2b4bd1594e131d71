import Lox.Yaml.Fault
/-!
# Tokens of a YAML text
-/

namespace Lox.Yaml

inductive TokenKind where
  | streamStart
  | streamEnd
  | documentStart
  | documentEnd
  | version (major minor : Nat)
  /-- Declares what the handle of a tag stands for. -/
  | handle (name text : Bytes)
  | blockSequenceStart
  | blockMappingStart
  | blockEnd
  | flowSequenceStart
  | flowSequenceEnd
  | flowMappingStart
  | flowMappingEnd
  | flowEntry
  | blockEntry
  | key
  | value
  | reference (name : Bytes)
  | anchor (name : Bytes)
  | tag (handle suffix : Bytes)
  | scalar (plain : Bool) (text : Bytes)
deriving DecidableEq, Repr

/-- A token and the places where it starts and stops. -/
structure Token where
  kind : TokenKind
  start : Mark
  stop : Mark
deriving DecidableEq, Repr

end Lox.Yaml
