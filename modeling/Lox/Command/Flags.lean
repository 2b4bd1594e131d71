import Lox.Bindings
import Lox.Text.Quoted
/-!
# Flags of a command

Flags stand before the other arguments of a command: `-name value` or `-name=value`, with one
dash or two. Two dashes alone end them.
-/

namespace Lox

/-- A flag with a text as its value. -/
structure Flag where
  name : String
  description : String
  default : Bytes

/-- The flags of a command. -/
structure FlagSet where
  command : String
  flags : List Flag

/-- Why the flags of a command line are not accepted. -/
inductive FlagFault where
  /-- The flags are asked for. -/
  | help
  | malformed (argument : Bytes)
  | undefined (name : Bytes)
  | needsArgument (name : Bytes)

/-- What is wrong, if anything is. -/
def FlagFault.message : FlagFault → Bytes
  | help => []
  | malformed argument => utf8 "bad flag syntax: " ++ argument ++ utf8 "\n"
  | undefined name => utf8 "flag provided but not defined: -" ++ name ++ utf8 "\n"
  | needsArgument name => utf8 "flag needs an argument: -" ++ name ++ utf8 "\n"

/-- A flag in the list of all flags, with its default if it has one. -/
def Flag.usage (f : Flag) : Bytes :=
  utf8 ("  -" ++ f.name ++ " string\n    \t" ++ f.description) ++
    (if f.default.isEmpty then []
      else utf8 " (default " ++ Quoted.encode f.default ++ utf8 ")") ++
    utf8 "\n"

namespace FlagSet

def usage (s : FlagSet) : Bytes :=
  utf8 ("Usage of " ++ s.command ++ ":\n") ++ s.flags.flatMap Flag.usage

def explain (s : FlagSet) (fault : FlagFault) : Bytes := fault.message ++ s.usage

def dash : UInt8 := '-'.toUInt8

/-- The text of a flag without its dashes; nothing if an argument is no flag. -/
def flagText? (argument : Bytes) : Option Bytes :=
  match argument with
  | a :: b :: rest =>
    if a != dash then none
    else if b == dash then some rest
    else some (b :: rest)
  | _ => none

/-- Splits a flag's text at its first equals sign that does not come first. -/
def splitValue (text : Bytes) : Bytes × Option Bytes :=
  let tail := text.drop 1
  let equals (b : UInt8) : Bool := b == '='.toUInt8
  let name := text.take 1 ++ tail.takeWhile fun b => !equals b
  match tail.dropWhile fun b => !equals b with
  | [] => (name, none)
  | _ :: value => (name, some value)

/-- Reads the flags at the start of the arguments; gives their values and the other arguments. -/
def parse (s : FlagSet) (values : Bindings Bytes) :
    List Bytes → Except FlagFault (Bindings Bytes × List Bytes)
  | [] => .ok (values, [])
  | argument :: rest =>
    if argument == [dash, dash] then .ok (values, rest)
    else match flagText? argument with
      | none => .ok (values, argument :: rest)
      | some text =>
        if text.isEmpty || text.head? == some dash || text.head? == some '='.toUInt8 then
          .error (.malformed argument)
        else
          let (name, value?) := splitValue text
          if !s.flags.any (fun f => utf8 f.name == name) then
            if name == utf8 "help" || name == utf8 "h" then .error .help
            else .error (.undefined name)
          else match value?, rest with
            | some value, rest => parse s (values.insert name value) rest
            | none, value :: rest => parse s (values.insert name value) rest
            | none, [] => .error (.needsArgument name)

/-- The value of a flag: the one given last, or its default. -/
def value (s : FlagSet) (values : Bindings Bytes) (name : String) : Bytes :=
  match values.get? (utf8 name) with
  | some v => v
  | none => ((s.flags.find? fun f => f.name == name).map Flag.default).getD []

end FlagSet

end Lox
