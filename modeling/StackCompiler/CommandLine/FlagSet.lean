/-
**Sets of flags.**

The flags of a program are defined one after the other; no name and no shorthand may be defined
twice.  A flag can be made a family, whose name followed by anything adds to its list, and switches
can be put into groups.  Reading a command line assigns values and collects the other arguments.
-/

import StackCompiler.CommandLine.Flag

namespace StackCompiler.CommandLine

/-- What can be wrong with a definition. -/
inductive DefinitionError where
  | emptyName
  | redefined (name : Text)
  | shorthandRedefined (shorthand : Text)
deriving DecidableEq, Repr

/-- The text of what is wrong with a definition. -/
def DefinitionError.message : DefinitionError → Text
  | emptyName => text "flag name cannot be empty"
  | redefined name => text "flag redefined: " ++ name
  | shorthandRedefined shorthand => text "shorthand flag redefined: " ++ shorthand

/-- A pair of switches in a group: one that turns something on, and one that turns it off.  Either
may be missing. -/
structure GroupEntry where
  name : Text
  mark : Text
  usage : Text := []
  /-- The setting from the start of the switch that turns something on. -/
  on : Option Bool := none
  /-- The setting from the start of the switch that turns something off. -/
  off : Option Bool := none
deriving DecidableEq, Repr

/-- The flag that switches an entry on. -/
def GroupEntry.onName (e : GroupEntry) : Text := e.mark ++ e.name

/-- The name of the switch that turns something off. -/
def GroupEntry.offName (e : GroupEntry) : Text := e.mark ++ text "no-" ++ e.name

/-- Switches that belong together. -/
structure Group where
  name : Text
  kind : Text := []
  header : Text := []
  entries : List GroupEntry := []
deriving DecidableEq, Repr

/-- Flags with their values, and what was read. -/
structure FlagSet where
  /-- The flags, in the order of their definitions. -/
  flags : List Flag := []
  shorthands : List (Text × Text) := []
  families : List Text := []
  groups : List Group := []
  visited : List Text := []
  args : List Text := []
deriving DecidableEq, Repr

namespace FlagSet

/-- The flag with a name. -/
def lookup (fs : FlagSet) (name : Text) : Option Flag := fs.flags.find? (·.name == name)

/-- The value of a flag. -/
def value? (fs : FlagSet) (name : Text) : Option Value := (fs.lookup name).map (·.value)

/-- Whether a flag was set. -/
def changed (fs : FlagSet) (name : Text) : Bool := fs.visited.contains name

/-- The names of the flags that were assigned, in order. -/
def visitedNames (fs : FlagSet) : List Text := Text.sorted fs.visited

/-! ### Definitions -/

/-- **Defines a flag.**  It stays defined if only its shorthand is taken. -/
def define (fs : FlagSet) (f : Flag) : FlagSet × Option DefinitionError :=
  if f.name.isEmpty then (fs, some .emptyName)
  else if (fs.lookup f.name).isSome then (fs, some (.redefined f.name))
  else
    let fs := { fs with flags := fs.flags ++ [f] }
    if f.shorthand.isEmpty then (fs, none)
    else if (fs.shorthands.lookup f.shorthand).isSome then
      (fs, some (.shorthandRedefined f.shorthand))
    else ({ fs with shorthands := fs.shorthands ++ [(f.shorthand, f.name)] }, none)

/-- Defines flags up to the first definition that is wrong. -/
def defineAll (fs : FlagSet) : List Flag → FlagSet × Option DefinitionError
  | [] => (fs, none)
  | f :: rest =>
    match fs.define f with
    | (fs, none) => defineAll fs rest
    | (fs, some e) => (fs, some e)

/-- **Defines a family**: its name followed by anything adds to its list. -/
def defineFamily (fs : FlagSet) (name usage expected : Text) : FlagSet × Option DefinitionError :=
  match fs.define { name, usage, expected, value := .list [] } with
  | (fs, none) => ({ fs with families := fs.families ++ [name] }, none)
  | (fs, some e) => (fs, some e)

/-- The flags of an entry. -/
def switchesOf (e : GroupEntry) : List Flag :=
  (e.on.map fun b => Flag.ofValue e.onName [] (.bool b) e.usage []).toList ++
    (e.off.map fun b => Flag.ofValue e.offName [] (.bool b)
      (text "Disable '" ++ e.name ++ text "'") []).toList

/-- **Defines a group** with all its switches. -/
def defineGroup (fs : FlagSet) (g : Group) : FlagSet × Option DefinitionError :=
  match fs.defineAll (g.entries.flatMap switchesOf) with
  | (fs, none) => ({ fs with groups := fs.groups ++ [g] }, none)
  | (fs, some e) => (fs, some e)

/-! ### Reading a command line -/

/-- What an argument with dashes asks for. -/
inductive Request where
  | assign (name value : Text)
  | awaits (name shown : Text)
deriving DecidableEq, Repr

/-- Takes down that a flag was set. -/
def visit (fs : FlagSet) (name : Text) : FlagSet :=
  if fs.visited.contains name then fs else { fs with visited := fs.visited ++ [name] }

/-- Gives a flag a value. -/
def setValue (fs : FlagSet) (name : Text) (v : Value) : FlagSet :=
  { fs with flags := fs.flags.map fun f => if f.name = name then { f with value := v } else f }

/-- Sets a flag from a text. -/
def assign (fs : FlagSet) (name value : Text) : FlagSet × Option ParseError :=
  let fs := fs.visit name
  match fs.value? name with
  | none => (fs, some (.unknownFlag name))
  | some v =>
    match v.assign value with
    | .ok v => (fs.setValue name v, none)
    | .error e => (fs, some e)

/-- What an argument with one dash asks for that is not the name of a flag: it names a member of a
family, or it starts with a shorthand.  Families are tried in the order of their definitions; the
order makes no difference as long as no family is the start of another. -/
def requestShort (fs : FlagSet) (arg : Text) : Except ParseError Request :=
  let body := arg.drop 1
  match fs.families.find? fun name => name.isPrefixOf body && name.length < body.length with
  | some name => .ok (.assign name (body.drop name.length))
  | none =>
    let letter := body.take 1
    match (fs.shorthands.lookup letter).bind fs.lookup with
    | none => .error (.unknownShorthand letter)
    | some f =>
      if f.value.isBool then .ok (.assign f.name [])
      else
        let value := Text.dropFront [61] (body.drop 1)
        if value.isEmpty then .ok (.awaits f.name (45 :: letter))
        else .ok (.assign f.name value)

/-- **What an argument with dashes asks for.** -/
def request (fs : FlagSet) (arg : Text) : Except ParseError Request :=
  let (name, value) := Text.cut 61 (Text.dropFront [45] (Text.dropFront [45] arg))
  if name.isEmpty then .error .emptyName
  else match fs.lookup name with
    | none =>
      if [45, 45].isPrefixOf arg then .error (.unknownFlag name) else fs.requestShort arg
    | some f =>
      match value with
      | some v => .ok (.assign name v)
      | none => if f.value.isBool then .ok (.assign name []) else .ok (.awaits name arg)

/-- Whether an argument stands for itself: it is too short for a flag, or does not start with a
dash. -/
def isPositional (arg : Text) : Bool := arg.length < 2 || arg.head? != some 45

/-- Reads arguments, one after the other. -/
def parseFrom : List Text → FlagSet → FlagSet × Option ParseError
  | [], fs => (fs, none)
  | arg :: rest, fs =>
    if isPositional arg then parseFrom rest { fs with args := fs.args ++ [arg] }
    else if arg = [45, 45] then ({ fs with args := fs.args ++ rest }, none)
    else match fs.request arg with
      | .error e => (fs, some e)
      | .ok (.assign name value) =>
        match fs.assign name value with
        | (fs, none) => parseFrom rest fs
        | (fs, some e) => (fs, some e)
      | .ok (.awaits name shown) =>
        match rest with
        | [] => (fs, some (.missingValue shown))
        | value :: rest =>
          match fs.assign name value with
          | (fs, none) => parseFrom rest fs
          | (fs, some e) => (fs, some e)

/-- **Reads a command line.**  Two dashes alone end the flags.  What was assigned before an error
stays. -/
def parse (fs : FlagSet) (arguments : List Text) : FlagSet × Option ParseError :=
  parseFrom arguments { fs with args := [] }

end FlagSet

end StackCompiler.CommandLine
