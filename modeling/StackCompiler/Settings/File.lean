/-
**Settings files.**

A settings file holds some of the settings; what it leaves out, or gives as zero or as empty, stays
as it is.  Its switches are applied one by one, and a name that belongs to no switch ends this.
The settings have to be valid in the end.
-/

import StackCompiler.Settings.Basic
import StackCompiler.Yaml.Decode

namespace StackCompiler.Settings

variable [Libraries]

/-- The contents of a settings file. -/
structure File where
  target : Text := []
  entryNames : List Text := []
  localSlots : Int64 := 0
  stackDepth : Int64 := 0
  stackTop : UInt32 := 0
  format : Text := []
  warningsAsErrors : Bool := false
  warnings : List (Text × Bool) := []
  features : List (Text × Bool) := []
deriving DecidableEq, Repr

open Yaml (Node Record) in
/-- The contents of a settings file, read from its fields.  Other fields are passed over. -/
def File.ofRecord (r : Record) : Option File := do
  let target ← r.get "target" Node.asText []
  let entryNames ← r.get "entry_names" (Node.asList Node.asText) []
  let localSlots ← r.get "local_slots" (Node.asSigned 64) 0
  let stackDepth ← r.get "stack_depth" (Node.asSigned 64) 0
  let stackTop ← r.get "stack_top" (Node.asUnsigned 32) 0
  let format ← r.get "format" Node.asText []
  let warningsAsErrors ← r.get "werror" Node.asBool false
  let warnings ← r.get "warnings" Node.asSwitches []
  let features ← r.get "features" Node.asSwitches []
  return { target, entryNames, format, warningsAsErrors, warnings, features
           localSlots := Int64.ofInt localSlots
           stackDepth := Int64.ofInt stackDepth
           stackTop := UInt32.ofNat stackTop }

/-- **The contents of a settings file**, none if it is malformed. -/
def File.ofYaml (t : Text) : Option File := do
  let node ← Libraries.readYaml t
  let fields ← node.asRecord.getD []
  File.ofRecord fields

/-- Settings after a settings file. -/
structure Applied where
  /-- The settings.  After a failure they are as far as they were applied. -/
  settings : Settings
  notices : Text := []
  /-- Why applying failed, if it did. -/
  failure : Option Failure := none

/-- Applies the switches of warnings, up to the first that does not exist. -/
def setWarnings (s : Settings) : List (Text × Bool) → Settings × Option Failure
  | [] => (s, none)
  | (name, on) :: rest =>
    match Warning.ofName? name with
    | none => (s, some (.unknownWarning name))
    | some w => setWarnings { s with warnings := s.warnings.set w on } rest

/-- Applies the switches of features, up to the first that does not exist. -/
def setFeatures (s : Settings) : List (Text × Bool) → Settings × Option Failure
  | [] => (s, none)
  | (name, on) :: rest =>
    match Feature.ofName? name with
    | none => (s, some (.unknownFeature name))
    | some f => setFeatures { s with features := s.features.set f on } rest

/-- Applies all but the target and the switches. -/
def setFields (s : Settings) (f : File) : Settings :=
  { s with
    entryNames := if f.entryNames.isEmpty then s.entryNames else f.entryNames
    localSlots := if f.localSlots = 0 then s.localSlots else f.localSlots
    stackDepth := if f.stackDepth = 0 then s.stackDepth else f.stackDepth
    stackTop := if f.stackTop = 0 then s.stackTop else f.stackTop
    format := if f.format.isEmpty then s.format else f.format
    warningsAsErrors := s.warningsAsErrors || f.warningsAsErrors }

/-- **Applies a settings file** on a system. -/
def applyFile (s : Settings) (system arch : Text) (f : File) : Applied :=
  let (s, notices) := if f.target.isEmpty then (s, []) else s.setTarget system arch f.target
  match (s.setFields f).setWarnings f.warnings with
  | (s, some failure) => { settings := s, notices, failure := some failure }
  | (s, none) =>
    match s.setFeatures f.features with
    | (s, some failure) => { settings := s, notices, failure := some failure }
    | (s, none) =>
      match s.validate with
      | .ok _ => { settings := s, notices }
      | .error failure => { settings := s, notices, failure := some failure }

/-- Applies the text of a settings file. -/
def applyYaml (s : Settings) (system arch t : Text) : Applied :=
  match File.ofYaml t with
  | some f => s.applyFile system arch f
  | none => { settings := s, failure := some .malformedFile }

end StackCompiler.Settings
