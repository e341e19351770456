/-
**Manifests.**

A manifest lists cases: an input, settings to compile it with, and what is expected to come of it.
-/

import StackCompiler.JsonText.Value
import StackCompiler.Libraries
import StackCompiler.Text.Path
import StackCompiler.Yaml.Decode

namespace StackCompiler.Regression

open JsonText (Value)
open Yaml (Node Record Reading)

/-- What is expected of a case. -/
structure Expectation where
  exitCode : Int32 := 0
  /-- The output, if it is not empty. -/
  stdout : Text := []
  stdoutContains : Text := []
  /-- A part of the error; empty if no error is expected. -/
  error : Text := []
  warnings : Int64 := 0
deriving DecidableEq, Repr

/-- A case of a manifest. -/
structure Case where
  name : Text := []
  input : Text := []
  /-- Whether the input is a code section without a container. -/
  raw : Bool := false
  /-- The names of the entry, if they are given. -/
  entryNames : Option (List Text) := none
  localSlots : Int64 := 0
  stackDepth : Int64 := 0
  /-- The settings of features, if they are given, in the order in which they are applied. -/
  features : Option (List (Text × Bool)) := none
  /-- The limit of steps; zero stands for the usual one. -/
  maxSteps : Int64 := 0
  expect : Expectation := {}
deriving DecidableEq, Repr

/-- A list of cases. -/
structure Manifest where
  path : Text
  name : Text
  cases : List Case
deriving DecidableEq, Repr

/-! ### Reading -/

/-- Reads a value that may be absent. -/
def optional {α : Type} (read : Node → Reading α) (n : Node) : Reading (Option α) :=
  match read n with
  | .wrong => .wrong
  | .nothing => .nothing
  | .value a => .value (some a)

/-- Reads a mapping. -/
def recordWith {α : Type} (read : Record → Option α) (n : Node) : Reading α :=
  match n.asRecord with
  | .wrong => .wrong
  | .nothing => .nothing
  | .value fields =>
    match read fields with
    | some a => .value a
    | none => .wrong

/-- What a mapping expects. -/
def Expectation.ofRecord (r : Record) : Option Expectation := do
  let exitCode ← r.get "exit_code" (Node.asSigned 32) 0
  let stdout ← r.get "stdout" Node.asText []
  let stdoutContains ← r.get "stdout_contains" Node.asText []
  let error ← r.get "error" Node.asText []
  let warnings ← r.get "warnings" (Node.asSigned 64) 0
  return { stdout, stdoutContains, error
           exitCode := Int32.ofInt exitCode, warnings := Int64.ofInt warnings }

/-- The case of a mapping. -/
def Case.ofRecord (r : Record) : Option Case := do
  let name ← r.get "name" Node.asText []
  let input ← r.get "input" Node.asText []
  let raw ← r.get "raw" Node.asBool false
  let entryNames ← r.get "entry_names" (optional (Node.asList Node.asText)) none
  let localSlots ← r.get "local_slots" (Node.asSigned 64) 0
  let stackDepth ← r.get "stack_depth" (Node.asSigned 64) 0
  let features ← r.get "features" (optional Node.asSwitches) none
  let maxSteps ← r.get "max_steps" (Node.asSigned 64) 0
  let expect ← r.get "expect" (recordWith Expectation.ofRecord) {}
  return { name, input, raw, entryNames, features, expect
           localSlots := Int64.ofInt localSlots
           stackDepth := Int64.ofInt stackDepth
           maxSteps := Int64.ofInt maxSteps }

/-- The name of a manifest that gives itself none: that of its file without its extension. -/
def Manifest.defaultName (path : Text) : Text :=
  Text.dropBack (Path.extension path) (Path.base path)

/-- **The manifest of a YAML text**, none if it is malformed. -/
def Manifest.ofYaml [Libraries] (path t : Text) : Option Manifest := do
  let node ← Libraries.readYaml t
  let r : Record ← node.asRecord.getD []
  let name ← r.get "name" Node.asText []
  let cases ← r.get "cases" (Node.asList (recordWith Case.ofRecord)) []
  return { path, cases, name := if name.isEmpty then Manifest.defaultName path else name }

/-! ### Fingerprints -/

/-- What a case is run with, without its name and what is expected of it. -/
def Case.settingsValue (c : Case) : Value :=
  let features := c.features.map fun fs =>
    fs.mergeSort fun a b => decide (a.1 ≤ b.1)
  .object [(text "Name", .string []), (text "Input", .string c.input), (text "Raw", .bool c.raw),
    (text "EntryNames", (c.entryNames.map fun ns => Value.array (ns.map .string)).getD .null),
    (text "LocalSlots", .int c.localSlots.toInt), (text "StackDepth", .int c.stackDepth.toInt),
    (text "Features",
      (features.map fun fs => Value.object (fs.map fun (n, b) => (n, .bool b))).getD .null),
    (text "MaxSteps", .int c.maxSteps.toInt),
    (text "Expect", .object [(text "ExitCode", .int 0), (text "Stdout", .string []),
      (text "StdoutContains", .string []), (text "Error", .string []),
      (text "Warnings", .int 0)])]

/-- **The fingerprint of a case with its input.**  Cases with the same fingerprint are run once. -/
def Case.fingerprint [Libraries] (c : Case) (input : List UInt8) : UInt64 :=
  Libraries.digest (input ++ c.settingsValue.compact)

end StackCompiler.Regression
