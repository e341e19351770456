/-
**Outcomes.**

The outcome of a case is what came of compiling and running its input.  Outcomes are kept in golden
files, one file for every manifest, with which later outcomes are compared.
-/

import StackCompiler.Assembly.WordFile
import StackCompiler.Compilation
import StackCompiler.JsonText.Decode
import StackCompiler.JsonText.Parse
import StackCompiler.Machine.Run
import StackCompiler.Object.Container
import StackCompiler.Regression.Manifest
import StackCompiler.Settings.File

namespace StackCompiler.Regression

open JsonText (Mismatch Route Value)

variable [Libraries]

/-- What came of a case. -/
structure Outcome where
  inputHash : Text := []
  /-- The digest of the image, if there is one. -/
  checksum : Text := []
  words : Int := 0
  exitCode : Int := 0
  stdout : Text := []
  warnings : List Text := []
  /-- What went wrong, if anything did. -/
  error : Text := []
deriving DecidableEq, Repr

/-- An outcome as JSON. -/
def Outcome.value (o : Outcome) : Value :=
  .object ([(text "input_hash", .string o.inputHash)] ++
    JsonText.optionalText "checksum" o.checksum ++
    (if o.words = 0 then [] else [(text "words", .int o.words)]) ++
    [(text "exit_code", .int o.exitCode), (text "stdout", .string o.stdout)] ++
    (if o.warnings.isEmpty then []
     else [(text "warnings", .array (o.warnings.map .string))]) ++
    JsonText.optionalText "error" o.error)

/-! ### Running a case -/

/-- The limit of steps of a case that sets none. -/
def usualSteps : Int64 := 10000000

/-- The fuel of a run without a limit. -/
def runFuel : Nat := Nat.pow 2 62

/-- The settings of a case. -/
def Case.settings (c : Case) : Except Text Settings :=
  let applied := Settings.applyFile {} [] []
    { entryNames := c.entryNames.getD [], localSlots := c.localSlots, stackDepth := c.stackDepth
      features := c.features.getD [] }
  match applied.failure with
  | none => .ok applied.settings
  | some f => .error f.message

/-- The program of a case. -/
def Case.container (c : Case) (input : List UInt8) : Except Text Container :=
  if c.raw then
    ((Container.rawBytes input).map fun code => { code }).mapError (·.message)
  else (Container.decode input).mapError (·.message)

/-- A remark as a warning. -/
def warningText (r : Lowering.Remark) : Text :=
  text "-W" ++ text r.matter.warning.name ++ text ": " ++ r.message

/-- The outcome of running an image. -/
def runOutcome (o : Outcome) (image : Assembly.Image) (maxSteps : Int64) : Outcome :=
  let limit := if maxSteps = 0 then usualSteps else maxSteps
  let (m, ending) := (Machine.ofWords image.words).runLimited runFuel limit
  { o with
    stdout := m.output.toList
    exitCode := m.exitCode.toInt
    error := match ending with
      | .fault f => text "run: " ++ f.message
      | _ => [] }

/-- The outcome of compiling and running a case, as far as it gets. -/
def Case.attempt (c : Case) (input : List UInt8) (start : Outcome) : Except Text Outcome := do
  let s ← c.settings
  let container ← c.container input
  let compiled ← (compile container.code container.symbols s).mapError (·.message)
  let image := compiled.image.getD {}
  let words := image.words.toList
  return runOutcome
    { start with
      warnings := compiled.remarks.map warningText
      checksum := Digest.render (WordFile.checksum words)
      words := words.length }
    image c.maxSteps

/-- **The outcome of a case.** -/
def Case.execute (c : Case) (input : List UInt8) : Outcome :=
  let start : Outcome := { inputHash := Digest.render (Libraries.digest input) }
  match c.attempt input start with
  | .ok o => o
  | .error e => { start with error := e }

/-! ### Golden files -/

/-- The contents of a golden file: outcomes by the names of their cases. -/
abbrev Golden := List (Text × Option Outcome)

/-- Sets a field of the outcome of a case.  Fields that an outcome does not have are passed over. -/
def Outcome.setField (o : Outcome) (case : Text) (name : Text) (v : Value) :
    Except Mismatch Outcome :=
  let route : Route := [.field case, .field name]
  let isName := JsonText.namesField name
  if isName "input_hash" then
    (v.asText route o.inputHash).map fun t => { o with inputHash := t }
  else if isName "checksum" then
    (v.asText route o.checksum).map fun t => { o with checksum := t }
  else if isName "words" then
    (v.asInt route "int" 64 o.words).map fun n => { o with words := n }
  else if isName "exit_code" then
    (v.asInt route "int32" 32 o.exitCode).map fun n => { o with exitCode := n }
  else if isName "stdout" then
    (v.asText route o.stdout).map fun t => { o with stdout := t }
  else if isName "warnings" then
    (v.asTexts route o.warnings).map fun ts => { o with warnings := ts }
  else if isName "error" then
    (v.asText route o.error).map fun t => { o with error := t }
  else .ok o

/-- The outcome of a JSON value. -/
def Outcome.ofValue (case : Text) : Value → Except Mismatch (Option Outcome)
  | .null => .ok none
  | .object fields =>
    (fields.foldlM (fun (o : Outcome) (name, v) => o.setField case name v) {}).map some
  | v => v.mismatch [.field case] "main.Result"

/-- The outcomes of a JSON value. -/
def Golden.ofValue : Value → Except Mismatch Golden
  | .null => .ok []
  | .object fields => fields.mapM fun (name, v) => (Outcome.ofValue name v).map fun o => (name, o)
  | v => v.mismatch [] "map[string]*main.Result"

/-- **The contents of a golden file.** -/
def Golden.parse (t : Text) : Except Text Golden :=
  match JsonText.parse t with
  | .error e => .error e.message
  | .ok v => (Golden.ofValue v).mapError (·.message)

/-- The outcome of a case in a golden file; the last one counts. -/
def Golden.find (g : Golden) (name : Text) : Option Outcome := (g.reverse.lookup name).join

end StackCompiler.Regression
