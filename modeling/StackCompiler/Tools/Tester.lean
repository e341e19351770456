/-
**The regression tester as a tool.**

The tester finds manifests, runs their cases, prints a summary and writes a file with all reports.
On demand it replaces the golden files.
-/

import StackCompiler.CommandLine.Leading
import StackCompiler.Regression.Report
import StackCompiler.Tools.Files
import StackCompiler.Tools.Standard

namespace StackCompiler.Tools.Tester

open CommandLine (Value)
open Regression

/-! ### The command line -/

/-- The flags of the tester. -/
def flags : List CommandLine.Leading.Flag :=
  [⟨text "manifests", .text (text "testdata/*.yaml"),
      text "Glob pattern(s) for case manifests (space-separated)."⟩,
   ⟨text "update", .bool false, text "Rewrite the golden files with the current results."⟩,
   ⟨text "output", .text (text ".vmtest_results.json"), text "Output file for the JSON report."⟩,
   ⟨text "j", .int 4, text "Number of parallel jobs."⟩,
   ⟨text "v", .bool false, text "Print every case, not only failures."⟩,
   ⟨text "no-progress", .bool false, text "Disable the progress bar."⟩]

/-- What the command line asks for.  The number of jobs and the progress bar change no result. -/
structure Options where
  manifests : Text
  update : Bool
  output : Text
  verbose : Bool
deriving DecidableEq, Repr

/-- The value of a flag. -/
def valueOf (flags : List CommandLine.Leading.Flag) (name : String) : Option Value :=
  (CommandLine.Leading.find flags (text name)).map fun f => f.value

/-- The text of a flag. -/
def textOf (flags : List CommandLine.Leading.Flag) (name : String) : Text :=
  match valueOf flags name with
  | some (.text t) => t
  | _ => []

/-- Whether a flag is on. -/
def isOn (flags : List CommandLine.Leading.Flag) (name : String) : Bool :=
  valueOf flags name == some (.bool true)

/-- The options that flags stand for. -/
def Options.ofFlags (flags : List CommandLine.Leading.Flag) : Options where
  manifests := textOf flags "manifests"
  update := isOn flags "update"
  output := textOf flags "output"
  verbose := isOn flags "v"

/-! ### Loading -/

variable {m : Type → Type} [Monad m] [Libraries] [Differ]

/-- Puts a message behind a coloured tag. -/
def say (host : Host m) (colour : Text) (tag : String) (message : Text) : m Unit :=
  host.err (colour ++ text tag ++ plain ++ text " " ++ message ++ text "\n")

/-- Reports an error and exits. -/
def fail {α : Type} (host : Host m) (message : Text) : Run m α := do
  (say host red "[ERROR]" message : m Unit)
  Run.exit 1

/-- Reads a manifest. -/
def readManifest (host : Host m) (path : Text) : Run m Manifest := do
  match ← host.read path with
  | .error e => fail host (e.reading path)
  | .ok contents =>
    match Manifest.ofYaml path contents with
    | some manifest => return manifest
    | none => fail host (text "parsing " ++ path)

/-- Reads the golden file of a manifest.  There may be none. -/
def readGolden (host : Host m) (manifest : Manifest) : m (Except Text Golden) := do
  let path := manifest.goldenPath
  match ← host.read path with
  | .error .missing => return .ok []
  | .error e => return .error (e.reading path)
  | .ok contents =>
    return (Golden.parse contents).mapError fun e => text "parsing " ++ path ++ text ": " ++ e

/-- Reads the input of a case. -/
def readCase (host : Host m) (manifest : Manifest) (case : Case) : m LoadedCase := do
  let path := Path.join (Path.directory manifest.path) case.input
  return { case, input := (← host.read path).mapError (·.reading path) }

/-- **A manifest with what belongs to it.** -/
def load (host : Host m) (manifest : Manifest) : m Loaded := do
  let golden ← readGolden host manifest
  let cases ← manifest.cases.mapM (readCase host manifest)
  return { manifest, golden, cases }

/-! ### The tool -/

/-- The report on a case, with the time that it took. -/
def timedReport (host : Host m) (update : Bool) (job : Job) : m Report := do
  let (report, duration) ← host.timed fun _ => job.report update
  return { report with duration }

/-- The reports of a run. -/
def reportAll (host : Host m) (update : Bool) (manifests : List Manifest) : m (List Report) := do
  let plan := schedule (← manifests.mapM (load host))
  return collect plan.early (← plan.jobs.mapM (timedReport host update))

/-- Writes the golden outcomes of a manifest. -/
def writeGolden (host : Host m) (reports : List Report) (manifest : Manifest) : Run m Unit := do
  let path := manifest.goldenPath
  match ← host.write path (goldenText manifest reports) with
  | .error e => fail host (e.writing path)
  | .ok _ => (say host green "[SUCCESS]" (text "Golden file written to " ++ path) : m Unit)

/-- Writes the reports. -/
def writeReports (host : Host m) (path : Text) (reports : List Report) : m Unit := do
  match ← host.write path (reportsText reports) with
  | .error e =>
    say host yellow "[WARN]" (text "Failed to write report " ++ path ++ text ": " ++ e.writing path)
  | .ok _ => pure ()

/-- Does what was asked. -/
def act (host : Host m) (showDuration : Nat → Text) (o : Options) : Run m Unit := do
  match ← (expandAll host o.manifests : m _) with
  | none => fail host (text "Invalid glob pattern(s): syntax error in pattern")
  | some [] => host.err (text "No manifests found matching the pattern(s).\n")
  | some paths =>
    let manifests ← paths.mapM (readManifest host)
    let reports ← (reportAll host o.update manifests : m _)
    host.out (summary o.verbose showDuration reports)
    (writeReports host o.output reports : m Unit)
    if o.update then manifests.forM (writeGolden host reports)
    else if reports.any Report.failed then Run.exit 1

/-- **The tool.**  It gives its exit code. -/
def tool (host : Host m) (showDuration : Nat → Text) (arguments : List Text) : m UInt8 :=
  Run.code do
    match CommandLine.Leading.parse flags arguments with
    | .ok (flags, _) => act host showDuration (.ofFlags flags)
    | .error problem =>
      host.err (problem.message ++ CommandLine.Leading.usage (text "vmtest") flags)
      Run.exit (if problem = .help then 0 else 2)

end StackCompiler.Tools.Tester
