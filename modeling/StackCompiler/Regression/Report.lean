/-
**Reports.**

A report says whether a case came out as expected.  Cases that are identical to an earlier one are
skipped, and cases that can not be read are errors.  The reports of a run are sorted, so that they
do not depend on the order in which the cases were run.
-/

import StackCompiler.Regression.Outcome

namespace StackCompiler.Regression

open JsonText (Value)
open Numeral (signed decimal)

/-- How a case came out. -/
inductive Status where
  | pass
  | fail
  | skip
  | error
deriving DecidableEq, Repr

/-- The name of a status. -/
def Status.name : Status → String
  | pass => "PASS"
  | fail => "FAIL"
  | skip => "SKIP"
  | error => "ERROR"

/-- The report on a case. -/
structure Report where
  manifest : Text
  case : Text := []
  status : Status
  message : Text := []
  detail : Text := []
  /-- How long the case ran, in nanoseconds. -/
  duration : Nat := 0
  outcome : Option Outcome := none
deriving DecidableEq, Repr

/-- A report as JSON. -/
def Report.value (r : Report) : Value :=
  .object ([(text "manifest", .string r.manifest), (text "case", .string r.case),
    (text "status", .string (text r.status.name))] ++
    JsonText.optionalText "message" r.message ++ JsonText.optionalText "diff" r.detail ++
    [(text "duration", .int r.duration)] ++
    (r.outcome.map fun o => (text "result", o.value)).toList)

/-! ### Checking a case -/

/-- A case to be run. -/
structure Job where
  manifest : Text
  case : Case
  input : List UInt8
  golden : Option Outcome := none
deriving DecidableEq, Repr

/-- What describes how texts and outcomes differ.  It says nothing of outcomes that do not. -/
class Differ where
  /-- How a text differs from the expected one. -/
  texts : Text → Text → Text
  /-- How an outcome differs from the golden one. -/
  outcomes : Outcome → Outcome → Text

variable [Libraries] [Differ]

/-- What is wrong with the error of an outcome. -/
def errorProblems (e : Expectation) (o : Outcome) : List Text :=
  if e.error.isEmpty then
    if o.error.isEmpty then [] else [text "unexpected error: " ++ o.error]
  else if Text.occursIn e.error o.error then []
  else [text "error " ++ Text.quote o.error ++ text " does not contain " ++ Text.quote e.error]

/-- What is wrong with an outcome of which no error is expected. -/
def resultProblems (e : Expectation) (o : Outcome) : List Text :=
  (if o.exitCode = e.exitCode.toInt then []
   else [text "exit code " ++ signed o.exitCode ++ text ", want " ++ signed e.exitCode.toInt]) ++
  (if e.stdout.isEmpty ∨ o.stdout = e.stdout then []
   else [text "stdout mismatch:\n" ++ Differ.texts e.stdout o.stdout]) ++
  (if e.stdoutContains.isEmpty ∨ Text.occursIn e.stdoutContains o.stdout then []
   else [text "stdout does not contain " ++ Text.quote e.stdoutContains]) ++
  (if (o.warnings.length : Int) = e.warnings.toInt then []
   else [decimal o.warnings.length ++ text " warnings, want " ++ signed e.warnings.toInt])

/-- What is wrong with an outcome that differs from a golden one. -/
def goldenProblems (golden : Option Outcome) (o : Outcome) : List Text :=
  match golden with
  | none => []
  | some g =>
    let difference := Differ.outcomes g o
    if difference.isEmpty then []
    else [text "golden mismatch (-golden +got):\n" ++ difference]

/-- **All that is wrong with an outcome.** -/
def problems (e : Expectation) (golden : Option Outcome) (o : Outcome) : List Text :=
  errorProblems e o ++ (if e.error.isEmpty then resultProblems e o else []) ++
    goldenProblems golden o

/-- **The report on a case.**  With `update` the golden outcome is about to be replaced and does not
count. -/
def Job.report (update : Bool) (j : Job) : Report :=
  let o := j.case.execute j.input
  let golden := if update then none else j.golden
  let start : Report :=
    { manifest := j.manifest, case := j.case.name, status := .pass, outcome := some o }
  match problems j.case.expect golden o with
  | [] =>
    { start with message := text (if j.golden.isNone && !update
        then "expectations met (no golden file)" else "all checks passed") }
  | first :: rest =>
    { start with status := .fail, message := first
                 detail := Text.join (text "\n") (first :: rest) }

/-! ### Scheduling -/

/-- A case with its input, or why that can not be read. -/
structure LoadedCase where
  case : Case
  input : Except Text (List UInt8)

/-- A manifest with what belongs to it. -/
structure Loaded where
  manifest : Manifest
  /-- The golden outcomes, or why they can not be read. -/
  golden : Except Text Golden
  cases : List LoadedCase

/-- What is known while cases are scheduled. -/
structure Schedule where
  early : List Report := []
  jobs : List Job := []
  /-- The fingerprints seen so far, with the names of their cases. -/
  seen : List (UInt64 × Text) := []

/-- Plans a case. -/
def Schedule.addCase (m : Manifest) (golden : Golden) (s : Schedule) (l : LoadedCase) : Schedule :=
  let report (status : Status) (message : Text) : Schedule :=
    { s with early := s.early ++
        [{ manifest := m.path, case := l.case.name, status, message }] }
  match l.input with
  | .error e => report .error e
  | .ok input =>
    let key := l.case.fingerprint input
    match s.seen.lookup key with
    | some first => report .skip (text "identical to " ++ first)
    | none =>
      { s with
        seen := s.seen ++ [(key, m.name ++ text "/" ++ l.case.name)]
        jobs := s.jobs ++
          [{ manifest := m.path, case := l.case, input, golden := golden.find l.case.name }] }

/-- Plans a manifest. -/
def Schedule.addManifest (s : Schedule) (l : Loaded) : Schedule :=
  match l.golden with
  | .error e =>
    { s with early := s.early ++ [{ manifest := l.manifest.path, status := .error, message := e }] }
  | .ok golden => l.cases.foldl (Schedule.addCase l.manifest golden) s

/-- **Which cases are to be run.** -/
def schedule (all : List Loaded) : Schedule := all.foldl Schedule.addManifest {}

/-- The order of reports: by manifest, then by case. -/
def Report.before (a b : Report) : Bool :=
  if a.manifest = b.manifest then decide (a.case ≤ b.case) else decide (a.manifest ≤ b.manifest)

/-- **All reports of a run**: those on cases that were not run, and those on the others in the order
in which they were delivered. -/
def collect (early delivered : List Report) : List Report :=
  (early ++ delivered).mergeSort Report.before

/-! ### Results -/

/-- Whether a report makes a run fail. -/
def Report.failed (r : Report) : Bool := r.status == .fail || r.status == .error

/-- Where the golden outcomes of a manifest are. -/
def Manifest.goldenPath (m : Manifest) : Text :=
  Path.join (Path.directory m.path) (text "." ++ m.name ++ text ".json")

/-- The outcomes of the cases of a manifest, by name; the last one of a name counts. -/
def goldenOf (m : Manifest) (reports : List Report) : List (Text × Outcome) :=
  let found := reports.filterMap fun r =>
    if r.manifest = m.path then r.outcome.map fun o => (r.case, o) else none
  let last := found.foldl (fun kept (name, o) => kept.filter (·.1 != name) ++ [(name, o)])
    ([] : List (Text × Outcome))
  last.mergeSort fun a b => decide (a.1 ≤ b.1)

/-- The golden outcomes of a manifest as text. -/
def goldenText (m : Manifest) (reports : List Report) : Text :=
  (Value.object ((goldenOf m reports).map fun (name, o) => (name, o.value))).indented ++ text "\n"

/-- Reports as text. -/
def reportsText (reports : List Report) : Text :=
  (if reports.isEmpty then Value.null else .array (reports.map Report.value)).indented

/-! ### Summaries -/

/-- Starts red text. -/
def red : Text := text "\x1b[91m"

/-- Starts yellow text. -/
def yellow : Text := text "\x1b[93m"

/-- Starts green text. -/
def green : Text := text "\x1b[92m"

/-- Starts bold text. -/
def bold : Text := text "\x1b[1m"

/-- Ends colours. -/
def plain : Text := text "\x1b[0m"

/-- The lines of a text, indented; newlines at its end are dropped. -/
def indented (t : Text) : Text :=
  let body := (t.reverse.dropWhile (· == Text.newline)).reverse
  Text.join (text "\n") ((Text.splitOn Text.newline body).map (text "    " ++ ·))

/-- What a summary says about a case.  Only what is wrong is shown, unless all is asked for. -/
def Report.line (verbose : Bool) (showDuration : Nat → Text) (r : Report) : Text :=
  let name := r.manifest ++ text ":" ++ r.case
  let tag (colour : Text) := colour ++ text "[" ++ text r.status.name ++ text "]" ++
    plain ++ text " "
  match r.status with
  | .fail | .error =>
    tag red ++ name ++ text ": " ++ r.message ++ text "\n" ++
      (if verbose && !r.detail.isEmpty then indented r.detail ++ text "\n" else [])
  | .skip => if verbose then tag yellow ++ name ++ text ": " ++ r.message ++ text "\n" else []
  | .pass =>
    if verbose then tag green ++ name ++ text " (" ++ showDuration r.duration ++ text ")\n" else []

/-- **The summary of a run.** -/
def summary (verbose : Bool) (showDuration : Nat → Text) (reports : List Report) : Text :=
  let count (s : Status) : Text := decimal (reports.countP (·.status == s))
  reports.flatMap (Report.line verbose showDuration) ++
    text "\n" ++ bold ++ text "Summary:" ++ plain ++ text " " ++
    green ++ count .pass ++ text " passed" ++ plain ++ text ", " ++
    red ++ count .fail ++ text " failed" ++ plain ++ text ", " ++
    count .error ++ text " errors, " ++ count .skip ++ text " skipped\n"

end StackCompiler.Regression
