/-
**The command line.**

The first argument names the tool, and the others are handed to it.  This module runs the tools on
the files of the system; all that they decide is in the modules of the tools.
-/

import Std.Time
import StackCompiler.Text.Duration
import StackCompiler.Tools.Compiler
import StackCompiler.Tools.Tester

namespace StackCompiler.Tools

/-- The name of a file. -/
def nameOf (t : Text) : String := (String.fromUTF8? ⟨t.toArray⟩).getD ""

/-- What went wrong with a file. -/
def fileErrorOf : IO.Error → FileError
  | .noFileOrDirectory .. => .missing
  | .inappropriateType _ code _ => if code = 21 then .directory else .notDirectory
  | .permissionDenied .. => .other (text "permission denied")
  | e => .other (text (toString e))

/-- Tries an action on files. -/
def attempted {α : Type} (action : IO α) : IO (Except FileError α) := do
  match ← action.toBaseIO with
  | .ok a => return .ok a
  | .error e => return .error (fileErrorOf e)

/-- **The host that runs tools on the files of the system.**  It does not list directories:
manifests are given to the tester by their paths, and a pattern finds none. -/
def systemHost : Host IO where
  system := text "linux"
  arch := text "amd64"
  page := 80
  year := do return Numeral.signed (← Std.Time.PlainDate.now).year.toInt
  read path := do
    return (← attempted (IO.FS.readBinFile (nameOf path))).map fun bytes => bytes.toList
  write path contents := attempted (IO.FS.writeBinFile (nameOf path) ⟨contents.toArray⟩)
  isPresent path := do
    match ← attempted (IO.FS.Handle.mk (nameOf path) .read) with
    | .ok _ => return true
    | .error _ => return false
  list _ := return []
  out t := do
    let stream ← IO.getStdout
    stream.write ⟨t.toArray⟩
    stream.flush
  err t := do
    let stream ← IO.getStderr
    stream.write ⟨t.toArray⟩
    stream.flush
  timed compute := do
    let start ← IO.monoNanosNow
    let result ← IO.lazyPure compute
    return (result, (← IO.monoNanosNow) - start)

end StackCompiler.Tools

open StackCompiler in
/-- **The command line.** -/
def main (arguments : List String) : IO UInt32 := do
  match arguments with
  | "vmc" :: rest => return (← Tools.Compiler.tool Tools.systemHost (rest.map text)).toUInt32
  | "vmtest" :: rest =>
    let showDuration (n : Nat) : Text := Duration.render (Duration.round n)
    return (← Tools.Tester.tool Tools.systemHost showDuration (rest.map text)).toUInt32
  | _ =>
    Tools.systemHost.err (text "usage: (vmc | vmtest) <arguments>\n")
    return 2
