/-
**What tools run on.**

A tool reads and writes files and prints.  It does so through a host, so that it can run on the
files of a system as well as on files that are only held in memory.
-/

import StackCompiler.Text.Basic

namespace StackCompiler.Tools

/-- Why a file can not be opened or read. -/
inductive FileError where
  | missing
  /-- The file is a directory: it can be opened, but neither read nor written. -/
  | directory
  /-- A part of the path that should be a directory is none. -/
  | notDirectory
  | longName
  /-- Anything else, in the words of the system. -/
  | other (reason : Text)
deriving DecidableEq, Repr

namespace FileError

/-- The text of an error. -/
def reason : FileError → Text
  | missing => text "no such file or directory"
  | directory => text "is a directory"
  | notDirectory => text "not a directory"
  | longName => text "file name too long"
  | other reason => reason

/-- The text of a failure to read. -/
def reading (e : FileError) (path : Text) : Text :=
  (if e = directory then text "read " else text "open ") ++ path ++ text ": " ++ e.reason

/-- The text of a failure to write. -/
def writing (e : FileError) (path : Text) : Text := text "open " ++ path ++ text ": " ++ e.reason

end FileError

/-- What a tool can ask for. -/
structure Host (m : Type → Type) where
  system : Text
  arch : Text
  page : Int
  year : m Text
  read : Text → m (Except FileError Text)
  write : Text → Text → m (Except FileError Unit)
  isPresent : Text → m Bool
  /-- The names in a directory, nothing for what is no directory. -/
  list : Text → m (List Text)
  out : Text → m Unit
  err : Text → m Unit
  /-- Computes something, and tells how many nanoseconds that took. -/
  timed : {α : Type} → (Unit → α) → m (α × Nat)

/-- A run of a tool.  It ends early with an exit code. -/
abbrev Run (m : Type → Type) := ExceptT UInt8 m

variable {m : Type → Type} [Monad m]

/-- Ends a run. -/
def Run.exit {α : Type} (code : UInt8) : Run m α := throw code

/-- The exit code of a run; a run that does not end early succeeds. -/
def Run.code (r : Run m Unit) : m UInt8 := do
  match ← r.run with
  | .ok _ => return 0
  | .error code => return code

end StackCompiler.Tools
