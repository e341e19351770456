/-
**Files by pattern.**

A pattern of paths stands for all files and directories whose paths fit it, part by part.  A path
without anything special stands for itself, if it leads somewhere.
-/

import StackCompiler.Text.Blank
import StackCompiler.Text.Path
import StackCompiler.Text.Pattern
import StackCompiler.Tools.Host

namespace StackCompiler.Tools

variable {m : Type → Type} [Monad m]

/-- The paths of what is in a directory and fits a pattern. -/
def inDirectory (host : Host m) (pattern directory : Text) : m (List Text) := do
  let names ← host.list directory
  return ((Text.sorted names).filter (Pattern.matchName pattern)).map (Path.join directory)

/-- The directory part of a pattern without its last slash. -/
def patternDirectory (t : Text) : Text :=
  if t.isEmpty then Path.here else if t = [Path.slash] then t else t.dropLast

/-- The paths that a pattern stands for, none if it is malformed.  The fuel is the length of the
pattern: its directory part is shorter. -/
def expandFrom (host : Host m) : Nat → Text → m (Option (List Text))
  | 0, _ => return some []
  | fuel + 1, pattern => do
    if (Pattern.parse pattern).isNone then return none
    else if !Pattern.isProper pattern then
      return some (if ← host.isPresent pattern then [pattern] else [])
    else
      let (before, name) := Path.split pattern
      let directory := patternDirectory before
      if !Pattern.isProper directory then return some (← inDirectory host name directory)
      else
        match ← expandFrom host fuel directory with
        | none => return none
        | some directories => return some (← directories.mapM (inDirectory host name)).flatten

/-- **The paths that a pattern stands for**, none if it is malformed. -/
def expand (host : Host m) (pattern : Text) : m (Option (List Text)) :=
  expandFrom host (pattern.length + 1) pattern

/-- **The paths that some patterns stand for**, sorted, none if one of them is malformed. -/
def expandAll (host : Host m) (patterns : Text) : m (Option (List Text)) := do
  let all ← (Text.fields patterns).mapM (expand host)
  return (all.mapM id).map fun found => Text.sorted found.flatten.eraseDups

end StackCompiler.Tools
