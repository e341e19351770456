/-
**Paths.**

A path names a file by the directories that lead to it, divided by slashes.  A path is cleaned by
leaving out what goes nowhere: empty parts, single dots, and directories that are left again.
-/

import StackCompiler.Text.Basic

namespace StackCompiler.Path

/-- What separates the parts of a path. -/
def slash : UInt8 := 47

/-- The directory itself. -/
def here : Text := text "."

/-- The directory above. -/
def up : Text := text ".."

/-- Whether a path starts at the root. -/
def isRooted (p : Text) : Bool := p.head? == some slash

/-- Adds a part to the parts before it, which are in reverse. -/
def step (rooted : Bool) (before : List Text) (part : Text) : List Text :=
  if part.isEmpty ∨ part = here then before
  else if part = up then
    match before with
    | [] => if rooted then [] else [up]
    | last :: rest => if last = up then up :: before else rest
  else part :: before

/-- The parts of a path. -/
def parts (p : Text) : List Text :=
  ((Text.splitOn slash p).foldl (step (isRooted p)) []).reverse

/-- **The shortest form of a path.** -/
def clean (p : Text) : Text :=
  let body := Text.join [slash] (parts p)
  if isRooted p then slash :: body else if body.isEmpty then here else body

/-- **A path inside a directory.** -/
def join (directory path : Text) : Text :=
  if directory.isEmpty then if path.isEmpty then [] else clean path
  else if path.isEmpty then clean directory
  else clean (directory ++ [slash] ++ path)

/-- A path up to its last slash, and what follows it. -/
def split (p : Text) : Text × Text :=
  let name := (p.reverse.takeWhile (· != slash)).reverse
  (p.take (p.length - name.length), name)

/-- The directory of a file. -/
def directory (p : Text) : Text := clean (split p).1

/-- The last part of a path. -/
def base (p : Text) : Text :=
  if p.isEmpty then here
  else
    let name := (split (p.reverse.dropWhile (· == slash)).reverse).2
    if name.isEmpty then [slash] else name

/-- The last part of a path from its last dot on, nothing if it has none. -/
def extension (p : Text) : Text :=
  let name := (split p).2
  if name.contains 46 then 46 :: (name.reverse.takeWhile (· != 46)).reverse else []

end StackCompiler.Path
