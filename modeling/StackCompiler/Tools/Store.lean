/-
**Files in memory.**

A store holds files by their paths, together with what was printed.  Its directories are those that
lead to a file.  A path is followed part by part from the top of the store; paths that start at the
root or leave the store lead nowhere.
-/

import StackCompiler.Text.Path
import StackCompiler.Tools.Host

namespace StackCompiler.Tools

/-- Files and what was printed. -/
structure Store where
  files : List (List Text × Text) := []
  out : Text := []
  err : Text := []
deriving DecidableEq, Repr

namespace Store

/-- A store with some files. -/
def ofFiles (files : List (Text × Text)) : Store where
  files := files.map fun (path, contents) => (Path.parts path, contents)

/-- What a path leads to. -/
inductive Found where
  | file (place : List Text) (contents : Text)
  | directory (place : List Text)
  /-- Nothing, but a file could be there. -/
  | vacant (place : List Text)
  | error (e : FileError)
deriving DecidableEq, Repr

/-- Whether there is a directory. -/
def hasDirectory (s : Store) (parts : List Text) : Bool :=
  parts.isEmpty || s.files.any fun (p, _) => parts.isPrefixOf p && p != parts

/-- The greatest length of a name. -/
def longestName : Nat := 255

/-- Follows the parts of a path from a directory on. -/
def follow (s : Store) : List Text → List Text → Found
  | place, [] => .directory place
  | place, part :: rest =>
    if part.isEmpty ∨ part = Path.here then follow s place rest
    else if part = Path.up then
      if place.isEmpty then .error .missing else follow s place.dropLast rest
    else if longestName < part.length then .error .longName
    else
      let next := place ++ [part]
      match s.files.lookup next with
      | some contents => if rest.isEmpty then .file next contents else .error .notDirectory
      | none =>
        if s.hasDirectory next then follow s next rest
        else if rest.isEmpty then .vacant next
        else if rest.all List.isEmpty then .error .directory
        else .error .missing

/-- **What a path leads to.** -/
def find (s : Store) (path : Text) : Found :=
  if path.isEmpty ∨ Path.isRooted path then .error .missing
  else s.follow [] (Text.splitOn Path.slash path)

/-- Reads a file. -/
def read (s : Store) (path : Text) : Except FileError Text :=
  match s.find path with
  | .file _ contents => .ok contents
  | .directory _ => .error .directory
  | .vacant _ => .error .missing
  -- Only a file that is to be created can be refused for a slash behind its name.
  | .error e => .error (if e = .directory then .missing else e)

/-- Puts a file into its place. -/
def put (s : Store) (place : List Text) (contents : Text) : Store :=
  { s with files := s.files.filter (·.1 != place) ++ [(place, contents)] }

/-- Writes a file. -/
def write (s : Store) (path contents : Text) : Except FileError Store :=
  match s.find path with
  | .file place _ => .ok (s.put place contents)
  | .vacant place => .ok (s.put place contents)
  | .directory _ => .error .directory
  | .error e => .error e

/-- Whether there is something at a path. -/
def isPresent (s : Store) (path : Text) : Bool :=
  match s.find path with
  | .file .. | .directory _ => true
  | _ => false

/-- The names in a directory. -/
def list (s : Store) (path : Text) : List Text :=
  match s.find path with
  | .directory place =>
    (s.files.filterMap fun (p, _) =>
      if place.isPrefixOf p then (p.drop place.length).head? else none).eraseDups
  | _ => []

/-- The files that are new or differ from those of another store, with their paths. -/
def changes (before after : Store) : List (Text × Text) :=
  (after.files.filter fun (place, contents) => before.files.lookup place != some contents).map
    fun (place, contents) => (Text.join [Path.slash] place, contents)

/-- **The host that runs tools on a store.**  No time passes on it. -/
def host (system arch : Text) (page : Int) (year : Text) : Host (StateM Store) where
  system := system
  arch := arch
  page := page
  year := pure year
  read path := do return (← get).read path
  write path contents := do
    match (← get).write path contents with
    | .ok s => set s; return .ok ()
    | .error e => return .error e
  isPresent path := do return (← get).isPresent path
  list path := do return (← get).list path
  out t := modify fun s => { s with out := s.out ++ t }
  err t := modify fun s => { s with err := s.err ++ t }
  timed compute := return (compute (), 0)

end Store

end StackCompiler.Tools
