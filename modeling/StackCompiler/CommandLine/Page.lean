/-
**Usage and help pages.**

A page lists the flags of a program in two columns, and the switches of each group below them.
Widths are counted in bytes; columns are filled up by characters.
-/

import StackCompiler.CommandLine.FlagSet
import StackCompiler.Text.Blank

namespace StackCompiler.CommandLine

/-- A program and its flags. -/
structure App where
  name : Text
  /-- The arguments that are no flags, on the usage page. -/
  usage : Text := []
  synopsis : Text := []
  description : Text := []
  repository : Text := []
  authors : List Text := []
  flags : FlagSet := {}
deriving DecidableEq, Repr

/-- The blanks before a line. -/
def indent (level : Nat) : Text := Text.blanks (4 * level)

/-- Adds a word to the lines of a text; `current` is the line being filled. -/
def addWord (width : Int) : List Text × Text → Text → List Text × Text
  | (lines, current), word =>
    if current.isEmpty then (lines, word)
    else if width < (current.length : Int) + 1 + word.length then (lines ++ [current], word)
    else (lines, current ++ text " " ++ word)

/-- **Breaks a text into lines** of at most `width` bytes, but not a word.  Without any width the
text stays as it is. -/
def wrap (t : Text) (width : Int) : List Text :=
  if width ≤ 0 then [t]
  else
    let (lines, current) := (Text.fields t).foldl (addWord width) ([], [])
    if current.isEmpty then lines else lines ++ [current]

/-- A text with blanks up to a width. -/
def fill (width : Int) (t : Text) : Text := t ++ Text.blanks (width - (Text.pieces t).length).toNat

/-- The widths that all entries of a page share. -/
structure Columns where
  page : Int
  left : Nat
  usage : Nat
deriving DecidableEq, Repr

namespace Group

/-- What stands before the names of the switches of a group. -/
def mark (g : Group) : Text := (g.entries.head?.map (·.mark)).getD []

/-- What the flags of a group are called. -/
def title (g : Group) : Text := if g.kind.isEmpty then text "flag" else g.kind

/-- The form of the switches that turn something on. -/
def onForm (g : Group) : Text := text "-" ++ g.mark ++ text "<" ++ g.title ++ text ">"

/-- The form of the switches that turn something off. -/
def offForm (g : Group) : Text := text "-" ++ g.mark ++ text "no-<" ++ g.title ++ text ">"

end Group

namespace Columns

/-- An entry of a page: a left column, a description on as many lines as it needs, and perhaps
something at the end of the first line. -/
def entry (c : Columns) (left usage right : Text) : Text :=
  let room := max (c.page - 8 - c.left - 1 - 2 - right.length) 10
  let lines := wrap usage room
  let first := lines.headD []
  let start := indent 2 ++ fill c.left left ++ text " "
  let firstLine :=
    if right.isEmpty then start ++ first
    else start ++ fill (min (c.usage : Int) room) first ++ text "  " ++ right
  Text.unlines (firstLine :: (lines.drop 1).map fun line =>
    indent 2 ++ Text.blanks (c.left + 1) ++ line)

/-- The entry of a flag, with its value from the start. -/
def flagEntry (c : Columns) (f : Flag) : Text :=
  let right := if f.value.isBool || f.initial.isEmpty || f.initial == text "0" then []
    else text "|" ++ f.initial ++ text "|"
  c.entry f.display f.usage right

/-- The part of a page about a group.  Each pair of switches is shown with its setting. -/
def group (c : Columns) (fs : FlagSet) (g : Group) : Text :=
  let isOn (name : Text) : Bool := fs.value? name == some (.bool true)
  let entries := g.entries.mergeSort fun a b => decide (a.name ≤ b.name)
  text "\n" ++ indent 1 ++ g.name ++ text "\n" ++
    indent 2 ++ fill c.left g.onForm ++ text " Enable a specific " ++ g.title ++ text "\n" ++
    indent 2 ++ fill c.left g.offForm ++ text " Disable a specific " ++ g.title ++ text "\n" ++
    (if g.header.isEmpty then [] else indent 1 ++ g.header ++ text "\n") ++
    entries.flatMap fun e =>
      let on := e.on.isSome && isOn e.onName && !(e.off.isSome && isOn e.offName)
      c.entry e.name e.usage (text (if on then "|x|" else "|-|"))

end Columns

namespace App

/-- The flags that are neither families nor switches of a group, by name. -/
def optionFlags (a : App) : List Flag :=
  let grouped := a.flags.groups.flatMap fun g => g.entries.flatMap fun e => [e.onName, e.offName]
  let plain := a.flags.flags.filter fun f =>
    !a.flags.families.contains f.name && !grouped.contains f.name
  plain.mergeSort fun f g => decide (f.name ≤ g.name)

/-- The columns of a page. -/
def columns (a : App) (page : Int) : Columns :=
  let flags := a.optionFlags
  let entries := a.flags.groups.flatMap (·.entries)
  let lefts := flags.map (·.display.length) ++ a.flags.groups.map (·.offForm.length) ++
    entries.map (·.name.length)
  let usages := flags.map (·.usage.length) ++ entries.map (·.usage.length)
  { page, left := lefts.foldl max 0, usage := usages.foldl max 0 }

/-- The part of a page on options. -/
def optionsPart (a : App) (page : Int) : Text :=
  if a.optionFlags.isEmpty then []
  else text "\n" ++ indent 1 ++ text "Options\n" ++
    a.optionFlags.flatMap (a.columns page).flagEntry

/-- **The usage page**, for a page of the given width. -/
def usagePage (a : App) (page : Int) : Text :=
  text "Usage: " ++ a.name ++ text " <options> " ++ a.usage ++ text "\n" ++ a.optionsPart page ++
    text "\nRun '" ++ a.name ++ text " --help' for all available options and flags.\n"

/-- A synopsis with angle brackets in place of square ones. -/
def angled (t : Text) : Text := t.map fun c => if c = 91 then 60 else if c = 93 then 62 else c

/-- **The help page**, for a page of the given width in the given year. -/
def helpPage (a : App) (page : Int) (year : Text) : Text :=
  let groups := a.flags.groups.mergeSort fun g h => decide (g.name ≤ h.name)
  text "\n" ++ indent 1 ++ text "Copyright (c) " ++ year ++ text ": " ++
    Text.join (text ", ") a.authors ++ text " and contributors\n" ++
    (if a.repository.isEmpty then []
     else indent 1 ++ text "For more details refer to " ++ a.repository ++ text "\n") ++
    (if a.synopsis.isEmpty then []
     else text "\n" ++ indent 1 ++ text "Synopsis\n" ++ indent 2 ++ a.name ++ text " " ++
       angled a.synopsis ++ text "\n") ++
    (if a.description.isEmpty then []
     else text "\n" ++ indent 1 ++ text "Description\n" ++
       Text.unlines ((wrap a.description (page - 8)).map (indent 2 ++ ·))) ++
    a.optionsPart page ++ groups.flatMap ((a.columns page).group a.flags)

end App

end StackCompiler.CommandLine
