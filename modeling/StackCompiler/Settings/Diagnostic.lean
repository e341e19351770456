/-
**Diagnostics.**

A diagnostic names a place, says whether it is an error or a warning, and gives a message.  A
warning also names the switch that turns it off.
-/

import StackCompiler.Settings.Basic

namespace StackCompiler

/-- A place in an input. -/
structure Position where
  file : Text := []
  /-- An offset, negative if there is none. -/
  offset : Int64 := -1
  /-- A line, not positive if there is none. -/
  line : Int64 := 0
deriving DecidableEq, Repr

/-- The text of a place: a line wins over an offset. -/
def Position.render (p : Position) : Text :=
  let file := if p.file.isEmpty then text "<input>" else p.file
  if 0 < p.line then file ++ text ":" ++ Numeral.signed p.line.toInt
  else if 0 ≤ p.offset then file ++ text ":+" ++ Numeral.signed p.offset.toInt
  else file

namespace Diagnostic

/-- An error at a position. -/
def error (p : Position) (message : Text) : Text :=
  p.render ++ text ": \x1b[31merror:\x1b[0m " ++ message ++ text "\n"

/-- A warning, if it is to be reported. -/
def warning (s : Settings) (w : Option Warning) (p : Position) (message : Text) : Option Text :=
  if s.warnings.issues w then
    some (p.render ++ text ": \x1b[33mwarning:\x1b[0m " ++ message ++ text " [-W" ++
      text ((w.map Warning.name).getD "") ++ text "]\n")
  else none

/-- A note. -/
def info (message : Text) : Text := text "vmc: info: " ++ message ++ text "\n"

/-- A switch on a line. -/
def switchLine (name : String) (on : Bool) (description : String) : Text :=
  let name := text name
  text "  - " ++ name ++ Text.blanks (20 - name.length) ++ text ": " ++
    text (if on then "true" else "false") ++ text " (" ++ text description ++ text ")\n"

/-- The features on lines. -/
def features (s : Settings) : Text :=
  Feature.all.flatMap fun f => switchLine f.name (s.features.get f) f.description

/-- The warnings on lines. -/
def warnings (s : Settings) : Text :=
  Warning.all.flatMap fun w => switchLine w.name (s.warnings.get w) w.description

end Diagnostic

end StackCompiler
