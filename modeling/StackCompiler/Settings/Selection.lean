/-
**Choosing switches by name.**

A switch is chosen by a text such as `-Wno-depth`: `W` stands for warnings, `F` for features, and
`no-` turns off what else is turned on.  Two names stand for more than one switch: `all` for all
warnings but `pedantic`, and `error` for treating warnings as errors.
-/

import StackCompiler.Settings.Basic

namespace StackCompiler.Settings

/-- What a text chooses. -/
inductive Selection where
  | warning (name : Text) (on : Bool)
  | feature (name : Text) (on : Bool)
deriving DecidableEq, Repr

namespace Selection

/-- What switches off. -/
def no : Text := text "no-"

/-- **What a text chooses**, with or without a dash before it.  A text without a letter for the
kind chooses a warning. -/
def parse (flag : Text) : Selection :=
  match Text.dropFront [45] flag with
  | 87 :: rest => .warning (Text.dropFront no rest) (!no.isPrefixOf rest)
  | 70 :: rest => .feature (Text.dropFront no rest) (!no.isPrefixOf rest)
  | body => .warning body true

end Selection

/-- Switches all warnings but `pedantic`. -/
def setAllWarnings (s : Settings) (on : Bool) : Settings :=
  { s with warnings :=
      (Warning.all.filter (· != .pedantic)).foldl (fun ws w => ws.set w on) s.warnings }

/-- **Makes a choice**, if there is something of that name. -/
def select (s : Settings) : Selection → Option Settings
  | .warning name on =>
    if name = text "all" then some (s.setAllWarnings on)
    else if name = text "error" then some { s with warningsAsErrors := on }
    else (Warning.ofName? name).map fun w => { s with warnings := s.warnings.set w on }
  | .feature name on =>
    (Feature.ofName? name).map fun f => { s with features := s.features.set f on }

/-- Follows a flag. -/
def selectText (s : Settings) (flag : Text) : Option Settings := s.select (.parse flag)

/-- Whether a name stands for several warnings. -/
def isGroup (name : Text) : Bool :=
  name == text "Wall" || name == text "Wno-all" || name == text "Wpedantic"

/-- **Makes choices**, groups before the others, and returns those that choose nothing. -/
def selectAll (s : Settings) (names : List Text) : Settings × List Text :=
  let s := (names.filter isGroup).foldl (fun s name => (s.selectText (45 :: name)).getD s) s
  (names.filter (!isGroup ·)).foldl
    (fun (s, unknown) name =>
      match s.selectText (45 :: name) with
      | some s => (s, unknown)
      | none => (s, unknown ++ [name]))
    (s, [])

end StackCompiler.Settings
