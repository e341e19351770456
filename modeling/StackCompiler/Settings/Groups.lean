/-
**Switches on the command line.**

Every warning and every feature has a pair of switches on the command line, with its setting and its
description.
-/

import StackCompiler.CommandLine.FlagSet
import StackCompiler.Settings.Basic

namespace StackCompiler.Settings

open CommandLine

/-- The flags for warnings. -/
def warningGroup (s : Settings) : Group where
  name := text "Warning Flags"
  kind := text "warning"
  header := text "Available Warning Flags:"
  entries := Warning.all.map fun w =>
    { name := text w.name, mark := text "W", usage := text w.description
      on := some (s.warnings.get w), off := some false }

/-- The flags for features. -/
def featureGroup (s : Settings) : Group where
  name := text "Feature Flags"
  kind := text "feature"
  header := text "Available Feature Flags:"
  entries := Feature.all.map fun f =>
    { name := text f.name, mark := text "F", usage := text f.description
      on := some (s.features.get f), off := some false }

/-- **Defines the switches of all warnings and features.** -/
def defineGroups (s : Settings) (fs : FlagSet) : FlagSet × Option DefinitionError :=
  match fs.defineGroup s.warningGroup with
  | (fs, none) => fs.defineGroup s.featureGroup
  | (fs, some e) => (fs, some e)

end StackCompiler.Settings
