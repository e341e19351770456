/-
**Starting a program.**

A program gets a help flag besides its own.  Its command line is read; a program whose command line
is wrong shows its usage page, and one that is asked for help shows its help page.
-/

import StackCompiler.CommandLine.Page

namespace StackCompiler.CommandLine

/-- How a program starts. -/
inductive Start where
  | misdefined (e : DefinitionError)
  | refused (e : ParseError)
  | help
  | go (args : List Text)
deriving DecidableEq, Repr

/-- The flag that asks for help. -/
def helpFlag : Flag :=
  .ofValue (text "help") (text "h") (.bool false) (text "Display this information") []

namespace App

/-- **Reads the command line of a program.** -/
def start (a : App) (arguments : List Text) : App × Start :=
  match a.flags.define helpFlag with
  | (fs, some e) => ({ a with flags := fs }, .misdefined e)
  | (fs, none) =>
    match fs.parse arguments with
    | (fs, some e) => ({ a with flags := fs }, .refused e)
    | (fs, none) =>
      ({ a with flags := fs },
        if fs.value? helpFlag.name = some (.bool true) then .help else .go fs.args)

/-- The text for wrong arguments. -/
def refusal (a : App) (page : Int) (e : ParseError) : Text :=
  e.message ++ text "\n" ++ a.usagePage page

end App

end StackCompiler.CommandLine
