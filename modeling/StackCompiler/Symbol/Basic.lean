/-
**Symbols.**

A symbol gives a name to an address of a code section.  Its kind and its binding are bytes, of
which two values each have a name.
-/

import StackCompiler.Text.Numeral

namespace StackCompiler

/-- A row of a symbol table. -/
structure Symbol where
  name : Text
  /-- What the symbol stands for: code or data. -/
  kind : UInt8 := 0
  /-- Who sees the symbol: only this object, or all. -/
  binding : UInt8 := 0
  defined : Bool := false
  address : UInt32 := 0
deriving DecidableEq, Repr

/-- The names of the symbols at which a program starts, if no others are given. -/
def defaultEntryNames : List Text := [text "main", text "kik"]

namespace Symbol

/-- The binding of a symbol that all see. -/
def globalBinding : UInt8 := 1

/-- The name of a kind. -/
def kindName (kind : UInt8) : Text :=
  if kind = 0 then text "TEXT"
  else if kind = 1 then text "DATA"
  else text "Kind(" ++ Numeral.decimal kind.toNat ++ text ")"

/-- The name of a binding. -/
def bindingName (binding : UInt8) : Text :=
  if binding = 0 then text "LOCAL"
  else if binding = globalBinding then text "GLOBAL"
  else text "Binding(" ++ Numeral.decimal binding.toNat ++ text ")"

/-- **A row as text.** -/
def render (s : Symbol) : Text :=
  s.name ++ text " " ++ kindName s.kind ++ text " " ++ bindingName s.binding ++
    text " defined=" ++ text (if s.defined then "true" else "false") ++ text " @" ++
    Numeral.decimal s.address.toNat

end Symbol

end StackCompiler
