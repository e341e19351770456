/-
**Switches.**

Features change what is produced, warnings what is reported.  Each has a name, a description and a
setting from the start, and each can be switched on and off.
-/

import StackCompiler.Text.Basic

namespace StackCompiler

/-! ### Features -/

/-- What the compiler can do in two ways. -/
inductive Feature where
  | laElide
  | implicitEntry
deriving DecidableEq, Repr

/-- Which features are on. -/
structure Features where
  laElide : Bool := true
  implicitEntry : Bool := true
deriving DecidableEq, Repr

namespace Feature

/-- The features, in the order of their numbers. -/
def all : List Feature := [laElide, implicitEntry]

/-- The feature with a number. -/
def ofNumber? (n : Int) : Option Feature := if n < 0 then none else all[n.toNat]?

/-- The name of a feature. -/
def name : Feature → String
  | laElide => "la-elide"
  | implicitEntry => "implicit-entry"

/-- What a feature does. -/
def description : Feature → String
  | laElide => "Drop the 'ori' of an 'la' whose low 16 bits are known to be zero."
  | implicitEntry => "Start the entry function at offset 0 when no entry symbol is defined."

/-- The feature with a name. -/
def ofName? (t : Text) : Option Feature := all.find? fun f => text f.name == t

end Feature

namespace Features

/-- Whether a feature is on. -/
def get (s : Features) : Feature → Bool
  | .laElide => s.laElide
  | .implicitEntry => s.implicitEntry

/-- Switches a feature. -/
def set (s : Features) (f : Feature) (on : Bool) : Features :=
  match f with
  | .laElide => { s with laElide := on }
  | .implicitEntry => { s with implicitEntry := on }

theorem get_set (s : Features) (f g : Feature) (on : Bool) :
    (s.set f on).get g = if f = g then on else s.get g := by
  cases f <;> cases g <;> rfl

end Features

/-! ### Warnings -/

/-- What can be warned about. -/
inductive Warning where
  | unknownOp
  | droppedSymbol
  | symbolName
  | depth
  | pedantic
  | extra
deriving DecidableEq, Repr

/-- Which warnings are on. -/
structure Warnings where
  unknownOp : Bool := true
  droppedSymbol : Bool := true
  symbolName : Bool := true
  depth : Bool := false
  pedantic : Bool := false
  extra : Bool := true
deriving DecidableEq, Repr

namespace Warning

/-- The warnings, in the order of their numbers. -/
def all : List Warning := [unknownOp, droppedSymbol, symbolName, depth, pedantic, extra]

/-- The warning with a number. -/
def ofNumber? (n : Int) : Option Warning := if n < 0 then none else all[n.toNat]?

/-- The number of a warning. -/
def number : Warning → Nat
  | unknownOp => 0
  | droppedSymbol => 1
  | symbolName => 2
  | depth => 3
  | pedantic => 4
  | extra => 5

/-- The name of a warning. -/
def name : Warning → String
  | unknownOp => "unknown-op"
  | droppedSymbol => "dropped-symbol"
  | symbolName => "symbol-name"
  | depth => "depth"
  | pedantic => "pedantic"
  | extra => "extra"

/-- When a warning is given. -/
def description : Warning → String
  | unknownOp => "Warn when an unrecognized instruction is lowered to a nop."
  | droppedSymbol => "Warn when a defined symbol does not start an instruction."
  | symbolName => "Warn when a global symbol can not be used as an assembler label."
  | depth => "Report the operand stack depth reserved per frame."
  | pedantic => "Issue every warning, including informational ones."
  | extra => "Enable extra miscellaneous warnings (e.g. unrecognized flags)."

/-- The warning with a name. -/
def ofName? (t : Text) : Option Warning := all.find? fun w => text w.name == t

end Warning

namespace Warnings

/-- Whether a warning is on. -/
def get (s : Warnings) : Warning → Bool
  | .unknownOp => s.unknownOp
  | .droppedSymbol => s.droppedSymbol
  | .symbolName => s.symbolName
  | .depth => s.depth
  | .pedantic => s.pedantic
  | .extra => s.extra

/-- Switches a warning. -/
def set (s : Warnings) (w : Warning) (on : Bool) : Warnings :=
  match w with
  | .unknownOp => { s with unknownOp := on }
  | .droppedSymbol => { s with droppedSymbol := on }
  | .symbolName => { s with symbolName := on }
  | .depth => { s with depth := on }
  | .pedantic => { s with pedantic := on }
  | .extra => { s with extra := on }

theorem get_set (s : Warnings) (w v : Warning) (on : Bool) :
    (s.set w on).get v = if w = v then on else s.get v := by
  cases w <;> cases v <;> rfl

/-- **Which warnings are reported**: those that are on, and with `pedantic` all others too.  A
report that belongs to no warning is only made with `pedantic`. -/
def issues (s : Warnings) : Option Warning → Bool
  | some w => s.get w || (s.pedantic && w != .pedantic)
  | none => s.pedantic

end Warnings

end StackCompiler
