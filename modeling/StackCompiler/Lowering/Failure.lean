/-
**What lowering reports.**

Lowering ends with a failure when a program asks for something that the target can not do, and it
makes remarks about what it passes over.  Both are values; their wording is in this module.
-/

import StackCompiler.Settings.Switch
import StackCompiler.Stack.Instruction
import StackCompiler.Symbol.Basic

namespace StackCompiler.Lowering

open Numeral (decimal signed)

/-! ### Failures -/

/-- Why an instruction can not be lowered. -/
inductive Cause where
  /-- No instruction starts at the place that a jump goes to. -/
  | badTarget (target : Int)
  /-- No instruction starts at the place that is called. -/
  | badCallee
  /-- The frame has fewer local slots than the number of this one. -/
  | slotRange (slot : Nat) (slots : Int64)
  /-- The frame has fewer local slots than a call has arguments. -/
  | argumentRange (count : Nat) (slots : Int64)
  /-- A service has more arguments than there are registers for them. -/
  | serviceRegisters (count : Nat)
  /-- A service has more arguments than can be passed. -/
  | serviceArguments (count : Nat)
  | crossFunction (target : Int) (start stop : Nat)
  | unsupportedService (number : Nat)
  | noScratch
deriving DecidableEq, Repr

namespace Cause

/-- What kind of failure it is. -/
def title : Cause → Text
  | badTarget _ | badCallee => text "jump target is not an instruction boundary"
  | slotRange .. | argumentRange .. => text "local slot out of range"
  | serviceRegisters _ | serviceArguments _ => text "too many syscall arguments"
  | crossFunction .. => text "jump leaves the enclosing function"
  | unsupportedService _ => text "syscall service has no host equivalent"
  | noScratch => text "scratch registers exhausted"

/-- What there is to add, if anything. -/
def detail : Cause → Text
  | badTarget target => text "target " ++ signed target
  | badCallee | noScratch => []
  | slotRange slot slots =>
    text "slot " ++ decimal slot ++ text ", frame has " ++ signed slots.toInt
  | argumentRange count slots =>
    decimal count ++ text " arguments, frame has " ++ signed slots.toInt ++ text " slots"
  | serviceRegisters count => decimal count ++ text " arguments, at most 4 fit in $a0-$a3"
  | serviceArguments count => decimal count ++ text " arguments"
  | crossFunction target start stop =>
    text "target " ++ signed target ++ text " outside [" ++ decimal start ++ text ", " ++
      decimal stop ++ text ")"
  | unsupportedService number => text "service " ++ decimal number

end Cause

/-- Why a program can not be lowered. -/
inductive Failure where
  | instruction (offset : Nat) (ins : Instruction) (cause : Cause)
  | noEntry
  /-- The frame of this size can not be reached from its pointer. -/
  | frameTooLarge (size localSlots depth : Int64)
deriving DecidableEq, Repr

/-- The text of a failure. -/
def Failure.message : Failure → Text
  | instruction offset ins cause =>
    text "offset " ++ decimal offset ++ text " (" ++ ins.render ++ text "): " ++ cause.title ++
      (if cause.detail.isEmpty then [] else text ": " ++ cause.detail)
  | noEntry => text "no entry function"
  | frameTooLarge size localSlots depth =>
    text "frame does not fit a 16-bit displacement: " ++ signed size.toInt ++ text " bytes (" ++
      signed localSlots.toInt ++ text " locals, depth " ++ signed depth.toInt ++ text ")"

/-! ### Remarks -/

/-- What a remark is about. -/
inductive Matter where
  /-- An instruction that nobody knows became one that does nothing. -/
  | becameNop (ins : Instruction)
  /-- An instruction that nobody knows was passed over. -/
  | skipped (ins : Instruction)
  | unusableName (name : Text)
  | repeatedName (name : Text)
  /-- A symbol has no marker because no instruction starts at its address. -/
  | dropped (symbol : Symbol)
deriving DecidableEq, Repr

namespace Matter

/-- The warning under which a matter is reported. -/
def warning : Matter → Warning
  | becameNop _ | skipped _ => .unknownOp
  | unusableName _ | repeatedName _ => .symbolName
  | dropped _ => .droppedSymbol

/-- The text of a matter. -/
def message : Matter → Text
  | becameNop ins => text "unrecognized instruction " ++ ins.render ++ text " lowered to nop"
  | skipped ins => text "unrecognized instruction " ++ ins.render ++ text " skipped"
  | unusableName name =>
    text "global symbol " ++ Text.quote name ++ text " can not be used as a label"
  | repeatedName name => text "global symbol " ++ Text.quote name ++ text " defined more than once"
  | dropped symbol =>
    text "symbol " ++ Text.quote symbol.name ++ text " at " ++ decimal symbol.address.toNat ++
      text " does not start an instruction, no marker emitted"

end Matter

/-- Something at an offset that is worth a warning. -/
structure Remark where
  offset : Nat
  matter : Matter
deriving DecidableEq, Repr

/-- The text of a remark. -/
def Remark.message (r : Remark) : Text :=
  text "offset " ++ decimal r.offset ++ text ": " ++ r.matter.message

end StackCompiler.Lowering
