/-
**What is wrong with an assembly line.**

A failure names its line by number and quotes it.  Its cause is a value, and the wording of all
causes is in this module.
-/

import StackCompiler.Text.Blank
import StackCompiler.Text.Quoted

namespace StackCompiler.Assembly

/-- The ways in which a label or the operands of an instruction are malformed. -/
inductive OperandFault where
  | invalidLabel (name : Text)
  /-- An instruction of the named form has the wrong number of operands. -/
  | arity (form : String) (expected found : Nat)
  /-- A jump through a register takes one or two operands. -/
  | jumpRegisterArity (found : Nat)
  | memoryArity (found : Nat)
  | badRegister (operand : Text)
  | badImmediate (operand : Text)
  /-- The number does not fit in 16 bits with a sign. -/
  | notSigned16 (value : Int)
  /-- The number does not fit in 16 bits without a sign. -/
  | notUnsigned16 (value : Int)
  /-- The number does not fit in 32 bits, with or without a sign. -/
  | notWord (value : Int)
  | shiftAmount (value : Int)
  | branchRange (label : Text) (words : Int)
deriving DecidableEq, Repr

/-- The causes of a failure. -/
inductive Cause where
  | undefinedLabel (name : Text)
  | unknownMnemonic (name : Text)
  | duplicateLabel (name : Text)
  | operand (fault : OperandFault)
  /-- An instruction is encoded in another number of words than it was laid out for. -/
  | addressDrift (detail : Text)
deriving DecidableEq, Repr

open Numeral (decimal signed)

/-- The text of what is wrong with operands. -/
def OperandFault.message : OperandFault → Text
  | invalidLabel name => text "invalid label " ++ Text.quote name
  | arity form expected found =>
    text form ++ text " takes " ++ decimal expected ++ text " operands, got " ++ decimal found
  | jumpRegisterArity found => text "jalr takes 1 or 2 operands, got " ++ decimal found
  | memoryArity found =>
    text "load/store takes rt, off(base), got " ++ decimal found ++ text " operands"
  | badRegister operand => text "bad register " ++ Text.quote operand
  | badImmediate operand => text "bad immediate " ++ Text.quote operand
  | notSigned16 value =>
    text "immediate " ++ signed value ++ text " does not fit in 16 signed bits"
  | notUnsigned16 value =>
    text "immediate " ++ signed value ++ text " does not fit in 16 unsigned bits"
  | notWord value => text "immediate " ++ signed value ++ text " does not fit in 32 bits"
  | shiftAmount value => text "shift amount " ++ signed value ++ text " out of range"
  | branchRange label words =>
    text "branch to " ++ label ++ text " out of range (" ++ signed words ++ text " words)"

/-- What kind of failure it is. -/
def Cause.title : Cause → Text
  | undefinedLabel _ => text "undefined label"
  | unknownMnemonic _ => text "unknown mnemonic"
  | duplicateLabel _ => text "duplicate label"
  | operand _ => text "malformed operand"
  | addressDrift _ => text "pass 2 word count differs from pass 1"

/-- What there is to add. -/
def Cause.detail : Cause → Text
  | undefinedLabel name => name
  | unknownMnemonic name => name
  | duplicateLabel name => name
  | operand fault => fault.message
  | addressDrift detail => detail

/-- A failure on a line. -/
structure LineError where
  /-- The number of the line, counted from one. -/
  line : Nat
  source : Text
  cause : Cause
deriving DecidableEq, Repr

/-- The text of a failure: line number, cause, particulars, and the line itself. -/
def LineError.message (e : LineError) : Text :=
  let detail := e.cause.detail
  let source := Text.trim e.source
  text "line " ++ decimal e.line ++ text ": " ++ e.cause.title ++
    (if detail.isEmpty then [] else text ": " ++ detail) ++
    (if source.isEmpty then [] else text " (" ++ Text.quote source ++ text ")")

/-- The ways in which assembling ends without an image. -/
inductive Failure where
  | line (e : LineError)
  /-- A line has separators where its mnemonic should be, and nothing else. -/
  | noMnemonic (line : Nat)
deriving DecidableEq, Repr

end StackCompiler.Assembly
