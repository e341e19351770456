/-
**Operands.**

Operands are texts: register names, numbers, character literals and labels.  A number names its
base by its first characters; a byte between single quotes stands for itself.
-/

import Std.Data.HashMap
import StackCompiler.Assembly.Error
import StackCompiler.Mips.Register
import StackCompiler.Text.Letter

namespace StackCompiler.Assembly

/-- The addresses of labels. -/
abbrev Labels := Std.HashMap Text UInt32

namespace Operand

/-! ### The number of operands -/

/-- A wrong number of operands. -/
def wrongArity {α : Type} (form : String) (expected : Nat) (operands : List Text) :
    Except Cause α :=
  .error (.operand (.arity form expected operands.length))

/-- Asks for no operands. -/
def none (form : String) : List Text → Except Cause Unit
  | [] => .ok ()
  | operands => wrongArity form 0 operands

/-- Asks for one operand. -/
def one (form : String) : List Text → Except Cause Text
  | [a] => .ok a
  | operands => wrongArity form 1 operands

/-- Asks for two operands. -/
def two (form : String) : List Text → Except Cause (Text × Text)
  | [a, b] => .ok (a, b)
  | operands => wrongArity form 2 operands

/-- Asks for three operands. -/
def three (form : String) : List Text → Except Cause (Text × Text × Text)
  | [a, b, c] => .ok (a, b, c)
  | operands => wrongArity form 3 operands

/-! ### Registers and numbers -/

/-- A register. -/
def register (t : Text) : Except Cause Register :=
  match Register.parse? t with
  | some r => .ok r
  | .none => .error (.operand (.badRegister t))

/-- A number that fits in 64 bits, or a byte between single quotes. -/
def immediate (t : Text) : Except Cause Int :=
  match t with
  | [39, c, 39] => .ok c.toNat
  | _ =>
    match Numeral.readSigned .none 64 t with
    | .ok n => .ok n
    | .error _ => .error (.operand (.badImmediate t))

/-- A number from -2^15 to 2^15 - 1. -/
def signed16 (t : Text) : Except Cause UInt16 := do
  let n ← immediate t
  if n < -32768 ∨ 32767 < n then .error (.operand (.notSigned16 n)) else .ok (UInt16.ofInt n)

/-- A number from 0 to 2^16 - 1. -/
def unsigned16 (t : Text) : Except Cause UInt16 := do
  let n ← immediate t
  if n < 0 ∨ 65535 < n then .error (.operand (.notUnsigned16 n)) else .ok (UInt16.ofInt n)

/-- A number from -2^31 to 2^32 - 1, before it is cut to a word. -/
def wordValue (t : Text) : Except Cause Int := do
  let n ← immediate t
  if n < -2147483648 ∨ 4294967295 < n then .error (.operand (.notWord n)) else .ok n

/-- A number from -2^31 to 2^32 - 1 as a word. -/
def word (t : Text) : Except Cause UInt32 := return UInt32.ofInt (← wordValue t)

/-- A number of places to shift by. -/
def shift (t : Text) : Except Cause UInt32 := do
  let n ← immediate t
  if n < 0 ∨ 31 < n then .error (.operand (.shiftAmount n)) else .ok (UInt32.ofInt n)

/-! ### Labels -/

/-- The address of a label. -/
def label (labels : Labels) (t : Text) : Except Cause UInt32 :=
  match labels[t]? with
  | some address => .ok address
  | .none => .error (.undefinedLabel t)

/-- The number of words from the instruction behind a branch at `pc` to a target. -/
def distance (pc target : UInt32) : Int :=
  ((target.toNat : Int) - ((pc + 4).toNat : Int)).tdiv 4

/-- The distance from a branch at `pc` to a label, in the field of a word. -/
def branch (labels : Labels) (pc : UInt32) (t : Text) : Except Cause UInt16 := do
  let words := distance pc (← label labels t)
  if words < -32768 ∨ 32767 < words then .error (.operand (.branchRange t words))
  else .ok (UInt16.ofInt words)

end Operand

end StackCompiler.Assembly
