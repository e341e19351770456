/-
**The words of an instruction.**

The first pass asks how many words an instruction takes, the second for the words themselves.
All instructions take one word except `seq`, which takes two, and the loading of numbers and
addresses, which takes one word if the upper or the lower half alone is enough.  Whether an address
needs its lower half is only known in the first pass if the label stands before the instruction;
otherwise two words are laid out.
-/

import StackCompiler.Assembly.Mnemonic
import StackCompiler.Assembly.Operand

namespace StackCompiler.Assembly

open Operand

/-! ### Loading numbers and addresses -/

/-- The number of words that load a number. -/
def numberSize (n : Int) : Nat :=
  if 0 ≤ n ∧ n ≤ 65535 then 1
  else if -32768 ≤ n ∧ n < 0 then 1
  else if UInt32.ofInt n &&& 0xFFFF = 0 then 1
  else 2

/-- Loads the upper half of a word, and the lower half if two words are laid out. -/
def loadUpper (rd : Register) (w : UInt32) (words : Nat) : List UInt32 :=
  let upper := Operation.lui.immediateWord Register.zero rd (w >>> 16).toUInt16
  if words = 2 then [upper, Operation.ori.immediateWord rd rd w.toUInt16] else [upper]

/-- The number of words that load an address known in the first pass. -/
def addressSize (elide : Bool) (address : UInt32) : Nat :=
  if elide && address &&& 0xFFFF == 0 then 1 else 2

/-- The number of words of `li`. -/
def sizeNumber (operands : List Text) : Except Cause Nat := do
  let (_, value) ← two "li" operands
  return numberSize (← wordValue value)

/-- The number of words of `la`. -/
def sizeAddress (elide : Bool) (labels : Labels) (operands : List Text) : Except Cause Nat := do
  let (rd, target) ← two "la" operands
  let _ ← register rd
  if Text.isIdentifier target then
    match labels[target]? with
    | some address => return addressSize elide address
    | .none => return 2
  else return addressSize elide (← word target)

/-- The words of `li`.  Its operands were counted when its size was taken, so they are two. -/
def encodeNumber (operands : List Text) (words : Nat) : Except Cause (List UInt32) := do
  let (rd, value) ← two "li" operands
  let rd ← register rd
  let n ← immediate value
  if 0 ≤ n ∧ n ≤ 65535 then
    return [Operation.ori.immediateWord Register.zero rd (UInt16.ofInt n)]
  else if -32768 ≤ n ∧ n < 0 then
    return [Operation.addiu.immediateWord Register.zero rd (UInt16.ofInt n)]
  else return loadUpper rd (UInt32.ofInt n) words

/-- What is said when a lower half was left out that is needed. -/
def lowHalfDetail (target : Text) (address : UInt32) : Text :=
  text "la " ++ target ++ text " sized at one word but low half is 0x" ++
    Numeral.hexPadded 4 (address &&& 0xFFFF).toNat

/-- The words of `la`.  Its operands were counted when its size was taken, so they are two. -/
def encodeAddress (labels : Labels) (operands : List Text) (words : Nat) :
    Except Cause (List UInt32) := do
  let (rd, target) ← two "la" operands
  let rd ← register rd
  let address ← if Text.isIdentifier target then label labels target else word target
  if words = 1 ∧ address &&& 0xFFFF ≠ 0 then .error (.addressDrift (lowHalfDetail target address))
  else return loadUpper rd address words

/-! ### The operations of the machine -/

/-- `op rd, rs, rt`. -/
def threeRegisters (o : Operation) (operands : List Text) : Except Cause UInt32 := do
  let (rd, rs, rt) ← three "R-type" operands
  let rd ← register rd
  let rs ← register rs
  let rt ← register rt
  return o.registerWord rs rt rd 0

/-- `op rd, rt, rs`, where `rs` holds the shift amount. -/
def shiftByRegister (o : Operation) (operands : List Text) : Except Cause UInt32 := do
  let (rd, rt, rs) ← three "variable shift" operands
  let rd ← register rd
  let rt ← register rt
  let rs ← register rs
  return o.registerWord rs rt rd 0

/-- `op rd, rt, amount`. -/
def shiftByAmount (o : Operation) (operands : List Text) : Except Cause UInt32 := do
  let (rd, rt, amount) ← three "shift" operands
  let rd ← register rd
  let rt ← register rt
  let amount ← shift amount
  return o.registerWord Register.zero rt rd amount

/-- `op rs, rt`. -/
def multiply (o : Operation) (operands : List Text) : Except Cause UInt32 := do
  let (rs, rt) ← two "multiply/divide" operands
  let rs ← register rs
  let rt ← register rt
  return o.registerWord rs rt Register.zero 0

/-- `op rd`. -/
def fromProduct (o : Operation) (operands : List Text) : Except Cause UInt32 := do
  let rd ← register (← one "mfhi/mflo" operands)
  return o.registerWord Register.zero Register.zero rd 0

/-- `jr rs`. -/
def jumpRegister (operands : List Text) : Except Cause UInt32 := do
  let rs ← register (← one "jr" operands)
  return Operation.jr.registerWord rs Register.zero Register.zero 0

/-- `jalr rs` or `jalr rd, rs`. -/
def jumpLinkRegister : List Text → Except Cause UInt32
  | [rs] => do
    let rs ← register rs
    return Operation.jalr.registerWord rs Register.zero Register.ra 0
  | [rd, rs] => do
    let rd ← register rd
    let rs ← register rs
    return Operation.jalr.registerWord rs Register.zero rd 0
  | operands => .error (.operand (.jumpRegisterArity operands.length))

/-- `op rt, rs, immediate`, with an immediate read by `read`. -/
def withImmediate (o : Operation) (read : Text → Except Cause UInt16) (operands : List Text) :
    Except Cause UInt32 := do
  let (rt, rs, imm) ← three "immediate" operands
  let rt ← register rt
  let rs ← register rs
  let imm ← read imm
  return o.immediateWord rs rt imm

/-- `lui rt, immediate`. -/
def loadUpperImmediate (operands : List Text) : Except Cause UInt32 := do
  let (rt, imm) ← two "lui" operands
  let rt ← register rt
  let imm ← unsigned16 imm
  return Operation.lui.immediateWord Register.zero rt imm

/-- `op rt, offset(base)` or `op rt, (base)`. -/
def memoryAccess (o : Operation) (operands : List Text) : Except Cause UInt32 := do
  let (rt, offset, base) ← match operands with
    | [rt, base] => .ok (rt, text "0", base)
    | [rt, offset, base] => .ok (rt, offset, base)
    | _ => .error (.operand (.memoryArity operands.length))
  let rt ← register rt
  let base ← register base
  let offset ← signed16 offset
  return o.immediateWord base rt offset

/-- `op rs, rt, label`. -/
def branchTwo (o : Operation) (labels : Labels) (pc : UInt32) (operands : List Text) :
    Except Cause UInt32 := do
  let (rs, rt, target) ← three "branch" operands
  let rs ← register rs
  let rt ← register rt
  let imm ← branch labels pc target
  return o.immediateWord rs rt imm

/-- `op rs, label`. -/
def branchOne (o : Operation) (labels : Labels) (pc : UInt32) (operands : List Text) :
    Except Cause UInt32 := do
  let (rs, target) ← two "branch" operands
  let rs ← register rs
  let imm ← branch labels pc target
  return o.immediateWord rs Register.zero imm

/-- `op label`. -/
def jumpTo (o : Operation) (labels : Labels) (operands : List Text) : Except Cause UInt32 := do
  let target ← label labels (← one "jump" operands)
  return o.jumpWord (target &&& 0x0FFFFFFF)

/-- The word of an operation of the machine at `pc`. -/
def encodeOperation (labels : Labels) (pc : UInt32) (o : Operation) (operands : List Text) :
    Except Cause UInt32 :=
  match o with
  | .add | .addu | .sub | .subu | .and | .or | .xor | .nor | .slt | .sltu =>
    threeRegisters o operands
  | .sllv | .srlv | .srav => shiftByRegister o operands
  | .sll | .srl | .sra => shiftByAmount o operands
  | .mult | .multu | .div | .divu => multiply o operands
  | .mfhi | .mflo => fromProduct o operands
  | .jr => jumpRegister operands
  | .jalr => jumpLinkRegister operands
  | .syscall => do
    none "syscall" operands
    return Operation.syscall.registerWord Register.zero Register.zero Register.zero 0
  | .addi | .addiu | .slti | .sltiu => withImmediate o signed16 operands
  | .andi | .ori | .xori => withImmediate o unsigned16 operands
  | .lui => loadUpperImmediate operands
  | .lb | .lh | .lw | .lbu | .lhu | .sb | .sh | .sw => memoryAccess o operands
  | .beq | .bne => branchTwo o labels pc operands
  | .blez | .bgtz => branchOne o labels pc operands
  | .j | .jal => jumpTo o labels operands

/-! ### All mnemonics -/

namespace Mnemonic

/-- **The number of words** that an instruction takes, with the labels before it known. -/
def size (elide : Bool) (labels : Labels) (m : Mnemonic) (operands : List Text) :
    Except Cause Nat :=
  match m with
  | li => sizeNumber operands
  | la => sizeAddress elide labels operands
  | seq => .ok 2
  | _ => .ok 1

/-- **The words of an instruction** at `pc`, for which `words` words are laid out. -/
def encode (labels : Labels) (pc : UInt32) (words : Nat) (m : Mnemonic) (operands : List Text) :
    Except Cause (List UInt32) :=
  match m with
  | operation o => return [← encodeOperation labels pc o operands]
  | move => do
    let (rd, rs) ← two "move" operands
    let rd ← register rd
    let rs ← register rs
    return [Operation.add.registerWord rs Register.zero rd 0]
  | li => encodeNumber operands words
  | la => encodeAddress labels operands words
  | seq => do
    let (rd, rs, rt) ← three "seq" operands
    let rd ← register rd
    let rs ← register rs
    let rt ← register rt
    return [Operation.xor.registerWord rs rt rd 0, Operation.sltiu.immediateWord rd rd 1]
  | nop => do
    none "nop" operands
    return [0]
  | beqz => return [← branchOne .beq labels pc operands]
  | bnez => return [← branchOne .bne labels pc operands]
  | b => do
    let imm ← branch labels pc (← one "b" operands)
    return [Operation.beq.immediateWord Register.zero Register.zero imm]

end Mnemonic

end StackCompiler.Assembly
