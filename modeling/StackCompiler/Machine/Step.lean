/-
**One step of the machine.**

A step fetches the word at the program counter, moves the counter to the next word and carries the
operation out, unless it fails.  Branches and jumps take effect at once.
-/

import StackCompiler.Machine.State
import StackCompiler.Mips.Operation
import StackCompiler.Mips.Service

namespace StackCompiler.Machine

/-! ### Small pieces -/

/-- Gives a register a value. -/
def setReg (m : Machine) (r : Register) (v : UInt32) : Machine :=
  { m with regs := m.regs.set r v }

/-- Goes to an address if a condition holds. -/
def goIf (m : Machine) (condition : Bool) (target : UInt32) : Machine :=
  if condition then { m with pc := target } else m

/-- One for truth and zero for falsehood. -/
def ofBool (b : Bool) : UInt32 := if b then 1 else 0

/-- Whether the sum of two words overflows as a sum of signed numbers. -/
def addOverflows (a b : UInt32) : Bool := (a ^^^ (a + b)) &&& (b ^^^ (a + b)) &&& 0x80000000 != 0

/-- Whether the difference of two words overflows as a difference of signed numbers. -/
def subOverflows (a b : UInt32) : Bool := (a ^^^ b) &&& (a ^^^ (a - b)) &&& 0x80000000 != 0

/-- Shifts to the right and keeps the sign. -/
def shiftArithmetic (v amount : UInt32) : UInt32 := (v.toInt32 >>> amount.toInt32).toUInt32

/-- The high and the low half of a product. -/
def halves (p : UInt64) : UInt32 × UInt32 := ((p >>> 32).toUInt32, p.toUInt32)

/-- Remainder and quotient of signed numbers, rounded toward zero.  Both are zero if the divisor
is. -/
def divide (a b : UInt32) : UInt32 × UInt32 :=
  if b = 0 then (0, 0) else ((a.toInt32 % b.toInt32).toUInt32, (a.toInt32 / b.toInt32).toUInt32)

/-- Remainder and quotient of unsigned numbers.  Both are zero if the divisor is. -/
def divideUnsigned (a b : UInt32) : UInt32 × UInt32 := if b = 0 then (0, 0) else (a % b, a / b)

/-- Replaces the two halves of a product or quotient. -/
def setHalves (m : Machine) (v : UInt32 × UInt32) : Machine := { m with hi := v.1, lo := v.2 }

/-! ### Services -/

/-- Puts bytes out. -/
def write (m : Machine) (bs : Text) : Machine := { m with output := m.output ++ bs }

/-- Halts with a status. -/
def exit (m : Machine) (status : Int32) : Machine := { m with halted := true, exitCode := status }

/-- **What a service does**, with its argument in `$a0`.  The heap grows by whole words, and its
former end is the result. -/
def serve (m : Machine) (s : Service) : Machine :=
  let argument := m.regs.get Register.a0
  match s with
  | .printNumber => m.write (Numeral.signed argument.toInt32.toInt)
  | .printString => m.write (m.memory.string argument)
  | .extendHeap =>
    { m with
      regs := m.regs.put Register.v0 m.heapEnd
      heapEnd := m.heapEnd + ((argument + 3) &&& 0xFFFFFFFC) }
  | .exitZero => m.exit 0
  | .printCharacter => m.write [argument.toUInt8]
  | .exitStatus => m.exit argument.toInt32

/-- **Asks for the service** whose number is in `$v0`. -/
def syscall (m : Machine) : Machine × Option Stop :=
  let number := m.regs.get Register.v0
  match Service.ofNumber? number.toNat with
  | some s => (m.serve s, none)
  | none => (m, some (.badService number))

/-! ### Words -/

/-- Puts a checked result into a register, unless it overflowed and overflow is trapped. -/
def setChecked (m : Machine) (overflows : Bool) (r : Register) (v : UInt32) :
    Machine × Option Stop :=
  if m.trapOverflow && overflows then (m, some .overflow) else (m.setReg r v, none)

/-- **What a word does whose primary opcode is zero**, with the values of its two source
registers. -/
def special (m : Machine) (f : Fields) (rs rt : UInt32) : Machine × Option Stop :=
  match Operation.ofFunction? f.funct with
  | some .sll => (m.setReg f.rd (rt <<< f.shamt), none)
  | some .srl => (m.setReg f.rd (rt >>> f.shamt), none)
  | some .sra => (m.setReg f.rd (shiftArithmetic rt f.shamt), none)
  | some .sllv => (m.setReg f.rd (rt <<< (rs &&& 31)), none)
  | some .srlv => (m.setReg f.rd (rt >>> (rs &&& 31)), none)
  | some .srav => (m.setReg f.rd (shiftArithmetic rt (rs &&& 31)), none)
  | some .jr => ({ m with pc := rs }, none)
  | some .jalr =>
    let back := m.pc
    let m := { m with pc := rs }
    (m.setReg f.rd back, none)
  | some .syscall => m.syscall
  | some .mfhi => (m.setReg f.rd m.hi, none)
  | some .mflo => (m.setReg f.rd m.lo, none)
  | some .mult => (m.setHalves (halves (rs.toInt32.toInt64 * rt.toInt32.toInt64).toUInt64), none)
  | some .multu => (m.setHalves (halves (rs.toUInt64 * rt.toUInt64)), none)
  | some .div => (m.setHalves (divide rs rt), none)
  | some .divu => (m.setHalves (divideUnsigned rs rt), none)
  | some .add => m.setChecked (addOverflows rs rt) f.rd (rs + rt)
  | some .addu => (m.setReg f.rd (rs + rt), none)
  | some .sub => m.setChecked (subOverflows rs rt) f.rd (rs - rt)
  | some .subu => (m.setReg f.rd (rs - rt), none)
  | some .and => (m.setReg f.rd (rs &&& rt), none)
  | some .or => (m.setReg f.rd (rs ||| rt), none)
  | some .xor => (m.setReg f.rd (rs ^^^ rt), none)
  | some .nor => (m.setReg f.rd (~~~(rs ||| rt)), none)
  | some .slt => (m.setReg f.rd (ofBool (rs.toInt32 < rt.toInt32)), none)
  | some .sltu => (m.setReg f.rd (ofBool (rs < rt)), none)
  | _ => (m, some (.reservedFunction f.funct))

/-- **What a word at `pc` does**: the state that was reached, and the failure if there was one.  The
counter of the given state is already behind the word. -/
def execute (m : Machine) (pc word : UInt32) : Machine × Option Stop :=
  let f := Fields.ofWord word
  let rs := m.regs.get f.rs
  let rt := m.regs.get f.rt
  let signed := Word.signExtend f.imm
  let unsigned := f.imm.toUInt32
  let address := rs + signed
  let branch := Word.branchTarget pc f.imm
  if f.op = 0 then m.special f rs rt
  else match Operation.ofPrimary? f.op with
    | some .j => ({ m with pc := Word.jumpTarget pc f.index }, none)
    | some .jal =>
      let m := m.setReg Register.ra (pc + 4)
      ({ m with pc := Word.jumpTarget pc f.index }, none)
    | some .beq => (m.goIf (rs == rt) branch, none)
    | some .bne => (m.goIf (rs != rt) branch, none)
    | some .blez => (m.goIf (rs.toInt32 ≤ 0) branch, none)
    | some .bgtz => (m.goIf (0 < rs.toInt32) branch, none)
    | some .addi => m.setChecked (addOverflows rs signed) f.rt (rs + signed)
    | some .addiu => (m.setReg f.rt (rs + signed), none)
    | some .slti => (m.setReg f.rt (ofBool (rs.toInt32 < signed.toInt32)), none)
    | some .sltiu => (m.setReg f.rt (ofBool (rs < signed)), none)
    | some .andi => (m.setReg f.rt (rs &&& unsigned), none)
    | some .ori => (m.setReg f.rt (rs ||| unsigned), none)
    | some .xori => (m.setReg f.rt (rs ^^^ unsigned), none)
    | some .lui => (m.setReg f.rt (unsigned <<< 16), none)
    | some .lb => (m.setReg f.rt (m.memory.load address).toInt8.toInt32.toUInt32, none)
    | some .lbu => (m.setReg f.rt (m.memory.load address).toUInt32, none)
    | some .lh =>
      if address &&& 1 ≠ 0 then (m, some .unaligned)
      else (m.setReg f.rt (Word.signExtend (m.memory.loadHalf address)), none)
    | some .lhu =>
      if address &&& 1 ≠ 0 then (m, some .unaligned)
      else (m.setReg f.rt (m.memory.loadHalf address).toUInt32, none)
    | some .lw =>
      if address &&& 3 ≠ 0 then (m, some .unaligned)
      else (m.setReg f.rt (m.memory.loadWord address), none)
    | some .sb => ({ m with memory := m.memory.store address rt.toUInt8 }, none)
    | some .sh =>
      if address &&& 1 ≠ 0 then (m, some .unaligned)
      else ({ m with memory := m.memory.storeHalf address rt.toUInt16 }, none)
    | some .sw =>
      if address &&& 3 ≠ 0 then (m, some .unaligned)
      else ({ m with memory := m.memory.storeWord address rt }, none)
    | _ => (m, some (.reservedOpcode f.op))

/-! ### The step -/

/-- The word at the counter, if it is aligned and there is one.  The number of words is not cut to
32 bits, which makes no difference to fewer than 2³² words. -/
def fetch? (m : Machine) : Option UInt32 :=
  if m.pc &&& 3 = 0 then m.text[(m.pc / 4).toNat]? else none

/-- The state in which a fetched word is carried out. -/
def advance (m : Machine) : Machine := { m with pc := m.pc + 4, steps := m.steps + 1 }

/-- **One step**: the state behind it, and the failure with its place if there was one.  A program
that has ended stays as it is. -/
def step (m : Machine) : Machine × Option Fault :=
  if m.halted then (m, none)
  else match m.fetch? with
    | none => (m, some ⟨m.pc, 0, .pcOutOfRange⟩)
    | some word =>
      match m.advance.execute m.pc word with
      | (m', some stop) => (m', some ⟨m.pc, word, stop⟩)
      | (m', none) => (m', none)

end StackCompiler.Machine
