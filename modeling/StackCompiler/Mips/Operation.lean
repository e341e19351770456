/-
**Operations.**

The operations that the assembler writes and the machine carries out.  An operation is told apart
by the primary opcode of its word, or by the function code if the primary opcode is zero.
-/

import StackCompiler.Mips.Word

namespace StackCompiler

/-- The operations of the machine. -/
inductive Operation where
  | sll | srl | sra | sllv | srlv | srav
  | jr | jalr | syscall | mfhi | mflo
  | mult | multu | div | divu
  | add | addu | sub | subu | and | or | xor | nor | slt | sltu
  | j | jal | beq | bne | blez | bgtz
  | addi | addiu | slti | sltiu | andi | ori | xori | lui
  | lb | lh | lw | lbu | lhu | sb | sh | sw
deriving DecidableEq, Repr

/-- What tells an operation apart in a word. -/
inductive Operation.Code where
  /-- The primary opcode is zero and this is the function code. -/
  | function (funct : UInt32)
  | primary (op : UInt32)
deriving DecidableEq, Repr

namespace Operation

/-- The code of an operation. -/
def code : Operation → Code
  | sll => .function 0x00
  | srl => .function 0x02
  | sra => .function 0x03
  | sllv => .function 0x04
  | srlv => .function 0x06
  | srav => .function 0x07
  | jr => .function 0x08
  | jalr => .function 0x09
  | syscall => .function 0x0C
  | mfhi => .function 0x10
  | mflo => .function 0x12
  | mult => .function 0x18
  | multu => .function 0x19
  | div => .function 0x1A
  | divu => .function 0x1B
  | add => .function 0x20
  | addu => .function 0x21
  | sub => .function 0x22
  | subu => .function 0x23
  | and => .function 0x24
  | or => .function 0x25
  | xor => .function 0x26
  | nor => .function 0x27
  | slt => .function 0x2A
  | sltu => .function 0x2B
  | j => .primary 0x02
  | jal => .primary 0x03
  | beq => .primary 0x04
  | bne => .primary 0x05
  | blez => .primary 0x06
  | bgtz => .primary 0x07
  | addi => .primary 0x08
  | addiu => .primary 0x09
  | slti => .primary 0x0A
  | sltiu => .primary 0x0B
  | andi => .primary 0x0C
  | ori => .primary 0x0D
  | xori => .primary 0x0E
  | lui => .primary 0x0F
  | lb => .primary 0x20
  | lh => .primary 0x21
  | lw => .primary 0x23
  | lbu => .primary 0x24
  | lhu => .primary 0x25
  | sb => .primary 0x28
  | sh => .primary 0x29
  | sw => .primary 0x2B

/-- The operation with a function code. -/
def ofFunction? (funct : UInt32) : Option Operation :=
  match funct.toNat with
  | 0x00 => some sll
  | 0x02 => some srl
  | 0x03 => some sra
  | 0x04 => some sllv
  | 0x06 => some srlv
  | 0x07 => some srav
  | 0x08 => some jr
  | 0x09 => some jalr
  | 0x0C => some syscall
  | 0x10 => some mfhi
  | 0x12 => some mflo
  | 0x18 => some mult
  | 0x19 => some multu
  | 0x1A => some div
  | 0x1B => some divu
  | 0x20 => some add
  | 0x21 => some addu
  | 0x22 => some sub
  | 0x23 => some subu
  | 0x24 => some and
  | 0x25 => some or
  | 0x26 => some xor
  | 0x27 => some nor
  | 0x2A => some slt
  | 0x2B => some sltu
  | _ => none

/-- The operation with a primary opcode other than zero. -/
def ofPrimary? (op : UInt32) : Option Operation :=
  match op.toNat with
  | 0x02 => some j
  | 0x03 => some jal
  | 0x04 => some beq
  | 0x05 => some bne
  | 0x06 => some blez
  | 0x07 => some bgtz
  | 0x08 => some addi
  | 0x09 => some addiu
  | 0x0A => some slti
  | 0x0B => some sltiu
  | 0x0C => some andi
  | 0x0D => some ori
  | 0x0E => some xori
  | 0x0F => some lui
  | 0x20 => some lb
  | 0x21 => some lh
  | 0x23 => some lw
  | 0x24 => some lbu
  | 0x25 => some lhu
  | 0x28 => some sb
  | 0x29 => some sh
  | 0x2B => some sw
  | _ => none

/-- **The operation of a word.** -/
def ofFields? (f : Fields) : Option Operation :=
  if f.op = 0 then ofFunction? f.funct else ofPrimary? f.op

/-- The operation with a code. -/
def ofCode? : Code → Option Operation
  | .function funct => ofFunction? funct
  | .primary op => ofPrimary? op

/-- Different operations have different codes. -/
theorem ofCode?_code (o : Operation) : ofCode? o.code = some o := by cases o <;> rfl

/-- The word of an operation that is told apart by its function code. -/
def registerWord (o : Operation) (rs rt rd : Register) (shamt : UInt32) : UInt32 :=
  match o.code with
  | .function funct => Word.ofRegisters rs rt rd shamt funct
  | .primary op => Word.ofImmediate op rs rt 0

/-- The word of an operation with a number. -/
def immediateWord (o : Operation) (rs rt : Register) (imm : UInt16) : UInt32 :=
  match o.code with
  | .function funct => Word.ofRegisters rs rt 0 0 funct
  | .primary op => Word.ofImmediate op rs rt imm

/-- The word of a jump. -/
def jumpWord (o : Operation) (address : UInt32) : UInt32 :=
  match o.code with
  | .function funct => Word.ofRegisters 0 0 0 0 funct
  | .primary op => Word.ofJump op address

end Operation

end StackCompiler
