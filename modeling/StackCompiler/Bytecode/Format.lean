/-
**Bytecode formats.**

Two formats number the operations differently and agree on everything else.  A code section names
its format by its first four bytes.
-/

import StackCompiler.Stack.Op

namespace StackCompiler

/-- The formats of bytecode. -/
inductive Format where
  | kats
  | oats
deriving DecidableEq, Repr

namespace Format

/-- The name of a format. -/
def name : Format → String
  | kats => "KATS"
  | oats => "OATS"

/-- The four bytes that a code section of a format starts with. -/
def magic (f : Format) : Text := text f.name

/-- The format of a magic. -/
def ofMagic? (t : Text) : Option Format :=
  if t = kats.magic then some kats else if t = oats.magic then some oats else none

/-- The number of a format. -/
def number : Format → Nat
  | kats => 1
  | oats => 2

/-- The format with a number. -/
def ofNumber? : Int → Option Format
  | 1 => some kats
  | 2 => some oats
  | _ => none

/-- The opcodes of a format. -/
def numbering : Format → List (UInt8 × Op)
  | kats =>
    [(0x01, .iconst), (0x02, .iadd), (0x03, .invoke), (0x04, .ret), (0x05, .print), (0x06, .pop),
     (0x07, .isub), (0x08, .imul), (0x09, .ilt), (0x0A, .jmp), (0x0B, .jmpz), (0x0C, .load),
     (0x0D, .store), (0x0E, .idiv), (0x0F, .ieq), (0x10, .igt), (0x11, .jmpnz), (0x12, .dup),
     (0x13, .swap), (0x14, .not), (0x15, .and), (0x16, .or), (0x17, .xor), (0x18, .shl),
     (0x19, .shr), (0x1A, .syscall), (0x1B, .newarray), (0x1C, .newstr), (0x1D, .iaload),
     (0x1E, .iastore), (0x1F, .baload), (0x20, .bastore)]
  | oats =>
    [(0x01, .iconst), (0x02, .iadd), (0x08, .invoke), (0x06, .ret), (0x25, .print), (0x26, .pop),
     (0x03, .isub), (0x04, .imul), (0x29, .ilt), (0x07, .jmp), (0x2B, .jmpz), (0x2C, .load),
     (0x2D, .store), (0x05, .idiv), (0x2F, .ieq), (0x30, .igt), (0x31, .jmpnz), (0x32, .dup),
     (0x33, .swap), (0x34, .not), (0x35, .and), (0x36, .or), (0x37, .xor), (0x38, .shl),
     (0x39, .shr), (0x3A, .syscall), (0x3B, .newarray), (0x3C, .newstr), (0x3D, .iaload),
     (0x3E, .iastore), (0x3F, .baload), (0x40, .bastore)]

/-- **The operation with an opcode.** -/
def op? (f : Format) (opcode : UInt8) : Option Op :=
  (f.numbering.find? (·.1 == opcode)).map (·.2)

/-- **The opcode of an operation.** -/
def opcode? (f : Format) (o : Op) : Option UInt8 :=
  (f.numbering.find? (·.2 == o)).map (·.1)

end Format

end StackCompiler
