/-
**Instruction words.**

A word of 32 bits is read through its fields.  Every word has all the fields; which of them matter
depends on the operation.  The three ways to build a word keep as many bits of each argument as its
field is wide.
-/

import StackCompiler.Mips.Register

namespace StackCompiler

namespace Word

/-- A register number in its field of five bits. -/
def registerField (r : Register) : UInt32 := (r &&& 0x1F).toUInt32

/-- The word of a register operation with primary opcode zero. -/
def ofRegisters (rs rt rd : Register) (shamt funct : UInt32) : UInt32 :=
  registerField rs <<< 21 ||| registerField rt <<< 16 ||| registerField rd <<< 11 |||
    (shamt &&& 0x1F) <<< 6 ||| funct &&& 0x3F

/-- The word of an operation with a 16-bit immediate. -/
def ofImmediate (op : UInt32) (rs rt : Register) (imm : UInt16) : UInt32 :=
  (op &&& 0x3F) <<< 26 ||| registerField rs <<< 21 ||| registerField rt <<< 16 ||| imm.toUInt32

/-- A word with a target. -/
def ofJump (op address : UInt32) : UInt32 :=
  (op &&& 0x3F) <<< 26 ||| address >>> 2 &&& 0x03FFFFFF

/-- A half as a word with its sign. -/
def signExtend (h : UInt16) : UInt32 := h.toInt16.toInt32.toUInt32

/-- Where a branch at `pc` goes. -/
def branchTarget (pc : UInt32) (imm : UInt16) : UInt32 := pc + 4 + signExtend imm * 4

/-- Where a jump at `pc` goes. -/
def jumpTarget (pc index : UInt32) : UInt32 :=
  let region : UInt32 := (pc + 4) &&& 0xF0000000
  region ||| index <<< 2

end Word

/-- The fields of an instruction word. -/
structure Fields where
  /-- Primary opcode, 6 bits. -/
  op : UInt32
  rs : Register
  /-- Second source register, or the destination of an immediate operation. -/
  rt : Register
  rd : Register
  /-- Shift amount, 5 bits. -/
  shamt : UInt32
  /-- Function code, 6 bits. -/
  funct : UInt32
  imm : UInt16
  /-- Jump index, 26 bits. -/
  index : UInt32
deriving DecidableEq, Repr

/-- **The fields of a word.** -/
def Fields.ofWord (w : UInt32) : Fields where
  op := w >>> 26
  rs := (w >>> 21 &&& 0x1F).toUInt8
  rt := (w >>> 16 &&& 0x1F).toUInt8
  rd := (w >>> 11 &&& 0x1F).toUInt8
  shamt := w >>> 6 &&& 0x1F
  funct := w &&& 0x3F
  imm := w.toUInt16
  index := w &&& 0x03FFFFFF

end StackCompiler
