/-
**The state of the machine.**

The machine has 32 registers, of which register zero can not be changed by instructions, the two
halves of a product or quotient, a program counter, memory and a heap that grows upwards.  Its
instructions are fetched from the words it was given, not from memory, so a program can not change
itself.
-/

import StackCompiler.Machine.Memory
import StackCompiler.Mips.Word

namespace StackCompiler

/-- The values of the registers. -/
structure Registers where
  /-- The values, in the order of the register numbers. -/
  values : Vector UInt32 32 := Vector.replicate 32 0
deriving DecidableEq, Repr

namespace Registers

/-- The value of a register. -/
def get (rs : Registers) (r : Register) : UInt32 := rs.values[r.toNat]?.getD 0

/-- Replaces the value of a register, also of register zero. -/
def put (rs : Registers) (r : Register) (v : UInt32) : Registers :=
  ⟨rs.values.setIfInBounds r.toNat v⟩

/-- Replaces the value of a register; register zero stays as it is. -/
def set (rs : Registers) (r : Register) (v : UInt32) : Registers :=
  if r = Register.zero then rs else rs.put r v

end Registers

/-- The state of the machine. -/
structure Machine where
  text : Array UInt32
  regs : Registers := {}
  pc : UInt32 := 0
  /-- The upper half of a product, or a remainder. -/
  hi : UInt32 := 0
  /-- The lower half of a product, or a quotient. -/
  lo : UInt32 := 0
  memory : Memory
  heapEnd : UInt32
  halted : Bool := false
  exitCode : Int32 := 0
  /-- The number of words that were fetched, which has no bound here. -/
  steps : Nat := 0
  /-- Whether additions and subtractions fail when they overflow. -/
  trapOverflow : Bool := false
  output : Array UInt8 := #[]

namespace Machine

/-- Where the heap starts. -/
def heapBase : UInt32 := 0x10040000

/-- **The state in which a program starts.** -/
def ofWords (words : Array UInt32) : Machine where
  text := words
  memory := Memory.ofWords words
  heapEnd := heapBase

/-- The reasons for which a step fails. -/
inductive Stop where
  | stepLimit
  | unaligned
  | reservedOpcode (op : UInt32)
  | reservedFunction (funct : UInt32)
  | badService (number : UInt32)
  | pcOutOfRange
  | overflow
deriving DecidableEq, Repr

/-- The text of what stops a machine. -/
def Stop.message : Stop → Text
  | stepLimit => StackCompiler.text "step limit reached"
  | unaligned => StackCompiler.text "unaligned memory access"
  | reservedOpcode op =>
    StackCompiler.text "reserved instruction: opcode 0x" ++ Numeral.hexPadded 2 op.toNat
  | reservedFunction funct =>
    StackCompiler.text "reserved instruction: function 0x" ++ Numeral.hexPadded 2 funct.toNat
  | badService number => StackCompiler.text "unsupported syscall " ++ Numeral.decimal number.toNat
  | pcOutOfRange => StackCompiler.text "pc outside the text segment"
  | overflow => StackCompiler.text "integer overflow"

/-- A failure with the place where it happened. -/
structure Fault where
  pc : UInt32
  /-- Its word, zero if none was fetched. -/
  word : UInt32
  stop : Stop
deriving DecidableEq, Repr

/-- The text of a fault. -/
def Fault.message (f : Fault) : Text :=
  StackCompiler.text "pc 0x" ++ Numeral.hexPadded 8 f.pc.toNat ++ StackCompiler.text " (word " ++
    Numeral.hexPadded 8 f.word.toNat ++ StackCompiler.text "): " ++ f.stop.message

end Machine

end StackCompiler
