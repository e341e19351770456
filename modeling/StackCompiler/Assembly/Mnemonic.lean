/-
**Mnemonics.**

A mnemonic names an operation of the machine or one of eight abbreviations that stand for one or
two operations.
-/

import StackCompiler.Mips.Operation

namespace StackCompiler.Assembly

/-- What a line can ask for: an operation or an abbreviation. -/
inductive Mnemonic where
  | operation (o : Operation)
  | move
  | li
  | la
  | seq
  | nop
  /-- Branches if a register is zero. -/
  | beqz
  /-- Branches if a register is not zero. -/
  | bnez
  /-- Branches always. -/
  | b
deriving DecidableEq, Repr

/-- The layouts of instruction words. -/
inductive Layout where
  | register
  | immediate
  | jump
  | abbreviation
deriving DecidableEq, Repr

/-- The letter of a layout, or a word for abbreviations. -/
def Layout.name : Layout → String
  | register => "R"
  | immediate => "I"
  | jump => "J"
  | abbreviation => "pseudo"

namespace Mnemonic

/-- The mnemonics with their names. -/
def named : List (String × Mnemonic) :=
  [("add", operation .add), ("addu", operation .addu), ("sub", operation .sub),
   ("subu", operation .subu), ("and", operation .and), ("or", operation .or),
   ("xor", operation .xor), ("nor", operation .nor), ("slt", operation .slt),
   ("sltu", operation .sltu), ("sllv", operation .sllv), ("srlv", operation .srlv),
   ("srav", operation .srav), ("sll", operation .sll), ("srl", operation .srl),
   ("sra", operation .sra), ("mult", operation .mult), ("multu", operation .multu),
   ("div", operation .div), ("divu", operation .divu), ("mfhi", operation .mfhi),
   ("mflo", operation .mflo), ("jr", operation .jr), ("jalr", operation .jalr),
   ("syscall", operation .syscall), ("addi", operation .addi), ("addiu", operation .addiu),
   ("slti", operation .slti), ("sltiu", operation .sltiu), ("andi", operation .andi),
   ("ori", operation .ori), ("xori", operation .xori), ("lui", operation .lui),
   ("lb", operation .lb), ("lh", operation .lh), ("lw", operation .lw),
   ("lbu", operation .lbu), ("lhu", operation .lhu), ("sb", operation .sb),
   ("sh", operation .sh), ("sw", operation .sw), ("beq", operation .beq),
   ("bne", operation .bne), ("blez", operation .blez), ("bgtz", operation .bgtz),
   ("j", operation .j), ("jal", operation .jal), ("move", move), ("li", li), ("la", la),
   ("seq", seq), ("nop", nop), ("beqz", beqz), ("bnez", bnez), ("b", b)]

/-- The mnemonics with their names as texts. -/
def table : List (Text × Mnemonic) := named.map fun (name, m) => (text name, m)

/-- **The mnemonic with a name.** -/
def ofName? (name : Text) : Option Mnemonic := (table.find? (·.1 == name)).map (·.2)

/-- The name of a mnemonic. -/
def name (m : Mnemonic) : String := ((named.find? (·.2 == m)).map (·.1)).getD ""

/-- The layout of the words that a mnemonic stands for. -/
def layout : Mnemonic → Layout
  | operation .j | operation .jal => .jump
  | operation o =>
    match o.code with
    | .function _ => .register
    | .primary _ => .immediate
  | _ => .abbreviation

end Mnemonic

end StackCompiler.Assembly
