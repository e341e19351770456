/-
**Operations of the stack machine.**

There are thirty-two operations and two markers.  A marker names a place in a program and has no
bytes of its own.  A number outside their range stands for an operation that nobody knows; such an
operation has no bytes either.
-/

import StackCompiler.Text.Numeral

namespace StackCompiler

/-- The operations of the stack machine. -/
inductive Op where
  /-- Pushes its operand. -/
  | iconst
  | iadd
  /-- Calls the function at its first operand with as many cells as its second says. -/
  | invoke
  | ret
  /-- Pops a cell and prints it as a decimal line. -/
  | print
  | pop
  | isub
  | imul
  | ilt
  /-- Goes to the offset that its operand names. -/
  | jmp
  /-- Pops a cell and goes to the offset if it is zero. -/
  | jmpz
  /-- Pushes the local with the number of its operand. -/
  | load
  | store
  | idiv
  | ieq
  | igt
  /-- Pops a cell and goes to the offset if it is not zero. -/
  | jmpnz
  | dup
  | swap
  | not
  | and
  | or
  | xor
  | shl
  | shr
  /-- Asks for the service of its first operand with as many cells as its second says. -/
  | syscall
  | newarray
  | newstr
  | iaload
  | iastore
  | baload
  | bastore
  /-- Marks where the program starts. -/
  | entry
  /-- Marks a name that is visible from outside. -/
  | global
  /-- An operation that nobody knows. -/
  | unknown (code : Int)
deriving DecidableEq, Repr

namespace Op

/-- How the operands of an operation are stored behind its opcode. -/
inductive Layout where
  | none
  /-- One word with a sign. -/
  | word
  /-- One half word without a sign. -/
  | half
  /-- Two half words without a sign. -/
  | halfPair
deriving DecidableEq, Repr

/-- The number of operand bytes. -/
def Layout.size : Layout → Nat
  | none => 0
  | word => 4
  | half => 2
  | halfPair => 4

/-- The number of operands of a layout. -/
def Layout.operands : Layout → Nat
  | none => 0
  | word => 1
  | half => 1
  | halfPair => 2

/-- The number of a layout. -/
def Layout.number : Layout → Nat
  | none => 0
  | word => 1
  | half => 2
  | halfPair => 3

/-- The known operations and markers with their names, in the order of their numbers. -/
def known : List (Op × String) :=
  [(iconst, "ICONST"), (iadd, "IADD"), (invoke, "INVOKE"), (ret, "RET"), (print, "PRINT"),
   (pop, "POP"), (isub, "ISUB"), (imul, "IMUL"), (ilt, "ILT"), (jmp, "JMP"), (jmpz, "JMPZ"),
   (load, "LOAD"), (store, "STORE"), (idiv, "IDIV"), (ieq, "IEQ"), (igt, "IGT"),
   (jmpnz, "JMPNZ"), (dup, "DUP"), (swap, "SWAP"), (not, "NOT"), (and, "AND"), (or, "OR"),
   (xor, "XOR"), (shl, "SHL"), (shr, "SHR"), (syscall, "SYSCALL"), (newarray, "NEWARRAY"),
   (newstr, "NEWSTR"), (iaload, "IALOAD"), (iastore, "IASTORE"), (baload, "BALOAD"),
   (bastore, "BASTORE"), (entry, "ENTRY"), (global, "GLOBAL")]

/-- The operation with a number. -/
def ofCode (code : Int) : Op :=
  match code with
  | .ofNat n => (known[n]?.map (·.1)).getD (unknown code)
  | .negSucc _ => unknown code

/-- The instruction with a name. -/
def ofName? (name : String) : Option Op := (known.find? (·.2 == name)).map (·.1)

/-- Whether an instruction has a name. -/
def isKnown : Op → Bool
  | unknown _ => false
  | _ => true

/-- The name of an instruction. -/
def name (o : Op) : Text :=
  match o with
  | unknown code => text "Op(" ++ Numeral.signed code ++ text ")"
  | _ => text (((known.find? (·.1 == o)).map (·.2)).getD "")

/-- Whether an instruction only marks a place. -/
def isMarker : Op → Bool
  | entry | global => true
  | _ => false

/-- The operations whose first operand is an offset. -/
def isJump : Op → Bool
  | jmp | jmpz | jmpnz | invoke => true
  | _ => false

/-- **How the operands of an operation are stored.** -/
def layout : Op → Layout
  | iconst | jmp | jmpz | jmpnz => .word
  | load | store => .half
  | invoke | syscall => .halfPair
  | _ => .none

/-- **The number of bytes of an operation with its operands.** -/
def width : Op → Nat
  | entry | global | unknown _ => 0
  | o => 1 + o.layout.size

end Op

end StackCompiler
