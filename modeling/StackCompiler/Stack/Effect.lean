/-
**Stack effects.**

How many cells an instruction takes off the operand stack and how many it puts there.  A call is
taken to leave one result.
-/

import StackCompiler.Stack.Instruction

namespace StackCompiler

/-- The cells that an instruction takes off the operand stack and puts there. -/
structure Effect where
  pops : Nat
  pushes : Nat
deriving DecidableEq, Repr

/-- **The stack effect of an instruction.** -/
def Instruction.effect (ins : Instruction) : Effect :=
  match ins.op with
  | .iconst | .load => ⟨0, 1⟩
  | .iadd | .isub | .imul | .idiv | .ilt | .igt | .ieq | .and | .or | .xor | .shl | .shr
  | .iaload | .baload => ⟨2, 1⟩
  | .not | .newarray | .newstr => ⟨1, 1⟩
  | .dup => ⟨1, 2⟩
  | .swap => ⟨2, 2⟩
  | .ret | .print | .pop | .store | .jmpz | .jmpnz => ⟨1, 0⟩
  | .iastore | .bastore => ⟨3, 0⟩
  | .invoke | .syscall => ⟨ins.half 1, 1⟩
  | .jmp | .entry | .global | .unknown _ => ⟨0, 0⟩

/-- The depth behind an instruction; it never falls below zero before the pushes. -/
def Effect.apply (e : Effect) (depth : Nat) : Nat := depth - e.pops + e.pushes

end StackCompiler
