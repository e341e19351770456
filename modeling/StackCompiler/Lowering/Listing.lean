/-
**Assembly listings.**

A listing is what lowering for MIPS produces: lines with labels, directives, comments and
instructions.  Lines are values; their text is what the assembler reads.
-/

import StackCompiler.Assembly.Mnemonic
import StackCompiler.Stack.Instruction

namespace StackCompiler.Listing

open Numeral (decimal signed)

/-- The labels of a listing. -/
inductive Label where
  /-- Where the machine starts. -/
  | main
  /-- Where a program ends that runs off its end. -/
  | exit
  /-- Where the status of such a program is ready. -/
  | exitStatus
  /-- Where the instruction at an offset starts. -/
  | start (offset : Nat)
  /-- Where a call at an offset comes back to. -/
  | returned (offset : Nat)
  /-- Where the status of a return from the entry function is ready. -/
  | status (offset : Nat)
  /-- Where a return restores the frame of the caller. -/
  | restore (offset : Nat)
  /-- Where a return is done. -/
  | done (offset : Nat)
  /-- A name of the program. -/
  | named (name : Text)
deriving DecidableEq, Repr

/-- The name of a label. -/
def Label.render : Label → Text
  | main => text "main"
  | exit => text "L_exit"
  | exitStatus => text "L_exit_status"
  | start offset => text "L" ++ decimal offset
  | returned offset => text "L" ++ decimal offset ++ text "_ret"
  | status offset => text "L" ++ decimal offset ++ text "_exit"
  | restore offset => text "L" ++ decimal offset ++ text "_restore"
  | done offset => text "L" ++ decimal offset ++ text "_done"
  | named name => name

/-- The operands of a line. -/
inductive Operand where
  | register (r : Register)
  | number (n : Int)
  /-- A number in hexadecimal. -/
  | address (a : UInt32)
  | memory (displacement : Int) (base : Register)
  | label (l : Label)
deriving DecidableEq, Repr

/-- An operand as text. -/
def Operand.render : Operand → Text
  | register r => r.name
  | number n => signed n
  | address a => text "0x" ++ Numeral.hex a.toNat
  | memory displacement base =>
    signed displacement ++ text "(" ++ base.name ++ text ")"
  | label l => l.render

/-- The lines of a listing. -/
inductive Line where
  /-- Instructions follow. -/
  | textSection
  | visible (l : Label)
  | label (l : Label)
  /-- The instruction at an offset starts here. -/
  | place (offset : Nat) (ins : Instruction)
  | comment (body : Text)
  | code (m : Assembly.Mnemonic) (operands : List Operand)
  | nothingFor (ins : Instruction)
deriving DecidableEq, Repr

namespace Line

/-- **The text of a line.** -/
def render : Line → Text
  | textSection => text "\t.text"
  | visible l => text "\t.globl " ++ l.render
  | label l => l.render ++ text ":"
  | place offset ins => (Label.start offset).render ++ text ":\t\t# " ++ ins.render
  | comment body => text "\t# " ++ body
  | code m operands =>
    text "\t" ++ text m.name ++
      (if operands.isEmpty then []
       else text " " ++ Text.join (text ", ") (operands.map Operand.render))
  | nothingFor ins => text "\tnop\t\t# unrecognized instruction " ++ ins.render

/-- An operation on three registers. -/
def registers3 (o : Operation) (d s t : Register) : Line :=
  code (.operation o) [.register d, .register s, .register t]

/-- An operation on two registers. -/
def registers2 (o : Operation) (s t : Register) : Line :=
  code (.operation o) [.register s, .register t]

/-- An operation on two registers and a number. -/
def immediate (o : Operation) (t s : Register) (n : Int) : Line :=
  code (.operation o) [.register t, .register s, .number n]

/-- An access to memory. -/
def access (o : Operation) (t : Register) (displacement : Int) (base : Register) : Line :=
  code (.operation o) [.register t, .memory displacement base]

/-- A branch on two registers. -/
def branch (o : Operation) (s t : Register) (l : Label) : Line :=
  code (.operation o) [.register s, .register t, .label l]

/-- A jump to a label. -/
def jump (l : Label) : Line := code (.operation .j) [.label l]

/-- Copies a register. -/
def move (d s : Register) : Line := code .move [.register d, .register s]

/-- Loads a number. -/
def loadNumber (d : Register) (n : Int) : Line := code .li [.register d, .number n]

/-- Asks for a service. -/
def serve : Line := code (.operation .syscall) []

end Line

end StackCompiler.Listing
