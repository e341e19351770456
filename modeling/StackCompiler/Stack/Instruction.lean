/-
**Instructions of the stack machine.**

An instruction is an operation with its operands; a marker carries the name of a symbol.  The
offset of an instruction in a list is the number of bytes before it, so a marker has the offset of
the instruction behind it.
-/

import StackCompiler.Stack.Op
import StackCompiler.Text.Quoted

namespace StackCompiler

/-- An instruction of the stack machine. -/
structure Instruction where
  op : Op
  /-- The operands, in the order in which they are stored. -/
  operands : List Int32 := []
  symbol : Text := []
deriving DecidableEq, Repr

namespace Instruction

/-- An operand, or zero where there is none. -/
def operand (ins : Instruction) : Int → Int32
  | .ofNat i => ins.operands.getD i 0
  | .negSucc _ => 0

/-- The last 16 bits of an operand, as a number without a sign. -/
def half (ins : Instruction) (i : Int) : Nat := (ins.operand i).toUInt32.toUInt16.toNat

/-- The number of bytes of an instruction. -/
def width (ins : Instruction) : Nat := ins.op.width

/-- The offsets of the instructions of a list that starts at `start`. -/
def offsetsFrom : Nat → List Instruction → List Nat
  | _, [] => []
  | start, ins :: rest => start :: offsetsFrom (start + ins.width) rest

/-- **The offsets of the instructions of a list.** -/
def offsets (list : List Instruction) : List Nat := offsetsFrom 0 list

/-- The number of bytes of a list. -/
def totalSize : List Instruction → Nat
  | [] => 0
  | ins :: rest => ins.width + totalSize rest

/-- The place that a jump goes to: an offset with a sign, or without one for a call. -/
def target (ins : Instruction) : Int :=
  if ins.op = .invoke then ins.half 0 else (ins.operand 0).toInt

/-- An instruction as text: operation, operands, and the quoted symbol of a marker. -/
def render (ins : Instruction) : Text :=
  ins.op.name ++ ins.operands.flatMap (fun v => 32 :: Numeral.signed v.toInt) ++
    (if ins.symbol.isEmpty then [] else 32 :: Text.quote ins.symbol)

end Instruction

/-- A list of instructions, ready for lowering. -/
structure Program where
  instructions : List Instruction
  /-- The operand stack depth to reserve in every frame; zero if it is not known. -/
  maxDepth : Int64 := 0
deriving DecidableEq, Repr

end StackCompiler
