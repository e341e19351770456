/-
**Frames.**

All functions of a program use frames of one shape: four saved words, the local slots, and the
operand stack.  A frame is addressed from its pointer by displacements of 16 bits, which bounds its
size.  Sizes are 64-bit numbers and arithmetic on them wraps around.
-/

import StackCompiler.Lowering.Failure
import StackCompiler.Settings.Basic
import StackCompiler.Stack.Depth

namespace StackCompiler.Lowering

/-- The shape of a frame. -/
structure Frame where
  localSlots : Int64
  base : Int64
  depth : Int64
  size : Int64
deriving DecidableEq, Repr

namespace Frame

/-- Where the frame pointer of the caller is saved. -/
def savedPointer : Int64 := 0
/-- Where the stack base of the caller is saved. -/
def savedBase : Int64 := 4
/-- Where the stack offset of the caller is saved. -/
def savedOffset : Int64 := 8

/-- Where the return address is kept. -/
def returnAddress : Int64 := 12

/-- Where the local slots start. -/
def locals : Int64 := 16

/-- The number of bytes of a cell. -/
def cellSize : Int64 := 4

/-- The largest displacement of an access. -/
def maxDisplacement : Int64 := 32767

/-- Where a local slot is. -/
def localOffset (n : Int64) : Int64 := locals + cellSize * n

/-- The next multiple of eight. -/
def alignEight (n : Int64) : Int64 := (n + 7) &&& ~~~7

/-- The depth to reserve: what the settings say, else what the program says, else what is found
out about the instructions. -/
def depthFor (p : Program) (s : Settings) : Int64 :=
  if s.stackDepth ≠ 0 then s.stackDepth
  else if p.maxDepth ≠ 0 then p.maxDepth
  else Int64.ofNat (Instruction.estimateDepth p.instructions)

/-- **The shape of the frames of a program.** -/
def ofProgram (p : Program) (s : Settings) : Frame :=
  let base := localOffset s.localSlots
  let depth := depthFor p s
  { localSlots := s.localSlots, base, depth, size := alignEight (base + cellSize * depth) }

/-- Whether all of a frame can be reached from its pointer. -/
def check (f : Frame) : Except Failure Unit :=
  if maxDisplacement < f.size then .error (.frameTooLarge f.size f.localSlots f.depth) else .ok ()

end Frame

end StackCompiler.Lowering
