/-
**Lowering to MIPS.**

The operand stack of a frame is kept in memory: `$s0` holds its base and `$s1` the offset of the
next free cell.  Every instruction becomes a few lines under a label of its own.  A call builds the
frame of the callee below the stack pointer and copies the arguments into its local slots; a return
takes the frame down and hands over at most one cell.  A return from the entry function ends the
program, and so does running off its end.
-/

import StackCompiler.Lowering.Draft
import StackCompiler.Lowering.Frame
import StackCompiler.Lowering.Functions
import StackCompiler.Mips.Service
import StackCompiler.Text.Letter

namespace StackCompiler.Lowering.Mips

open Listing Drafting
open Register (zero v0 v1 a0 s0 s1 sp fp ra)

/-- What the lines of an instruction depend on. -/
structure Context where
  frame : Frame
  functions : Functions

/-! ### The operand stack -/

/-- Pushes a register. -/
def push (r : Register) : Drafting Unit := do
  let a ← scratch
  emit [.registers3 .addu a s0 s1, .access .sw r 0 a, .immediate .addiu s1 s1 4]

/-- The lines that pop into a register. -/
def popLines (r : Register) : List Line :=
  [.immediate .addiu s1 s1 (-4), .registers3 .addu r s0 s1, .access .lw r 0 r]

/-- Pops into a scratch register. -/
def pop : Drafting Register := do
  let r ← scratch
  emit (popLines r)
  return r

/-! ### Operations -/

/-- An operation on the two topmost cells. -/
def binary (o : Operation) : Drafting Unit := do
  let b ← pop
  let a ← pop
  emit [.registers3 o a a b]
  push a

/-- Whether the two topmost cells are equal. -/
def equal : Drafting Unit := do
  let b ← pop
  let a ← pop
  emit [.code .seq [.register a, .register a, .register b]]
  push a

/-- Whether the cell below the topmost is greater. -/
def greater : Drafting Unit := do
  let b ← pop
  let a ← pop
  emit [.registers3 .slt a b a]
  push a

/-- An operation whose result is in the low half. -/
def product (o : Operation) : Drafting Unit := do
  let b ← pop
  let a ← pop
  emit [.registers2 o a b, .code (.operation .mflo) [.register a]]
  push a

/-- Whether the topmost cell is zero. -/
def negate : Drafting Unit := do
  let r ← pop
  emit [.immediate .sltiu r r 1]
  push r

/-- Pushes the topmost cell again. -/
def duplicate : Drafting Unit := do
  let a ← scratch
  let v ← scratch
  emit [.registers3 .addu a s0 s1, .access .lw v (-4) a, .access .sw v 0 a,
    .immediate .addiu s1 s1 4]

/-- Exchanges the two topmost cells. -/
def exchange : Drafting Unit := do
  let a ← scratch
  let x ← scratch
  let y ← scratch
  emit [.registers3 .addu a s0 s1, .access .lw x (-4) a, .access .lw y (-8) a,
    .access .sw x (-8) a, .access .sw y (-4) a]

/-- The number of a local slot, if the frame has it. -/
def slot (f : Frame) (ins : Instruction) : Drafting Int64 :=
  let n := Int64.ofNat (ins.half 0)
  if f.localSlots ≤ n then throw (.slotRange (ins.half 0) f.localSlots) else return n

/-- Pushes a local slot. -/
def loadLocal (f : Frame) (ins : Instruction) : Drafting Unit := do
  let n ← slot f ins
  let r ← scratch
  emit [.access .lw r (Frame.localOffset n).toInt fp]
  push r

/-- Pops into a local slot. -/
def storeLocal (f : Frame) (ins : Instruction) : Drafting Unit := do
  let n ← slot f ins
  let r ← pop
  emit [.access .sw r (Frame.localOffset n).toInt fp]

/-- The label that a jump goes to, if an instruction starts there. -/
def targetLabel (fs : Functions) (ins : Instruction) : Drafting Label :=
  if fs.startsAt ins.target then return .start ins.target.toNat
  else throw (.badTarget ins.target)

/-- A jump to another instruction. -/
def jump (fs : Functions) (ins : Instruction) : Drafting Unit := do
  let l ← targetLabel fs ins
  emit [.jump l]

/-- A jump that depends on a popped cell. -/
def jumpOn (o : Operation) (fs : Functions) (ins : Instruction) : Drafting Unit := do
  let l ← targetLabel fs ins
  let r ← pop
  emit [.branch o r zero l]

/-- Pops a number and prints it on a line. -/
def print : Drafting Unit :=
  emit (popLines a0 ++
    [.loadNumber v0 Service.printNumber.number, .serve, .loadNumber a0 10,
     .loadNumber v0 Service.printCharacter.number, .serve])

/-- Asks for a service: the arguments are popped into `$a0` to `$a3`, and the result is pushed. -/
def service (ins : Instruction) : Drafting Unit := do
  let count := ins.half 1
  if 4 < count then throw (.serviceRegisters count)
  emit ((List.range count).reverse.flatMap fun k => popLines (a0 + k.toUInt8))
  emit [.loadNumber v0 (ins.half 0), .serve]
  push v0

/-- Allocates as many bytes as a cell says, after `scale`. -/
def allocate (scale : List Line) : Drafting Unit := do
  emit (popLines a0 ++ scale ++ [.loadNumber v0 Service.extendHeap.number, .serve])
  push v0

/-- Loads an element; `scale` turns an index into an offset. -/
def loadElement (o : Operation) (scale : Register → List Line) : Drafting Unit := do
  let index ← pop
  let base ← pop
  emit (scale index ++ [.registers3 .addu base base index, .access o base 0 base])
  push base

/-- Stores an element; `scale` turns an index into an offset. -/
def storeElement (o : Operation) (scale : Register → List Line) : Drafting Unit := do
  let value ← pop
  let index ← pop
  let base ← pop
  emit (scale index ++ [.registers3 .addu base base index, .access o value 0 base])

/-- Scales an index to words. -/
def byFour (r : Register) : List Line := [.immediate .sll r r 2]

/-- Leaves an index of bytes as it is. -/
def byOne (_ : Register) : List Line := []

/-! ### Calls and returns -/

/-- The lines that copy argument `k` through a register into the frame of the callee. -/
def copyArgument (through source target : Register) (k : Nat) : List Line :=
  [.access .lw through (Frame.cellSize * Int64.ofNat k).toInt source,
   .access .sw through (Frame.localOffset (Int64.ofNat k)).toInt target]

/-- Copies the arguments, if there are any. -/
def copyArguments (through target : Register) (count : Nat) : Drafting Unit := do
  if count = 0 then return
  let source ← scratch
  emit [.registers3 .addu source s0 s1]
  emit ((List.range count).flatMap (copyArgument through source target))

/-- The lines that set up the pointers of a new frame. -/
def enterFrame (f : Frame) : List Line :=
  [.immediate .addiu s0 fp f.base.toInt, .move s1 zero]

/-- A call of a function. -/
def call (f : Frame) (fs : Functions) (offset : Nat) (ins : Instruction) : Drafting Unit := do
  let l ← targetLabel fs ins
  let count := ins.half 1
  if f.localSlots < Int64.ofNat count then throw (.argumentRange count f.localSlots)
  let new ← scratch
  let through ← scratch
  emit [.immediate .addiu new sp (-f.size).toInt,
    .access .sw fp Frame.savedPointer.toInt new,
    .access .sw s0 Frame.savedBase.toInt new]
  if count ≠ 0 then
    emit [.immediate .addiu s1 s1 (-Frame.cellSize * Int64.ofNat count).toInt]
  emit [.access .sw s1 Frame.savedOffset.toInt new,
    .code .la [.register through, .label (.returned offset)],
    .access .sw through Frame.returnAddress.toInt new]
  copyArguments through new count
  emit ([.move sp new, .move fp new] ++ enterFrame f ++ [.jump l, .label (.returned offset)])

/-- The lines that end the program with the top cell, or zero if there is none. -/
def exitLines (status : Label) : List Line :=
  [.move a0 zero, .branch .beq s1 zero status] ++ popLines a0 ++
    [.label status, .loadNumber v0 Service.exitStatus.number, .serve]

/-- Returns from a function other than the entry function. -/
def returnToCaller (f : Frame) (offset : Nat) : Drafting Unit := do
  emit ([.move v1 zero, .branch .beq s1 zero (.restore offset)] ++ popLines v0 ++
    [.loadNumber v1 1, .label (.restore offset),
     .access .lw ra Frame.returnAddress.toInt fp,
     .access .lw s1 Frame.savedOffset.toInt fp,
     .access .lw s0 Frame.savedBase.toInt fp,
     .immediate .addiu sp fp f.size.toInt,
     .access .lw fp Frame.savedPointer.toInt fp,
     .branch .beq v1 zero (.done offset)])
  push v0
  emit [.label (.done offset), .code (.operation .jr) [.register ra]]

/-! ### Instructions -/

/-- The lines of an instruction. -/
def operation (c : Context) (offset : Nat) (ins : Instruction) : Drafting Unit :=
  match ins.op with
  | .iconst => do
    let r ← scratch
    emit [.loadNumber r (ins.operand 0).toInt]
    push r
  | .iadd => binary .addu
  | .isub => binary .subu
  | .and => binary .and
  | .or => binary .or
  | .xor => binary .xor
  | .ilt => binary .slt
  | .ieq => equal
  | .igt => greater
  | .imul => product .mult
  | .idiv => product .div
  | .shl => binary .sllv
  | .shr => binary .srav
  | .not => negate
  | .dup => duplicate
  | .swap => exchange
  | .pop => emit [.immediate .addiu s1 s1 (-4)]
  | .load => loadLocal c.frame ins
  | .store => storeLocal c.frame ins
  | .jmp => jump c.functions ins
  | .jmpz => jumpOn .beq c.functions ins
  | .jmpnz => jumpOn .bne c.functions ins
  | .invoke => call c.frame c.functions offset ins
  | .ret =>
    if c.functions.inEntry offset then emit (exitLines (.status offset))
    else returnToCaller c.frame offset
  | .print => print
  | .syscall => service ins
  | .newarray => allocate (byFour a0)
  | .newstr => allocate []
  | .iaload => loadElement .lw byFour
  | .baload => loadElement .lbu byOne
  | .iastore => storeElement .sw byFour
  | .bastore => storeElement .sb byOne
  | .entry | .global | .unknown _ => return

/-- **The lines of an instruction**, under the label of its offset. -/
def draft (c : Context) (offset : Nat) (ins : Instruction) : Except Cause (List Line) :=
  (operation c offset ins).lines.map fun ls => .place offset ins :: ls

/-! ### Names -/

/-- Whether a name could be taken for a label that lowering makes. -/
def isReserved (name : Text) : Bool :=
  [Label.main, Label.exit, Label.exitStatus].any (·.render == name) ||
    match name with
    | 76 :: d :: _ => 48 ≤ d && d ≤ 57
    | _ => false

/-- What becomes of the name of a visibility marker, after other names. -/
def declare (names : List Text) (name : Text) : List Line × Option Matter :=
  if !Text.isIdentifier name || isReserved name then
    ([.comment (text "global " ++ Text.quote name ++ text " (not a usable label)")],
      some (.unusableName name))
  else if names.contains name then
    ([.comment (text "global " ++ Text.quote name ++ text " (duplicate)")],
      some (.repeatedName name))
  else ([.visible (.named name), .label (.named name)], none)

/-! ### Programs -/

/-- The listing of a program. -/
structure Output where
  lines : List Line
  frame : Frame
  remarks : List Remark
deriving DecidableEq, Repr

/-- A listing while it is written. -/
structure Progress where
  lines : Array Line := #[]
  remarks : Array Remark := #[]
  names : List Text := []

/-- Adds the lines of an instruction.  A marker becomes a comment or a label.  An
instruction that nobody knows has no bytes and gets no label of its own. -/
def Progress.add (c : Context) (p : Progress) (ins : Instruction) (offset : Nat) :
    Except Failure Progress :=
  match ins.op with
  | .entry => .ok { p with lines := p.lines.push (.comment (text "entry: " ++ ins.symbol)) }
  | .global =>
    let (ls, matter) := declare p.names ins.symbol
    .ok { lines := p.lines ++ ls
          remarks := p.remarks ++ (matter.map fun m => Remark.mk offset m).toList
          names := if matter.isNone then ins.symbol :: p.names else p.names }
  | .unknown _ =>
    .ok { p with
      lines := p.lines.push (.nothingFor ins)
      remarks := p.remarks.push ⟨offset, .becameNop ins⟩ }
  | _ =>
    match draft c offset ins with
    | .ok ls => .ok { p with lines := p.lines ++ ls }
    | .error cause => .error (.instruction offset ins cause)

/-- The label of the entry function. -/
def entryLabel (fs : Functions) : Label :=
  if fs.startsAt fs.entry then .start fs.entry else .exit

/-- The lines before the first instruction. -/
def prologue (c : Context) (stackTop : UInt32) : List Line :=
  [.textSection, .visible .main, .label .main, .code .la [.register sp, .address stackTop],
   .immediate .addiu sp sp (-c.frame.size).toInt, .move fp sp] ++
    enterFrame c.frame ++ [.jump (entryLabel c.functions)]

/-- The lines behind the last instruction, which are reached by running off the end. -/
def epilogue : List Line := .label .exit :: exitLines .exitStatus

/-- Whether a list can be left by running off its end. -/
def fallsThrough (list : List Instruction) : Bool :=
  match list.reverse.find? fun ins => !ins.op.isMarker with
  | some ins => ins.op != .ret && ins.op != .jmp
  | none => false

/-- Whether the entry function has a return. -/
def entryReturns (fs : Functions) (located : List (Instruction × Nat)) : Bool :=
  located.any fun (ins, offset) => ins.op = .ret && fs.inEntry offset

/-- **The listing of a program.** -/
def lower (p : Program) (s : Settings) : Except Failure Output := do
  let frame := Frame.ofProgram p s
  frame.check
  let functions ← Functions.ofList p.instructions s.features.implicitEntry
  let c : Context := ⟨frame, functions⟩
  let located := p.instructions.zip (Instruction.offsets p.instructions)
  let written ← located.foldlM (fun w (ins, offset) => Progress.add c w ins offset) {}
  let needsExit := !entryReturns functions located || entryLabel functions == .exit ||
    fallsThrough p.instructions
  return { lines := prologue c s.stackTop ++ written.lines.toList ++
             (if needsExit then epilogue else [])
           frame
           remarks := written.remarks.toList }

end StackCompiler.Lowering.Mips
