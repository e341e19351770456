/-
**Code sections.**

A code section is a header of eight bytes, which holds the magic of its format and the number of
its instructions, followed by exactly that many instructions: an opcode, then its operands, least
significant byte first.
-/

import StackCompiler.Bytecode.Format
import StackCompiler.Bytes.LittleEndian
import StackCompiler.Stack.Instruction

namespace StackCompiler.Code

open Numeral (decimal)

/-- The number of bytes of a header. -/
def headerSize : Nat := 8

/-! ### What can be wrong -/

/-- Why a code section can not be decoded.  Offsets count from the start of the header. -/
inductive DecodeError where
  | shortHeader (size : Nat)
  | badMagic (magic : Text)
  /-- The section ends before instruction `index` of `count`. -/
  | missing (offset index count : Nat)
  | unknownOpcode (offset : Nat) (opcode : UInt8)
  /-- The section ends inside the operands of an instruction. -/
  | shortOperands (offset : Nat) (opcode : UInt8) (op : Op) (needed left : Nat)
  /-- Bytes follow the last instruction. -/
  | trailing (offset left : Nat)
deriving DecidableEq, Repr

namespace DecodeError

/-- Where decoding fails. -/
def offset : DecodeError → Nat
  | shortHeader size => size
  | badMagic _ => 0
  | missing offset _ _ => offset
  | unknownOpcode offset _ => offset
  | shortOperands offset _ _ _ _ => offset
  | trailing offset _ => offset

/-- The opcode at which decoding failed, zero if it failed elsewhere. -/
def opcode : DecodeError → UInt8
  | unknownOpcode _ opcode => opcode
  | shortOperands _ opcode _ _ _ => opcode
  | _ => 0

/-- The text of a failure to decode. -/
def message : DecodeError → Text
  | shortHeader size =>
    text "truncated instruction at offset " ++ decimal size ++ text ": code header needs 8 bytes"
  | badMagic magic =>
    text "unknown format magic at offset 0: " ++ Text.quote magic ++
      text ", expected \"KATS\" or \"OATS\""
  | missing offset index count =>
    text "truncated instruction at offset " ++ decimal offset ++ text ": instruction " ++
      decimal index ++ text " of " ++ decimal count ++ text " missing"
  | unknownOpcode offset opcode =>
    text "unrecognized opcode 0x" ++ Numeral.upper (Numeral.hexPadded 2 opcode.toNat) ++
      text " at offset " ++ decimal offset
  | shortOperands offset _ op needed left =>
    text "truncated instruction at offset " ++ decimal offset ++ text ": " ++ op.name ++
      text " needs " ++ decimal needed ++ text " operand bytes, " ++ decimal left ++ text " left"
  | trailing offset left =>
    text "trailing bytes after last instruction at offset " ++ decimal offset ++ text ": " ++
      decimal left ++ text " bytes"

end DecodeError

/-- Why a list of instructions can not be encoded. -/
inductive EncodeError where
  | badFormat
  /-- The operation of instruction `index` has no opcode. -/
  | noOpcode (index : Nat) (op : Op) (format : Format)
  /-- Instruction `index` has the wrong number of operands. -/
  | operandCount (index : Nat) (op : Op) (found expected : Nat)
deriving DecidableEq, Repr

/-- The text of a failure to encode. -/
def EncodeError.message : EncodeError → Text
  | badFormat => text "unknown format magic: unknown"
  | noOpcode index op format =>
    text "instruction not encodable: instruction " ++ decimal index ++ text " (" ++ op.name ++
      text ") has no " ++ text format.name ++ text " opcode"
  | operandCount index op found expected =>
    text "instruction not encodable: instruction " ++ decimal index ++ text " (" ++ op.name ++
      text ") has " ++ decimal found ++ text " operands, want " ++ decimal expected

/-! ### Decoding -/

/-- The header of a code section. -/
structure Header where
  format : Format
  count : UInt32
deriving DecidableEq, Repr

/-- The header of a code section. -/
def Header.read : List UInt8 → Except DecodeError Header
  | m₀ :: m₁ :: m₂ :: m₃ :: c₀ :: c₁ :: c₂ :: c₃ :: _ =>
    match Format.ofMagic? [m₀, m₁, m₂, m₃] with
    | none => .error (.badMagic [m₀, m₁, m₂, m₃])
    | some format => .ok ⟨format, LittleEndian.word c₀ c₁ c₂ c₃⟩
  | code => .error (.shortHeader code.length)

/-- An operand of two bytes, which has no sign. -/
def halfOperand (b₀ b₁ : UInt8) : Int32 := (LittleEndian.half b₀ b₁).toUInt32.toInt32

/-- Reads operands of a layout, and leaves the bytes behind them. -/
def readOperands : Op.Layout → List UInt8 → Option (List Int32 × List UInt8)
  | .none, rest => some ([], rest)
  | .word, b₀ :: b₁ :: b₂ :: b₃ :: rest => some ([(LittleEndian.word b₀ b₁ b₂ b₃).toInt32], rest)
  | .half, b₀ :: b₁ :: rest => some ([halfOperand b₀ b₁], rest)
  | .halfPair, b₀ :: b₁ :: b₂ :: b₃ :: rest =>
    some ([halfOperand b₀ b₁, halfOperand b₂ b₃], rest)
  | _, _ => none

/-- Reads the instruction that starts with `opcode` at `offset`, and leaves the bytes behind it. -/
def decodeOne (f : Format) (offset : Nat) (opcode : UInt8) (rest : List UInt8) :
    Except DecodeError (Instruction × List UInt8) :=
  match f.op? opcode with
  | none => .error (.unknownOpcode offset opcode)
  | some op =>
    match readOperands op.layout rest with
    | none => .error (.shortOperands offset opcode op op.layout.size rest.length)
    | some (operands, rest) => .ok ({ op, operands }, rest)

/-- Reads `left` instructions behind `index` others, which are kept in reverse. -/
def decodeFrom (f : Format) (count : Nat) :
    Nat → Nat → Nat → List UInt8 → List Instruction → Except DecodeError (List Instruction)
  | 0, _, _, [], seen => .ok seen.reverse
  | 0, _, offset, rest@(_ :: _), _ => .error (.trailing offset rest.length)
  | _ + 1, index, offset, [], _ => .error (.missing offset index count)
  | left + 1, index, offset, opcode :: rest, seen => do
    let (ins, rest) ← decodeOne f offset opcode rest
    decodeFrom f count left (index + 1) (offset + ins.width) rest (ins :: seen)

/-- **The instructions of a code section**, with its format. -/
def decode (code : List UInt8) : Except DecodeError (Format × List Instruction) := do
  let header ← Header.read code
  let list ← decodeFrom header.format header.count.toNat header.count.toNat 0 headerSize
    (code.drop headerSize) []
  return (header.format, list)

/-! ### Encoding -/

/-- The bytes of operands. -/
def writeOperands (layout : Op.Layout) (operands : List Int32) : List UInt8 :=
  match layout with
  | .none => []
  | .word => operands.flatMap fun v => LittleEndian.bytes32 v.toUInt32
  | .half | .halfPair => operands.flatMap fun v => LittleEndian.bytes16 v.toUInt32.toUInt16

/-- The bytes of instruction `index`; a marker has none. -/
def encodeOne (f : Format) (index : Nat) (ins : Instruction) : Except EncodeError (List UInt8) :=
  if ins.op.isMarker then .ok []
  else match f.opcode? ins.op with
    | none => .error (.noOpcode index ins.op f)
    | some opcode =>
      let expected := ins.op.layout.operands
      if ins.operands.length = expected then
        .ok (opcode :: writeOperands ins.op.layout ins.operands)
      else .error (.operandCount index ins.op ins.operands.length expected)

/-- The number of instructions that have bytes of their own. -/
def count (list : List Instruction) : Nat := list.countP fun ins => !ins.op.isMarker

/-- **The code section of a list of instructions.** -/
def encode (f : Format) (list : List Instruction) : Except EncodeError (List UInt8) := do
  let body ← list.zipIdx.mapM fun (ins, index) => encodeOne f index ins
  return f.magic ++ LittleEndian.bytes32 (count list).toUInt32 ++ body.flatten

/-- Encodes in the format with a number. -/
def encodeNumbered (format : Int) (list : List Instruction) : Except EncodeError (List UInt8) :=
  match Format.ofNumber? format with
  | none => .error .badFormat
  | some f => encode f list

end StackCompiler.Code
