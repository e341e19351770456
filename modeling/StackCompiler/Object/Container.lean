/-
**Object containers.**

A container holds a code section, a data section and a symbol table behind a header of twenty
bytes: four bytes of magic, the sizes of the three sections, and a size of relocations that is
carried along and not used.  Bytes that start with the magic of a bytecode format are taken for a
code section without a container.  Both forms may also be stored as hex text.
-/

import StackCompiler.Bytecode.Format
import StackCompiler.Object.HexText
import StackCompiler.Object.SymbolTable

namespace StackCompiler

/-- The four bytes that a container starts with. -/
structure Magic where
  b₀ : UInt8
  b₁ : UInt8
  b₂ : UInt8
  b₃ : UInt8
deriving DecidableEq, Repr

namespace Magic

/-- The magic of a container that names no other: `VMC1`. -/
def usual : Magic := ⟨86, 77, 67, 49⟩

/-- A magic of zeros. -/
def absent : Magic := ⟨0, 0, 0, 0⟩

/-- The bytes of a magic. -/
def bytes (m : Magic) : List UInt8 := [m.b₀, m.b₁, m.b₂, m.b₃]

/-- The first four bytes of a list, with zeros where it is shorter. -/
def ofBytes (bs : List UInt8) : Magic := ⟨bs.getD 0 0, bs.getD 1 0, bs.getD 2 0, bs.getD 3 0⟩

end Magic

/-- A program with its data and its symbols. -/
structure Container where
  magic : Magic := Magic.absent
  code : List UInt8 := []
  data : List UInt8 := []
  symbols : List Symbol := []
  relocSize : UInt32 := 0
deriving DecidableEq, Repr

namespace Container

open Numeral (decimal)

/-- The number of bytes of a header. -/
def headerSize : Nat := 20

/-- Why bytes are no container. -/
inductive Failure where
  | shortHeader (size : Nat)
  | shortSection (name : String) (start stop size : Nat)
  | symbolTable (f : SymbolTable.Failure)
  | hexText (f : HexText.Failure)
deriving DecidableEq, Repr

/-- The text of a failure. -/
def Failure.message : Failure → Text
  | shortHeader size =>
    text "container truncated: header needs 20 bytes, have " ++ decimal size
  | shortSection name start stop size =>
    text "container truncated: " ++ text name ++ text " section [" ++ decimal start ++
      text ", " ++ decimal stop ++ text ") exceeds " ++ decimal size ++ text " bytes"
  | symbolTable f => f.message
  | hexText f => f.message

/-- The sizes that a header holds. -/
structure Header where
  magic : Magic
  codeSize : UInt32
  dataSize : UInt32
  symbolSize : UInt32
  relocSize : UInt32
deriving DecidableEq, Repr

/-- The header, and what follows it. -/
def Header.read? : List UInt8 → Option (Header × List UInt8)
  | m₀ :: m₁ :: m₂ :: m₃ :: c₀ :: c₁ :: c₂ :: c₃ :: d₀ :: d₁ :: d₂ :: d₃ ::
      s₀ :: s₁ :: s₂ :: s₃ :: r₀ :: r₁ :: r₂ :: r₃ :: rest =>
    some ({ magic := ⟨m₀, m₁, m₂, m₃⟩
            codeSize := LittleEndian.word c₀ c₁ c₂ c₃
            dataSize := LittleEndian.word d₀ d₁ d₂ d₃
            symbolSize := LittleEndian.word s₀ s₁ s₂ s₃
            relocSize := LittleEndian.word r₀ r₁ r₂ r₃ }, rest)
  | _ => none

/-- The bytes of a header. -/
def Header.bytes (h : Header) : List UInt8 :=
  h.magic.bytes ++ LittleEndian.bytes32 h.codeSize ++ LittleEndian.bytes32 h.dataSize ++
    LittleEndian.bytes32 h.symbolSize ++ LittleEndian.bytes32 h.relocSize

/-- Cuts a section that starts at `start` off the front of the bytes left of `total`. -/
def takeSection (name : String) (total start size : Nat) (rest : List UInt8) :
    Except Failure (List UInt8 × List UInt8) :=
  if total < start + size then .error (.shortSection name start (start + size) total)
  else .ok (rest.take size, rest.drop size)

/-- Whether bytes start with the magic of a bytecode format. -/
def isBareCode (bytes : List UInt8) : Bool := (Format.ofMagic? (bytes.take 4)).isSome

/-- **The container of some bytes.** -/
def parse (bytes : List UInt8) : Except Failure Container :=
  if isBareCode bytes then .ok { magic := Magic.usual, code := bytes }
  else match Header.read? bytes with
    | none => .error (.shortHeader bytes.length)
    | some (h, rest) => do
      let total := bytes.length
      let (code, rest) ← takeSection "code" total headerSize h.codeSize.toNat rest
      let start := headerSize + h.codeSize.toNat
      let (data, rest) ← takeSection "data" total start h.dataSize.toNat rest
      let start := start + h.dataSize.toNat
      let (table, _) ← takeSection "symbol" total start h.symbolSize.toNat rest
      let symbols ← (SymbolTable.parse table).mapError .symbolTable
      return { magic := h.magic, code, data, symbols, relocSize := h.relocSize }

/-- **The bytes of a container.**  A magic that was not chosen is replaced by the usual one. -/
def build (c : Container) : List UInt8 :=
  let table := SymbolTable.build c.symbols
  let header : Header :=
    { magic := if c.magic = Magic.absent then Magic.usual else c.magic
      codeSize := c.code.length.toUInt32
      dataSize := c.data.length.toUInt32
      symbolSize := table.length.toUInt32
      relocSize := c.relocSize }
  header.bytes ++ c.code ++ c.data ++ table

/-- The bytes that a file stands for: those of its hex text, or its own. -/
def rawBytes (file : List UInt8) : Except HexText.Failure (List UInt8) :=
  if HexText.looksLike file then HexText.read file else .ok file

/-- **The container of a file**, in either form. -/
def decode (file : List UInt8) : Except Failure Container := do
  let bytes ← (rawBytes file).mapError .hexText
  parse bytes

end Container

end StackCompiler
