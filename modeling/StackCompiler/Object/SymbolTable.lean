/-
**Symbol tables in bytes.**

A symbol table is the number of its rows, followed by the rows: the length of the name, the name,
three bytes for kind, binding and definedness, and the address.  Numbers are words with the least
significant byte first.  A table without rows has no bytes at all.
-/

import StackCompiler.Bytes.LittleEndian
import StackCompiler.Symbol.Basic
import StackCompiler.Text.Quoted

namespace StackCompiler.SymbolTable

open Numeral (decimal)

/-- The part of a table that was being read. -/
inductive Part where
  | count
  | nameLength (row : Nat)
  | name (row : Nat)
  | body (row : Nat) (title : Text)
deriving DecidableEq, Repr

/-- A table ends too early. -/
structure Failure where
  part : Part
  /-- The number of bytes that it needs. -/
  needed : Nat
  offset : Nat
  left : Nat
deriving DecidableEq, Repr

/-- The text that names a part. -/
def Part.message : Part → Text
  | count => []
  | nameLength row => text "symbol " ++ decimal row ++ text ": "
  | name row => text "symbol " ++ decimal row ++ text " name: "
  | body row title => text "symbol " ++ decimal row ++ text " " ++ Text.quote title ++ text ": "

/-- The text of a failure. -/
def Failure.message (f : Failure) : Text :=
  f.part.message ++ text "malformed symbol table: need " ++ decimal f.needed ++
    text " bytes at offset " ++ decimal f.offset ++ text ", have " ++ decimal f.left

/-- Bytes still to be read, and the number of those already read. -/
structure Cursor where
  rest : List UInt8
  offset : Nat := 0

/-- Reads `n` bytes. -/
def Cursor.take (c : Cursor) (part : Part) (n : Nat) : Except Failure (List UInt8 × Cursor) :=
  if c.rest.length < n then .error ⟨part, n, c.offset, c.rest.length⟩
  else .ok (c.rest.take n, ⟨c.rest.drop n, c.offset + n⟩)

/-- A word. -/
def Cursor.word (c : Cursor) (part : Part) : Except Failure (UInt32 × Cursor) :=
  match c.rest with
  | b₀ :: b₁ :: b₂ :: b₃ :: rest => .ok (LittleEndian.word b₀ b₁ b₂ b₃, ⟨rest, c.offset + 4⟩)
  | rest => .error ⟨part, 4, c.offset, rest.length⟩

/-- Three bytes. -/
def Cursor.flags (c : Cursor) (part : Part) :
    Except Failure ((UInt8 × UInt8 × UInt8) × Cursor) :=
  match c.rest with
  | b₀ :: b₁ :: b₂ :: rest => .ok ((b₀, b₁, b₂), ⟨rest, c.offset + 3⟩)
  | rest => .error ⟨part, 3, c.offset, rest.length⟩

/-- A row. -/
def Cursor.row (c : Cursor) (index : Nat) : Except Failure (Symbol × Cursor) := do
  let (length, c) ← c.word (.nameLength index)
  let (name, c) ← c.take (.name index) length.toNat
  let ((kind, binding, defined), c) ← c.flags (.body index name)
  let (address, c) ← c.word (.body index name)
  return ({ name, kind, binding, defined := defined == 1, address }, c)

/-- Reads `left` rows behind others, which are kept in reverse. -/
def rowsFrom : Nat → Nat → Cursor → List Symbol → Except Failure (List Symbol)
  | 0, _, _, seen => .ok seen.reverse
  | left + 1, index, c, seen => do
    let (symbol, c) ← c.row index
    rowsFrom left (index + 1) c (symbol :: seen)

/-- **The table of some bytes.**  Bytes behind the last row are passed over. -/
def parse (bytes : List UInt8) : Except Failure (List Symbol) :=
  if bytes.isEmpty then .ok []
  else do
    let (count, c) ← Cursor.word { rest := bytes } .count
    rowsFrom count.toNat 0 c []

/-- The bytes of a row. -/
def buildRow (s : Symbol) : List UInt8 :=
  LittleEndian.bytes32 s.name.length.toUInt32 ++ s.name ++
    [s.kind, s.binding, if s.defined then 1 else 0] ++ LittleEndian.bytes32 s.address

/-- **The bytes of a table.** -/
def build (symbols : List Symbol) : List UInt8 :=
  if symbols.isEmpty then []
  else LittleEndian.bytes32 symbols.length.toUInt32 ++ symbols.flatMap buildRow

end StackCompiler.SymbolTable
