/-
**Little-endian bytes.**

Words of 16 and 32 bits as bytes, least significant byte first, and back.
-/

namespace StackCompiler.LittleEndian

/-- The bytes of a half. -/
def bytes16 (h : UInt16) : List UInt8 := [h.toUInt8, (h >>> 8).toUInt8]

/-- The half of two bytes. -/
def half (b₀ b₁ : UInt8) : UInt16 := b₀.toUInt16 ||| b₁.toUInt16 <<< 8

/-- The bytes of a word. -/
def bytes32 (w : UInt32) : List UInt8 :=
  [w.toUInt8, (w >>> 8).toUInt8, (w >>> 16).toUInt8, (w >>> 24).toUInt8]

/-- The word of four bytes. -/
def word (b₀ b₁ b₂ b₃ : UInt8) : UInt32 :=
  b₀.toUInt32 ||| b₁.toUInt32 <<< 8 ||| b₂.toUInt32 <<< 16 ||| b₃.toUInt32 <<< 24

/-- The number with the given bytes, as an unsigned 64-bit word. -/
def lane (bs : List UInt8) : UInt64 := bs.foldr (fun b n => n <<< 8 ||| b.toUInt64) 0

end StackCompiler.LittleEndian
