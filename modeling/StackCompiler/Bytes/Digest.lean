/-
**The 64-bit digest.**

The digest is XXH64 with seed zero.  The bytes are taken in stripes of 32, each stripe feeding four
lanes of 64 bits; what is left is taken by eight bytes, then four, then one at a time; a final
mixing spreads every bit.
-/

import StackCompiler.Bytes.LittleEndian

namespace StackCompiler.Digest

open LittleEndian (lane)

/-- The first prime. -/
def prime₁ : UInt64 := 0x9E3779B185EBCA87

/-- The second prime. -/
def prime₂ : UInt64 := 0xC2B2AE3D27D4EB4F

/-- The third prime. -/
def prime₃ : UInt64 := 0x165667B19E3779F9

/-- The fourth prime. -/
def prime₄ : UInt64 := 0x85EBCA77C2B2AE63

/-- The fifth prime. -/
def prime₅ : UInt64 := 0x27D4EB2F165667C5

/-- Rotation to the left by a number of bits between 1 and 63. -/
def rotate (n : UInt64) (x : UInt64) : UInt64 := x <<< n ||| x >>> (64 - n)

/-- Takes a lane in. -/
def round (acc input : UInt64) : UInt64 := rotate 31 (acc + input * prime₂) * prime₁

/-- Takes a sum of lanes in. -/
def merge (acc v : UInt64) : UInt64 := (acc ^^^ round 0 v) * prime₁ + prime₄

/-- The four lanes. -/
structure Lanes where
  v₁ : UInt64
  v₂ : UInt64
  v₃ : UInt64
  v₄ : UInt64

/-- The lanes before the first stripe. -/
def Lanes.start : Lanes := ⟨prime₁ + prime₂, prime₂, 0, 0 - prime₁⟩

/-- Takes 32 bytes in. -/
def Lanes.stripe (l : Lanes) (bs : List UInt8) : Lanes where
  v₁ := round l.v₁ (lane (bs.take 8))
  v₂ := round l.v₂ (lane ((bs.drop 8).take 8))
  v₃ := round l.v₃ (lane ((bs.drop 16).take 8))
  v₄ := round l.v₄ (lane ((bs.drop 24).take 8))

/-- Takes in `n` stripes and leaves the bytes behind them. -/
def Lanes.stripes : Nat → Lanes → List UInt8 → Lanes × List UInt8
  | 0, l, bs => (l, bs)
  | n + 1, l, bs => Lanes.stripes n (l.stripe bs) (bs.drop 32)

/-- The digest of the lanes. -/
def Lanes.digest (l : Lanes) : UInt64 :=
  let h := rotate 1 l.v₁ + rotate 7 l.v₂ + rotate 12 l.v₃ + rotate 18 l.v₄
  merge (merge (merge (merge h l.v₁) l.v₂) l.v₃) l.v₄

/-- Takes whole lanes in. -/
def eights : Nat → UInt64 → List UInt8 → UInt64 × List UInt8
  | 0, h, bs => (h, bs)
  | n + 1, h, bs =>
    eights n (rotate 27 (h ^^^ round 0 (lane (bs.take 8))) * prime₁ + prime₄) (bs.drop 8)

/-- Takes in a group of four bytes if there is one. -/
def four (h : UInt64) (bs : List UInt8) : UInt64 × List UInt8 :=
  if bs.length < 4 then (h, bs)
  else (rotate 23 (h ^^^ lane (bs.take 4) * prime₁) * prime₂ + prime₃, bs.drop 4)

/-- Takes in the last bytes one at a time. -/
def ones (h : UInt64) (bs : List UInt8) : UInt64 :=
  bs.foldl (fun h b => rotate 11 (h ^^^ b.toUInt64 * prime₅) * prime₁) h

/-- Lets every bit depend on all others. -/
def avalanche (h : UInt64) : UInt64 :=
  let h := (h ^^^ h >>> 33) * prime₂
  let h := (h ^^^ h >>> 29) * prime₃
  h ^^^ h >>> 32

/-- **The digest of a list of bytes.** -/
def ofBytes (bs : List UInt8) : UInt64 :=
  let size := bs.length
  let (h, bs) :=
    if size < 32 then (prime₅, bs)
    else
      let (l, bs) := Lanes.start.stripes (size / 32) bs
      (l.digest, bs)
  let h := h + size.toUInt64
  let (h, bs) := eights (size % 32 / 8) h bs
  let (h, bs) := four h bs
  avalanche (ones h bs)

end StackCompiler.Digest
