/-
**The characters of a text.**

A text is read from left to right: where it continues with the UTF-8 form of a character, that
character is the next piece; where it does not, a single byte is, and reading goes on behind it.
Surrogates, overlong forms and codes above U+10FFFF are not UTF-8 forms of a character.
-/

import StackCompiler.Text.Basic

namespace StackCompiler.Text

/-- A character of a text, or a byte that belongs to no character. -/
inductive Piece where
  | char (c : Char)
  | stray (b : UInt8)
deriving DecidableEq, Repr

namespace Piece

/-- The bytes of a piece. -/
def bytes : Piece → Text
  | char c => String.utf8EncodeChar c
  | stray b => [b]

/-- The code point of a piece.  A stray byte counts as the replacement character. -/
def code : Piece → Nat
  | char c => c.toNat
  | stray _ => 0xFFFD

end Piece

/-- The six payload bits of a continuation byte. -/
def continuation? (b : UInt8) : Option Nat :=
  if b &&& 0xC0 = 0x80 then some (b &&& 0x3F).toNat else none

/-- The character with code `n`, if `n` is one and a shorter form could not hold it. -/
def scalar? (least n : Nat) : Option Char :=
  if h : least ≤ n ∧ n.isValidChar then some (Char.ofNatAux n h.2) else none

/-- The character whose UTF-8 form a text starts with, and what follows it. -/
def headChar? : Text → Option (Char × Text)
  | [] => none
  | b :: rest =>
    if b < 0x80 then some (Char.ofNat b.toNat, rest)
    else if b < 0xC0 then none
    else if b < 0xE0 then
      match rest with
      | b₁ :: rest => do
        let n₁ ← continuation? b₁
        let c ← scalar? 0x80 ((b &&& 0x1F).toNat * 64 + n₁)
        return (c, rest)
      | _ => none
    else if b < 0xF0 then
      match rest with
      | b₁ :: b₂ :: rest => do
        let n₁ ← continuation? b₁
        let n₂ ← continuation? b₂
        let c ← scalar? 0x800 (((b &&& 0x0F).toNat * 64 + n₁) * 64 + n₂)
        return (c, rest)
      | _ => none
    else if b < 0xF8 then
      match rest with
      | b₁ :: b₂ :: b₃ :: rest => do
        let n₁ ← continuation? b₁
        let n₂ ← continuation? b₂
        let n₃ ← continuation? b₃
        let c ← scalar? 0x10000 ((((b &&& 0x07).toNat * 64 + n₁) * 64 + n₂) * 64 + n₃)
        return (c, rest)
      | _ => none
    else none

/-- Collects the pieces of a text of at most `fuel` bytes behind those already seen. -/
def piecesFrom : Nat → Text → List Piece → List Piece
  | _, [], seen => seen.reverse
  | 0, _, seen => seen.reverse
  | fuel + 1, b :: rest, seen =>
    match headChar? (b :: rest) with
    | some (c, rest) => piecesFrom fuel rest (.char c :: seen)
    | none => piecesFrom fuel rest (.stray b :: seen)

/-- **The pieces of a text**, from left to right. -/
def pieces (t : Text) : List Piece := piecesFrom t.length t []

/-- The text of pieces. -/
def ofPieces (ps : List Piece) : Text := ps.flatMap Piece.bytes

end StackCompiler.Text
