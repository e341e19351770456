/-
**Quoted text.**

A quoted text stands between double quotes and holds only printable characters: letters, marks,
numbers, punctuation, symbols and the space stand for themselves, except that the quote and the
backslash are preceded by a backslash.  Seven control characters have a one-letter escape; other
ASCII control characters and stray bytes are written with two hexadecimal digits, other characters
with four or eight.
-/

import StackCompiler.Text.Letter
import StackCompiler.Text.Numeral

namespace StackCompiler.Text

/-- The runs outside and inside the categories `M`, `N`, `P` and `S` and the space. -/
def markRuns : List Nat :=
  [32, 33, 26, 6, 26, 4, 34, 9, 1, 2, 1, 7, 1, 4, 1, 5, 23, 1, 31, 1, 458, 4, 12, 14, 5, 7, 1, 1, 1,
    129, 5, 1, 8, 1, 5, 2, 1, 1, 110, 1, 139, 8, 208, 6, 41, 2, 2, 3, 1, 55, 43, 2, 17, 22, 1, 3,
    43, 35, 2, 1, 99, 1, 1, 7, 1, 7, 2, 7, 2, 10, 3, 2, 1, 14, 3, 1, 30, 27, 91, 11, 15, 10, 33, 9,
    2, 4, 3, 3, 22, 4, 1, 9, 1, 3, 1, 5, 2, 15, 26, 3, 2, 1, 41, 1, 14, 9, 42, 24, 1, 33, 54, 3, 1,
    18, 1, 7, 10, 15, 16, 3, 56, 1, 1, 7, 2, 2, 2, 3, 9, 1, 10, 2, 2, 10, 2, 10, 1, 2, 2, 3, 56, 1,
    1, 5, 4, 2, 2, 3, 3, 1, 20, 12, 3, 2, 10, 3, 56, 1, 1, 8, 1, 3, 1, 3, 20, 2, 2, 12, 8, 6, 1, 3,
    56, 1, 1, 7, 2, 2, 2, 3, 7, 3, 10, 2, 2, 11, 1, 6, 10, 1, 59, 5, 3, 3, 1, 4, 9, 1, 14, 21, 5, 5,
    55, 1, 1, 7, 1, 3, 1, 4, 7, 2, 11, 2, 2, 10, 7, 9, 1, 4, 55, 1, 1, 7, 1, 3, 1, 4, 7, 2, 11, 2,
    2, 10, 3, 1, 12, 4, 55, 2, 1, 7, 1, 3, 1, 4, 1, 1, 7, 8, 3, 2, 2, 20, 7, 3, 70, 1, 4, 6, 1, 1,
    1, 8, 6, 10, 2, 3, 60, 1, 2, 7, 4, 1, 7, 21, 85, 1, 2, 9, 11, 7, 1, 10, 39, 63, 49, 23, 5, 11,
    1, 36, 1, 15, 1, 13, 80, 20, 1, 16, 6, 4, 4, 3, 1, 3, 2, 7, 3, 4, 13, 12, 1, 17, 91, 1, 609, 32,
    19, 10, 102, 1, 620, 2, 44, 2, 78, 6, 33, 4, 28, 5, 27, 2, 30, 2, 64, 35, 1, 4, 1, 1, 2, 10, 6,
    10, 6, 14, 1, 11, 107, 2, 34, 1, 118, 12, 4, 12, 4, 1, 3, 12, 128, 11, 3, 34, 23, 5, 2, 2, 53,
    10, 1, 29, 2, 11, 6, 10, 6, 7, 1, 6, 2, 46, 2, 12, 20, 5, 47, 17, 9, 53, 30, 13, 2, 10, 44, 14,
    8, 4, 36, 20, 3, 15, 6, 10, 36, 2, 64, 8, 8, 25, 4, 1, 6, 1, 2, 3, 198, 64, 445, 1, 1, 3, 11, 3,
    13, 3, 13, 3, 13, 2, 17, 24, 8, 47, 17, 1, 3, 11, 1, 15, 17, 34, 14, 33, 15, 2, 1, 4, 1, 2, 10,
    1, 1, 3, 5, 6, 1, 1, 1, 1, 1, 1, 4, 1, 11, 2, 4, 5, 5, 4, 1, 52, 2, 7, 4, 666, 22, 11, 21, 1812,
    2, 138, 229, 6, 4, 3, 7, 7, 112, 1, 14, 1, 96, 79, 1, 46, 34, 26, 1, 89, 12, 214, 26, 16, 1, 4,
    2, 42, 5, 5, 2, 3, 89, 4, 3, 1, 90, 1, 148, 16, 32, 38, 9, 1, 16, 31, 1, 480, 6592, 64, 22160,
    55, 55, 2, 269, 3, 16, 10, 69, 16, 31, 2, 70, 18, 8, 23, 9, 2, 103, 2, 119, 1, 3, 1, 4, 1, 23,
    10, 3, 10, 58, 4, 8, 2, 50, 18, 8, 12, 6, 18, 6, 3, 1, 1, 2, 11, 28, 10, 23, 13, 11, 1, 32, 4,
    47, 27, 2, 10, 4, 2, 5, 1, 10, 10, 47, 14, 12, 1, 8, 2, 2, 10, 2, 4, 23, 3, 1, 3, 50, 1, 1, 3,
    2, 2, 5, 2, 1, 1, 28, 2, 11, 7, 3, 2, 100, 1, 14, 2, 119, 11, 2, 10, 20260, 1, 10, 1, 136, 33,
    363, 18, 64, 2, 54, 8, 44, 30, 6, 51, 1, 19, 1, 4, 149, 32, 26, 6, 26, 11, 122, 7, 1, 7, 13, 2,
    258, 3, 4, 45, 3, 88, 1, 13, 3, 1, 47, 46, 226, 28, 36, 4, 29, 1, 8, 1, 43, 5, 36, 1, 48, 6,
    202, 10, 197, 1, 743, 9, 23, 9, 39, 9, 75, 5, 22, 6, 3, 1, 31, 1, 124, 2, 2, 16, 2, 46, 1, 3, 1,
    2, 5, 4, 40, 3, 4, 10, 7, 9, 36, 3, 29, 3, 40, 1, 28, 2, 4, 12, 66, 7, 24, 8, 24, 8, 25, 4, 12,
    7, 330, 6, 36, 4, 8, 10, 6, 10, 31, 6, 31, 2, 208, 31, 44, 3, 34, 9, 33, 6, 29, 10, 31, 20, 40,
    8, 59, 7, 52, 3, 53, 22, 4, 31, 2, 2, 10, 4, 45, 13, 1, 5, 45, 10, 6, 3, 36, 14, 1, 14, 1, 2,
    44, 3, 10, 3, 48, 14, 4, 21, 1, 1, 1, 3, 1, 20, 55, 19, 2, 1, 103, 1, 53, 12, 5, 10, 6, 4, 55,
    2, 1, 7, 2, 2, 2, 3, 9, 1, 10, 2, 2, 7, 3, 5, 67, 9, 1, 1, 2, 1, 1, 4, 1, 5, 1, 1, 1, 2, 1, 2,
    8, 2, 82, 18, 4, 17, 1, 2, 81, 20, 2, 1, 9, 10, 213, 7, 2, 32, 4, 2, 82, 20, 12, 10, 6, 13, 62,
    13, 1, 1, 6, 10, 6, 20, 57, 15, 4, 16, 236, 16, 164, 19, 61, 6, 1, 2, 2, 4, 1, 1, 1, 5, 9, 10,
    119, 7, 2, 7, 1, 1, 1, 1, 28, 10, 40, 7, 1, 13, 9, 11, 46, 19, 1, 5, 93, 10, 86, 8, 121, 1, 14,
    10, 53, 8, 1, 8, 1, 5, 10, 29, 3, 2, 32, 22, 1, 14, 122, 6, 3, 1, 1, 2, 1, 7, 1, 1, 8, 10, 48,
    5, 1, 2, 1, 5, 8, 10, 54, 10, 265, 6, 7, 2, 1, 1, 48, 7, 3, 29, 101, 50, 13, 1, 1024, 111, 1, 5,
    2940, 2, 1101, 1, 6, 15, 11464, 28, 2342, 10, 4, 2, 80, 10, 38, 6, 58, 16, 4, 2, 10, 10, 1, 7,
    523, 13, 262, 27, 180, 1, 1, 55, 7, 4, 79, 1, 1, 1, 11, 2, 2, 3, 19621, 4, 3936, 253, 3, 436, 6,
    23, 15, 17, 15, 46, 2, 23, 9, 116, 60, 246, 10, 39, 2, 74, 8, 112, 21, 70, 122, 20, 12, 20, 12,
    87, 9, 25, 840, 1, 25, 1, 31, 1, 25, 1, 31, 1, 25, 1, 31, 1, 25, 1, 31, 1, 25, 1, 10, 702, 15,
    5, 1, 15, 1360, 7, 1, 17, 2, 7, 1, 2, 1, 5, 100, 1, 160, 7, 9, 10, 5, 1, 350, 1, 61, 14, 5, 1,
    492, 14, 244, 2, 1, 10, 4, 1, 227, 1, 2, 1, 7, 2, 5, 1, 465, 16, 109, 7, 5, 10, 4, 2, 785, 68,
    76, 61, 434, 2, 270, 44, 4, 100, 12, 15, 2, 15, 1, 15, 1, 37, 10, 174, 56, 29, 13, 44, 4, 9, 7,
    2, 14, 6, 154, 985, 3, 17, 3, 13, 3, 218, 6, 12, 4, 1, 15, 12, 4, 56, 8, 10, 6, 40, 8, 30, 2,
    12, 4, 2, 14, 9, 39, 344, 8, 14, 2, 13, 3, 11, 3, 57, 1, 1, 4, 16, 2, 12, 4, 10, 7, 147, 1, 103,
    787717, 240]

/-- Whether a code point stands for itself in a quoted text: a letter or one of the above. -/
def isPrintable (n : Nat) : Bool := inRuns letterRuns n || inRuns markRuns n

/-- A backslash, a letter, and the hexadecimal digits of `n` to the given width. -/
def escape (letter : UInt8) (width n : Nat) : Text :=
  92 :: letter :: Numeral.hexPadded width n

/-- The letter behind a backslash for a character. -/
def escapeLetter? : Nat → Option UInt8
  | 7 => some 97
  | 8 => some 98
  | 9 => some 116
  | 10 => some 110
  | 11 => some 118
  | 12 => some 102
  | 13 => some 114
  | _ => none

/-- A piece inside quotes. -/
def quotePiece : Piece → Text
  | .stray b => escape 120 2 b.toNat
  | .char c =>
    let n := c.toNat
    if n = 34 ∨ n = 92 then [92, n.toUInt8]
    else if isPrintable n then String.utf8EncodeChar c
    else match escapeLetter? n with
      | some letter => [92, letter]
      | none =>
        if n < 32 ∨ n = 127 then escape 120 2 n
        else if n < 0x10000 then escape 117 4 n
        else escape 85 8 n

/-- **The quoted form of a text.** -/
def quote (t : Text) : Text := 34 :: (pieces t).flatMap quotePiece ++ [34]

end StackCompiler.Text
