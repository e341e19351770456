/-
**Numerals.**

Numbers are written in a base from 2 to 16 with the fewest digits, and padded where a format fixes
the width.  Numbers are read in a given base, or in the base that their first characters name:
`0x`, `0b` and `0o` before at least one more character, a leading `0` for octal, decimal otherwise.
Where the text names its base, single underscores may separate digits, also behind the base.
Reading goes from left to right and reports the first thing that is wrong: a byte that is no digit
of the base, or a value above the bound.
-/

import StackCompiler.Text.Basic

namespace StackCompiler.Numeral

/-! ### Writing -/

/-- The digit for `d`, which is below 16. -/
def digit (d : Nat) : UInt8 := if d < 10 then (48 + d).toUInt8 else (87 + d).toUInt8

/-- Writes the digits of `n` in front of those already written. -/
def writeFrom (base : Nat) : Nat → Nat → Text → Text
  | 0, _, written => written
  | fuel + 1, n, written =>
    if n < base then digit n :: written
    else writeFrom base fuel (n / base) (digit (n % base) :: written)

/-- The numeral of `n`, most significant digit first. -/
def write (base n : Nat) : Text := writeFrom base (n + 1) n []

/-- A number in decimal digits. -/
def decimal (n : Nat) : Text := write 10 n

/-- An integer in decimal, with a minus sign if it is negative. -/
def signed : Int → Text
  | .ofNat n => decimal n
  | .negSucc n => 45 :: decimal (n + 1)

/-- A number in hexadecimal digits. -/
def hex (n : Nat) : Text := write 16 n

/-- A hexadecimal numeral with at least `width` digits. -/
def hexPadded (width n : Nat) : Text := Text.padLeft width 48 (hex n)

/-- A text in capital letters. -/
def upper (t : Text) : Text := t.map fun c => if 97 ≤ c ∧ c ≤ 122 then c - 32 else c

/-! ### Reading -/

/-- Why a text is not read as a number. -/
inductive ReadError where
  | malformed
  | outOfRange
deriving DecidableEq, Repr

/-- A letter in lower case, any other byte with the same bit set. -/
def lowerByte (c : UInt8) : UInt8 := c ||| 32

/-- The value of a digit, letters counting on from ten. -/
def value? (c : UInt8) : Option Nat :=
  if 48 ≤ c ∧ c ≤ 57 then some (c.toNat - 48)
  else if 97 ≤ lowerByte c ∧ lowerByte c ≤ 122 then some ((lowerByte c).toNat - 87)
  else none

/-- Reads digits behind a value already read.  With `separated`, underscores are passed over. -/
def readDigits (base : Nat) (separated : Bool) (most : Nat) : Text → Nat → Except ReadError Nat
  | [], n => .ok n
  | c :: rest, n =>
    if separated && c == 95 then readDigits base separated most rest n
    else match value? c with
      | none => .error .malformed
      | some d =>
        if base ≤ d then .error .malformed
        else if most < n * base + d then .error .outOfRange
        else readDigits base separated most rest (n * base + d)

/-- What precedes a position in a numeral with separators. -/
inductive Before where
  | start
  | digit
  | separator
  | other
deriving DecidableEq

/-- Every underscore stands between a digit and a digit. -/
def separatorsFrom (hexadecimal : Bool) : Text → Before → Bool
  | [], before => before != .separator
  | c :: rest, before =>
    if (48 ≤ c && c ≤ 57) || (hexadecimal && 97 ≤ lowerByte c && lowerByte c ≤ 102) then
      separatorsFrom hexadecimal rest .digit
    else if c == 95 then before == .digit && separatorsFrom hexadecimal rest .separator
    else before != .separator && separatorsFrom hexadecimal rest .other

/-- The base that a text without a sign names, and the text behind its mark. -/
def namedBase : Text → Nat × Text
  | 48 :: c :: d :: rest =>
    if lowerByte c = 98 then (2, d :: rest)
    else if lowerByte c = 111 then (8, d :: rest)
    else if lowerByte c = 120 then (16, d :: rest)
    else (8, c :: d :: rest)
  | 48 :: rest => (8, rest)
  | t => (10, t)

/-- Whether the underscores of a numeral are well placed; a base mark counts as a digit. -/
def separatorsPlaced : Text → Bool
  | 48 :: c :: rest =>
    if lowerByte c = 98 ∨ lowerByte c = 111 ∨ lowerByte c = 120 then
      separatorsFrom (lowerByte c = 120) rest .digit
    else separatorsFrom false (48 :: c :: rest) .start
  | t => separatorsFrom false t .start

/-- **Reads a natural number up to `most`**, in the given base or, without one, in the base that
the text names. -/
def readUnsigned (base? : Option Nat) (most : Nat) (t : Text) : Except ReadError Nat :=
  if t.isEmpty then .error .malformed
  else match base? with
    | some base => readDigits base false most t 0
    | none => do
      let (base, body) := namedBase t
      let n ← readDigits base true most body 0
      if body.contains 95 && !separatorsPlaced t then .error .malformed else .ok n

/-- **Reads an integer that fits in `bits` bits**, with an optional sign. -/
def readSigned (base? : Option Nat) (bits : Nat) (t : Text) : Except ReadError Int := do
  let (negative, body) := match t with
    | 43 :: rest => (false, rest)
    | 45 :: rest => (true, rest)
    | _ => (false, t)
  let n ← readUnsigned base? (Nat.pow 2 bits - 1) body
  let bound := Nat.pow 2 (bits - 1)
  if negative then
    if bound < n then .error .outOfRange else .ok (-(n : Int))
  else
    if bound ≤ n then .error .outOfRange else .ok n

end StackCompiler.Numeral
