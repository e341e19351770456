/-
**Decimal fractions in binary.**

A decimal fraction is stored as the nearest number with a mantissa of 53 bits; of two that are
equally near, the one with the even mantissa is taken.  Here only the integer part of that number is
computed, in whole numbers.
-/

import StackCompiler.Text.Numeral

namespace StackCompiler.Decimal

/-- The number of bits of a mantissa. -/
def mantissaBits : Nat := 53

/-- **A quotient rounded to the nearest whole number**; a half goes to the even one. -/
def divideNearest (n d : Nat) : Nat :=
  let q := n / d
  let twice := 2 * (n % d)
  if twice < d ∨ (twice = d ∧ q % 2 = 0) then q else q + 1

/-- The integer part of the stored form of a quotient. -/
def wholeOfQuotient (n d : Nat) : Nat :=
  let whole := n / d
  let bits := if whole = 0 then 0 else whole.log2 + 1
  if mantissaBits < bits then
    let unit := Nat.pow 2 (bits - mantissaBits)
    divideNearest n (d * unit) * unit
  else
    let unit := Nat.pow 2 (mantissaBits - bits)
    divideNearest (n * unit) d / unit

/-- **The integer part of the stored form of `n * 10 ^ e`**, none if that is too large to be
stored. -/
def whole? (n : Nat) (e : Int) : Option Nat :=
  let size : Int := (Numeral.decimal n).length + e
  if n = 0 ∨ size < -1 then some 0
  else if 310 < size then none
  else
    let w := if 0 ≤ e then wholeOfQuotient (n * Nat.pow 10 e.toNat) 1
      else wholeOfQuotient n (Nat.pow 10 (-e).toNat)
    if w < Nat.pow 2 1024 then some w else none

end StackCompiler.Decimal
