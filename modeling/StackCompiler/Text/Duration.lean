/-
**Durations.**

A duration is written in the largest unit below a second that it reaches, or in hours, minutes and
seconds from a second on.  Fractions lose their final zeros.
-/

import StackCompiler.Text.Numeral

namespace StackCompiler.Duration

open Numeral (decimal)

/-- A number of nanoseconds, rounded to microseconds; half of one is rounded up. -/
def round (n : Nat) : Nat := (n + 500) / 1000 * 1000

/-- A number of units, where a unit has `10 ^ places` parts. -/
def fraction (places n : Nat) : Text :=
  let parts := Nat.pow 10 places
  let rest := Text.padLeft places 48 (decimal (n % parts))
  let shown := (rest.reverse.dropWhile (· == 48)).reverse
  decimal (n / parts) ++ (if n % parts = 0 then [] else 46 :: shown)

/-- **The text of a number of nanoseconds.** -/
def render (n : Nat) : Text :=
  if n = 0 then text "0s"
  else if n < 1000 then decimal n ++ text "ns"
  else if n < 1000000 then fraction 3 n ++ text "µs"
  else if n < 1000000000 then fraction 6 n ++ text "ms"
  else
    let minutes := n / 60000000000
    let seconds := fraction 9 (n % 60000000000) ++ text "s"
    if minutes = 0 then seconds
    else if minutes < 60 then decimal minutes ++ text "m" ++ seconds
    else decimal (minutes / 60) ++ text "h" ++ decimal (minutes % 60) ++ text "m" ++ seconds

end StackCompiler.Duration
