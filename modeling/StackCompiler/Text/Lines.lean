/-
**Lines.**

A line ends with a newline, and the last line may lack it.  A carriage return before the newline
does not belong to the line.  Readers keep a bounded buffer, so a line that does not fit together
with its newline stops the reading: the lines before it are still delivered.
-/

import StackCompiler.Text.Basic

namespace StackCompiler

/-- What a line reader delivers. -/
structure Lines where
  /-- The lines, without their ends. -/
  lines : List Text
  /-- Whether a line that is too long ended the reading. -/
  stopped : Bool
deriving DecidableEq, Repr

namespace Lines

/-- The bound of a reader with the usual buffer: 64 KiB. -/
def usualBound : Nat := 65536

/-- A line without a final carriage return. -/
def dropReturn (t : Text) : Text := if t.getLast? = some 13 then t.dropLast else t

/-- The lines of a text with their carriage returns; nothing follows a final newline. -/
def split (t : Text) : List Text :=
  let parts := Text.splitOn Text.newline t
  if parts.getLast? = some [] then parts.dropLast else parts

/-- **The lines of a text under a bound**: reading stops before the first line that has `bound`
bytes or more. -/
def scan (bound : Nat) (t : Text) : Lines where
  lines := ((split t).takeWhile (·.length < bound)).map dropReturn
  stopped := (split t).any (bound ≤ ·.length)

/-- What is reported when a long line stopped the reading. -/
def stoppedMessage : Text := text "bufio.Scanner: token too long"

end Lines

end StackCompiler
