/-
**Hex text.**

Bytes are stored as text by their hexadecimal digits.  `//` starts a comment.  Reading passes over
everything else that is no digit and pairs the digits line by line; a text is taken for this form
if it holds only digits and blanks outside its comments.
-/

import StackCompiler.Text.Lines
import StackCompiler.Text.Numeral

namespace StackCompiler.HexText

/-- Why a text can not be read. -/
inductive Failure where
  | oddDigits (line : Nat)
  | longLine
deriving DecidableEq, Repr

/-- The text of a failure. -/
def Failure.message : Failure → Text
  | oddDigits line =>
    text "line " ++ Numeral.decimal line ++ text ": odd number of hex digits on a line"
  | longLine => Lines.stoppedMessage

/-- The bound of the line reader: 16 MiB. -/
def bound : Nat := 16777216

/-- The value of a hexadecimal digit. -/
def value? (c : UInt8) : Option UInt8 :=
  if 48 ≤ c ∧ c ≤ 57 then some (c - 48)
  else if 97 ≤ c ∧ c ≤ 102 then some (c - 87)
  else if 65 ≤ c ∧ c ≤ 70 then some (c - 55)
  else none

/-- What starts a comment. -/
def commentMark : Text := [47, 47]

/-- Pairs digits behind bytes already read, which are kept in reverse. -/
def pairs : List UInt8 → List UInt8 → Option (List UInt8)
  | [], seen => some seen.reverse
  | [_], _ => none
  | hi :: lo :: rest, seen => pairs rest ((hi <<< 4 ||| lo) :: seen)

/-- The bytes of a line. -/
def readLine (number : Nat) (line : Text) : Except Failure (List UInt8) :=
  match pairs ((Text.before commentMark line).filterMap value?) [] with
  | some bytes => .ok bytes
  | none => .error (.oddDigits number)

/-- **The bytes of a text.** -/
def read (t : Text) : Except Failure (List UInt8) := do
  let lines := Lines.scan bound t
  let bytes ← (lines.lines.zipIdx 1).mapM fun (line, number) => readLine number line
  if lines.stopped then .error .longLine else .ok bytes.flatten

/-- Digits, spaces, tabulators and carriage returns may stand outside comments. -/
def mayStand (c : UInt8) : Bool := (value? c).isSome || c == 32 || c == 9 || c == 13

/-- **Whether a text is taken for hex text.** -/
def looksLike (t : Text) : Bool :=
  (Text.splitOn Text.newline t).all fun line => (Text.before commentMark line).all mayStand

/-- The digits of a byte. -/
def writeByte (b : UInt8) : Text := Numeral.upper (Numeral.hexPadded 2 b.toNat)

/-- Cuts bytes into lines of sixteen, at most `fuel` of them, behind lines already cut. -/
def rowsFrom : Nat → List UInt8 → List (List UInt8) → List (List UInt8)
  | _, [], seen => seen.reverse
  | 0, _, seen => seen.reverse
  | fuel + 1, b :: bytes, seen =>
    rowsFrom fuel ((b :: bytes).drop 16) ((b :: bytes).take 16 :: seen)

/-- The rows of the bytes. -/
def rows (bytes : List UInt8) : List (List UInt8) := rowsFrom bytes.length bytes []

/-- **Bytes as hex text.** -/
def write (bytes : List UInt8) : Text :=
  Text.unlines ((rows bytes).map fun row => Text.join [32] (row.map writeByte))

end StackCompiler.HexText
