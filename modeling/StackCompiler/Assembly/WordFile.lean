/-
**Files of words.**

An image is stored as text, one word of eight hexadecimal digits on a line, or as bytes, every
word with its least significant byte first.  In the text form, blank lines are passed over and `#`
starts a comment.  The checksum of an image is the digest of its bytes.
-/

import StackCompiler.Bytes.LittleEndian
import StackCompiler.Libraries
import StackCompiler.Text.Blank
import StackCompiler.Text.Lines
import StackCompiler.Text.Quoted

namespace StackCompiler.WordFile

/-- A word on each line, in hexadecimal digits. -/
def toHex (words : List UInt32) : Text :=
  Text.unlines (words.map fun w => Numeral.hexPadded 8 w.toNat)

/-- The bytes of words. -/
def toBytes (words : List UInt32) : List UInt8 := words.flatMap LittleEndian.bytes32

/-- The digest of the bytes of words. -/
def checksum [Libraries] (words : List UInt32) : UInt64 := Libraries.digest (toBytes words)

/-- Why a text is no file of words. -/
inductive Failure where
  | badWord (line : Nat) (found : Text) (why : Numeral.ReadError)
  | longLine
deriving DecidableEq, Repr

/-- Why a number can not be read. -/
def reason : Numeral.ReadError → Text
  | .malformed => text "invalid syntax"
  | .outOfRange => text "value out of range"

/-- The text of a failure. -/
def Failure.message : Failure → Text
  | badWord line found why =>
    text "line " ++ Numeral.decimal line ++ text ": bad word " ++ Text.quote found ++
      text ": strconv.ParseUint: parsing " ++ Text.quote found ++ text ": " ++ reason why
  | longLine => Lines.stoppedMessage

/-- The word on a line, if there is one. -/
def wordOf (line : Nat) (t : Text) : Except Failure (Option UInt32) :=
  let t := Text.trim (Text.upTo 35 t)
  if t.isEmpty then .ok none
  else match Numeral.readUnsigned (some 16) 0xFFFFFFFF t with
    | .ok n => .ok (some n.toUInt32)
    | .error why => .error (.badWord line t why)

/-- **The words of a text.** -/
def ofHex (t : Text) : Except Failure (List UInt32) := do
  let read := Lines.scan Lines.usualBound t
  let words ← (read.lines.zipIdx 1).mapM fun (l, n) => wordOf n l
  if read.stopped then .error .longLine else .ok (words.filterMap id)

end StackCompiler.WordFile
