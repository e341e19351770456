/-
**Text as bytes.**

Symbol names, assembly lines and messages are sequences of bytes that need not be valid UTF-8, so
the library's texts are lists of bytes.  Character strings enter through `text`, which writes a
string as UTF-8.  The operations below look at single bytes only; whatever depends on characters
(blanks, letters, quoting) goes through the pieces of `Text/Piece.lean`.
-/

namespace StackCompiler

/-- A text is its bytes. -/
abbrev Text := List UInt8

/-- The bytes of a string. -/
def text (s : String) : Text := s.toList.flatMap String.utf8EncodeChar

namespace Text

/-- The byte that ends a line. -/
def newline : UInt8 := 10

/-- Cuts a text at every separator byte; there is one part more than there are separators. -/
def splitOn (separator : UInt8) (t : Text) : List Text :=
  t.foldr (fun c parts => if c = separator then [] :: parts else parts.modifyHead (c :: ·)) [[]]

/-- Texts with a separator between them. -/
def join (separator : Text) (ts : List Text) : Text := separator.intercalate ts

/-- Texts as lines. -/
def unlines (ts : List Text) : Text := ts.flatMap (· ++ [newline])

/-- The part before the first separator byte, and the part after it if there is one. -/
def cut (separator : UInt8) (t : Text) : Text × Option Text :=
  match t.span (· != separator) with
  | (front, []) => (front, none)
  | (front, _ :: rest) => (front, some rest)

/-- The part before the first separator byte. -/
def upTo (separator : UInt8) (t : Text) : Text := t.takeWhile (· != separator)

/-- Collects the bytes before the first place where `mark` begins. -/
def beforeFrom (mark : Text) : Text → Text → Text
  | [], seen => seen.reverse
  | c :: rest, seen =>
    if mark.isPrefixOf (c :: rest) then seen.reverse else beforeFrom mark rest (c :: seen)

/-- The part before the first occurrence of `mark`, the whole text if there is none. -/
def before (mark t : Text) : Text := beforeFrom mark t []

/-- Whether `needle` occurs as a contiguous part of a text. -/
def occursIn (needle : Text) : Text → Bool
  | [] => needle.isEmpty
  | c :: rest => needle.isPrefixOf (c :: rest) || occursIn needle rest

/-- A text without one leading `front`, if it starts with it. -/
def dropFront (front t : Text) : Text := (front.isPrefixOf? t).getD t

/-- A text without one trailing `back`, if it ends with it. -/
def dropBack (back t : Text) : Text :=
  if back.isSuffixOf t then t.take (t.length - back.length) else t

/-- Fills a text up to `width` bytes on the left. -/
def padLeft (width : Nat) (fill : UInt8) (t : Text) : Text :=
  List.replicate (width - t.length) fill ++ t

/-- `n` blanks. -/
def blanks (n : Nat) : Text := List.replicate n 32

/-- Texts in byte order. -/
def sorted (ts : List Text) : List Text := ts.mergeSort fun a b => decide (a ≤ b)

end Text

end StackCompiler
