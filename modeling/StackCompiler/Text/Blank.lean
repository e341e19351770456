/-
**Blanks.**

A blank is a character with the Unicode property `White_Space`.  Trimming and splitting into
fields go by these blanks, so a no-break space separates two fields as a tabulator does, while a
zero-width space or a stray byte does not.
-/

import StackCompiler.Text.Piece
import StackCompiler.Text.Ranges

namespace StackCompiler.Text

/-- The code points with the property `White_Space`. -/
def blankRanges : List (Nat × Nat) :=
  [(0x9, 0xD), (0x20, 0x20), (0x85, 0x85), (0xA0, 0xA0), (0x1680, 0x1680), (0x2000, 0x200A),
    (0x2028, 0x2029), (0x202F, 0x202F), (0x205F, 0x205F), (0x3000, 0x3000)]

/-- Whether a piece is blank. -/
def isBlank (p : Piece) : Bool := inRanges blankRanges p.code

/-- **A text without the blanks at its ends.** -/
def trim (t : Text) : Text :=
  ofPieces (((pieces t).dropWhile isBlank).reverse.dropWhile isBlank).reverse

/-- Splits pieces into maximal runs that hold no blank. -/
def fieldsOf (ps : List Piece) : List (List Piece) :=
  (ps.foldr
    (fun p parts => if isBlank p then [] :: parts else parts.modifyHead (p :: ·)) [[]]).filter
      (! ·.isEmpty)

/-- **The fields of a text**: its maximal parts without blanks, from left to right. -/
def fields (t : Text) : List Text := (fieldsOf (pieces t)).map ofPieces

end StackCompiler.Text
