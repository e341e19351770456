/-
**Places in a YAML text.**

A place knows what follows it, and its line and column.  Besides a newline there are other line
breaks; most of them count as a newline, and a carriage return before a newline belongs to it.
-/

import StackCompiler.Text.Basic

namespace StackCompiler.Yaml

/-! ### Characters -/

/-- Whether a character is a line break. -/
def isBreak (c : Char) : Bool :=
  c == '\n' || c == '\r' || c == '\u0085' || c == '\u2028' || c == '\u2029'

/-- Whether a character is a blank. -/
def isBlank (c : Char) : Bool := c == ' ' || c == '\t'

/-- Whether a text ends here or goes on with a line break. -/
def atBreak : List Char → Bool
  | [] => true
  | c :: _ => isBreak c

/-- Whether a text ends here or goes on with a blank or a line break. -/
def atBlank : List Char → Bool
  | [] => true
  | c :: _ => isBlank c || isBreak c

/-- What a line break counts as. -/
def breakValue (c : Char) : Char := if c == '\u2028' || c == '\u2029' then c else '\n'

/-- The text of characters. -/
def encode (cs : List Char) : Text := cs.flatMap String.utf8EncodeChar

/-! ### Places -/

/-- A place in a text. -/
structure Cursor where
  rest : List Char
  index : Nat := 0
  line : Nat := 0
  column : Nat := 0
deriving DecidableEq, Repr

namespace Cursor

/-- Goes on by `n` characters of a line. -/
def advance (c : Cursor) (n : Nat) : Cursor :=
  { c with rest := c.rest.drop n, index := c.index + n, column := c.column + n }

/-- Passes over the characters of a line that are alike. -/
def skip (c : Cursor) (p : Char → Bool) : Cursor := c.advance (c.rest.takeWhile p).length

/-- Goes on to a later part of the rest of the line. -/
def goTo (c : Cursor) (rest : List Char) : Cursor := c.advance (c.rest.length - rest.length)

/-- Passes over a line break. -/
def breakLine (c : Cursor) : Cursor :=
  let n := match c.rest with
    | '\r' :: '\n' :: _ => 2
    | _ => 1
  { rest := c.rest.drop n, index := c.index + n, line := c.line + 1, column := 0 }

/-- Whether a mark of three characters stands alone at the start of a line. -/
def atMark (c : Cursor) (mark : String) : Bool :=
  c.column == 0 && mark.toList.isPrefixOf c.rest && atBlank (c.rest.drop 3)

/-- Whether the mark of a document is here. -/
def atDocumentMark (c : Cursor) : Bool := c.atMark "---" || c.atMark "..."

/-! ### Comments -/

/-- Goes to the end of a line. -/
def skipLine (c : Cursor) : Cursor := c.skip fun ch => !isBreak ch

/-- What follows the blanks and newlines behind a comment, if that is another comment. -/
def nextComment? (rest : List Char) : Option (List Char) :=
  let later := rest.dropWhile fun ch => isBlank ch || ch == '\n' || ch == '\r'
  if (rest.head?.any fun ch => ch == '\n' || ch == '\r') && later.head? == some '#' then some later
  else none

/-- Goes on over blanks and line breaks until `n` characters are left. -/
def passTo (n : Nat) : Nat → Cursor → Cursor
  | 0, c => c
  | fuel + 1, c =>
    if c.rest.length ≤ n then c
    else if atBreak c.rest then passTo n fuel c.breakLine
    else passTo n fuel (c.advance 1)

/-- Passes over a comment and those that follow it, up to the end of the last one's line. -/
def skipCommentsFrom : Nat → Cursor → Cursor
  | 0, c => c
  | fuel + 1, c =>
    let c := c.skipLine
    match nextComment? c.rest with
    | none => c
    | some later => skipCommentsFrom fuel (passTo later.length c.rest.length c)

/-- **Passes over comments.** -/
def skipComments (c : Cursor) : Cursor := skipCommentsFrom c.rest.length c

/-- Passes over a comment behind something on its line. -/
def skipTrailingComment (c : Cursor) : Cursor :=
  let after := c.skip isBlank
  if after.rest.head? == some '#' then after.skipLine else c

end Cursor

/-! ### Gaps -/

/-- What separates two words of a scalar. -/
structure Gap where
  /-- The blanks before the first line break, in reverse. -/
  blanks : List Char := []
  broken : Bool := false
  /-- The first line break, unless it is escaped. -/
  first : Option Char := none
  /-- The other line breaks, in reverse. -/
  more : List Char := []
deriving DecidableEq, Repr

/-- **What a gap counts as**, in reverse.  A single newline counts as a space, and several count as
one less; other line breaks are kept. -/
def Gap.value (g : Gap) : List Char :=
  if !g.broken then g.blanks
  else match g.first with
    | none => g.more
    | some ch => if ch == '\n' then (if g.more.isEmpty then [' '] else g.more) else g.more ++ [ch]

/-- Reads a gap.  Behind a line break no tabulator may stand before column `least`. -/
def Cursor.gapFrom (least : Nat) : Nat → Cursor → Gap → Option (Gap × Cursor)
  | 0, c, g => some (g, c)
  | fuel + 1, c, g =>
    match c.rest with
    | [] => some (g, c)
    | ch :: _ =>
      if isBlank ch then
        if g.broken then
          if ch == '\t' && c.column < least then none else gapFrom least fuel (c.advance 1) g
        else gapFrom least fuel (c.advance 1) { g with blanks := ch :: g.blanks }
      else if isBreak ch then
        if g.broken then gapFrom least fuel c.breakLine { g with more := breakValue ch :: g.more }
        else gapFrom least fuel c.breakLine { broken := true, first := some (breakValue ch) }
      else some (g, c)

/-- **Reads a gap**, none if a tabulator is in the wrong place. -/
def Cursor.gap (c : Cursor) (least : Nat) (g : Gap) : Option (Gap × Cursor) :=
  c.gapFrom least c.rest.length g

end StackCompiler.Yaml
