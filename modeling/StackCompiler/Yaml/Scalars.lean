/-
**Scalars in YAML text.**

Scalars are plain or in quotes.  They consist of words with gaps between them; a gap may go over
several lines.
-/

import StackCompiler.Text.Numeral
import StackCompiler.Yaml.Cursor

namespace StackCompiler.Yaml

/-! ### Plain scalars -/

/-- The characters with a meaning inside flow collections that end a word. -/
def isFlowMark (c : Char) : Bool :=
  c == ',' || c == '?' || c == '[' || c == ']' || c == '\x7b' || c == '\x7d'

/-- The rest of a word of a plain scalar, behind characters in reverse. -/
def plainWord (flow : Bool) : List Char → List Char → List Char × List Char
  | [], seen => (seen, [])
  | c :: rest, seen =>
    if isBlank c || isBreak c || (c == ':' && atBlank rest) || (flow && isFlowMark c) then
      (seen, c :: rest)
    else plainWord flow rest (c :: seen)

/-- The rest of a plain scalar, behind characters in reverse and a gap. -/
def plainFrom (flow : Bool) (least : Nat) :
    Nat → Cursor → List Char → Gap → Option (List Char × Bool × Cursor)
  | 0, _, _, _ => none
  | fuel + 1, c, seen, g =>
    if c.atDocumentMark || c.rest.head? == some '#' then some (seen, g.broken, c)
    else
      let (word, rest) := plainWord flow c.rest []
      let (seen, g) := if word.isEmpty then (seen, g) else (word ++ g.value ++ seen, {})
      let c := c.goTo rest
      if rest.isEmpty || !atBlank rest then some (seen, g.broken, c)
      else do
        let (g, c) ← c.gap least g
        if !flow && c.column < least then return (seen, g.broken, c)
        else plainFrom flow least fuel c seen g

/-- **A plain scalar**, whether line breaks follow it, and the place behind it.  In a block its
lines start at column `least` or behind it. -/
def plainScalar (flow : Bool) (least : Nat) (c : Cursor) : Option (Text × Bool × Cursor) :=
  (plainFrom flow least (c.rest.length + 1) c [] {}).map fun (seen, broken, c) =>
    (encode seen.reverse, broken, c)

/-! ### Scalars in quotes -/

/-- The number of hexadecimal digits of an escaped character. -/
def escapeDigits? (c : Char) : Option Nat :=
  if c == 'x' then some 2 else if c == 'u' then some 4 else if c == 'U' then some 8 else none

/-- What a character behind a backslash stands for. -/
def escape? (c : Char) : Option Char :=
  [('0', '\x00'), ('a', '\x07'), ('b', '\x08'), ('t', '\t'), ('\t', '\t'), ('n', '\n'),
   ('v', '\x0b'), ('f', '\x0c'), ('r', '\r'), ('e', '\x1b'), (' ', ' '), ('"', '"'),
   ('\x27', '\x27'), ('\\', '\\'), ('N', '\u0085'), ('_', '\u00a0'), ('L', '\u2028'),
   ('P', '\u2029')].lookup c

/-- The character with a number. -/
def escapedChar? (digits : List Char) (count : Nat) : Option Char :=
  if digits.length < count then none
  else match Numeral.readUnsigned (some 16) 0x10FFFF (encode digits) with
    | .ok n => if n.isValidChar then some (Char.ofNat n) else none
    | .error _ => none

/-- How a word of a scalar in quotes ends. -/
inductive WordEnd where
  /-- Before a blank, a line break or the end of the text. -/
  | blank
  | quote
  | escaped
deriving DecidableEq, Repr

/-- The rest of a word in single quotes, behind characters in reverse.  A quote is written twice. -/
def singleWord : List Char → List Char → List Char × WordEnd × List Char
  | [], seen => (seen, .blank, [])
  | '\x27' :: '\x27' :: rest, seen => singleWord rest ('\x27' :: seen)
  | c :: rest, seen =>
    if c == '\x27' then (seen, .quote, c :: rest)
    else if isBlank c || isBreak c then (seen, .blank, c :: rest)
    else singleWord rest (c :: seen)

/-- The rest of a word in double quotes, behind characters in reverse, none if a wrong character is
escaped. -/
def doubleWord : Nat → List Char → List Char → Option (List Char × WordEnd × List Char)
  | 0, _, _ => none
  | _, [], seen => some (seen, .blank, [])
  | fuel + 1, c :: rest, seen =>
    if c == '"' then some (seen, .quote, c :: rest)
    else if isBlank c || isBreak c then some (seen, .blank, c :: rest)
    else if c != '\\' then doubleWord fuel rest (c :: seen)
    else match rest with
      | [] => none
      | e :: after =>
        if isBreak e then some (seen, .escaped, rest)
        else match escapeDigits? e with
          | some count => do
            let escaped ← escapedChar? (after.take count) count
            doubleWord fuel (after.drop count) (escaped :: seen)
          | none => do
            let escaped ← escape? e
            doubleWord fuel after (escaped :: seen)

/-- The rest of a scalar in quotes, behind characters in reverse. -/
def quotedFrom (single : Bool) : Nat → Cursor → List Char → Option (List Char × Cursor)
  | 0, _, _ => none
  | fuel + 1, c, seen =>
    if c.atDocumentMark || c.rest.isEmpty then none
    else do
      let (seen, ending, rest) ←
        if single then some (singleWord c.rest seen)
        else doubleWord (c.rest.length + 1) c.rest seen
      let c := c.goTo rest
      match ending with
      | .quote => return (seen, c.advance 1)
      | .blank =>
        let (g, c) ← c.gap 0 {}
        quotedFrom single fuel c (g.value ++ seen)
      | .escaped =>
        let (g, c) ← c.breakLine.gap 0 { broken := true }
        quotedFrom single fuel c (g.value ++ seen)

/-- **A scalar in quotes** that starts here, and the place behind it. -/
def quotedScalar (single : Bool) (c : Cursor) : Option (Text × Cursor) :=
  (quotedFrom single (c.rest.length + 1) (c.advance 1) []).map fun (seen, c) =>
    (encode seen.reverse, c)

end StackCompiler.Yaml
