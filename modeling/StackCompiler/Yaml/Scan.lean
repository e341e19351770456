/-
**From YAML text to tokens.**

The scanner takes one token after the other off a text.  In a block the columns at which lines start
say where blocks begin and end.  A node becomes a key only when a colon follows it, so its place is
kept open until that is settled: a key is a single line of at most 1024 characters.

Tokens are used while others are still being read.  A token can be used as soon as the two tokens
behind it are there and it is settled whether a key starts with it; what is wrong with the text
further on does not matter to it.
-/

import StackCompiler.Yaml.Scalars
import StackCompiler.Yaml.Token

namespace StackCompiler.Yaml

/-! ### The state of the scanner -/

/-- A place at which a key may start. -/
structure OpenKey where
  token : Nat
  place : Cursor
  /-- Whether only a key may start there. -/
  required : Bool
deriving DecidableEq, Repr

/-- The greatest length of a key. -/
def longestKey : Nat := 1024

/-- Whether a key that starts at an open place may still end here. -/
def OpenKey.reaches (k : OpenKey) (c : Cursor) : Bool :=
  c.line ≤ k.place.line && c.index ≤ k.place.index + longestKey

/-- The state of the scanner. -/
structure Scanner where
  cursor : Cursor
  tokens : List Token := []
  count : Nat := 0
  /-- The columns of the blocks around this place, innermost first. -/
  blocks : List Nat := []
  keyAllowed : Bool := true
  /-- The open key of the innermost flow collection, or of the block outside of all. -/
  openKey : Option OpenKey := none
  /-- The open keys around it, one for every flow collection. -/
  outer : List (Option OpenKey) := []
  ended : Bool := false
deriving DecidableEq, Repr

namespace Scanner

/-- Whether this place is in a flow collection. -/
def inFlow (s : Scanner) : Bool := !s.outer.isEmpty

/-- The first column that is inside the innermost block. -/
def least (s : Scanner) : Nat := (s.blocks.head?.map (· + 1)).getD 0

/-- Adds a token. -/
def push (s : Scanner) (t : Token) : Scanner :=
  { s with tokens := t :: s.tokens, count := s.count + 1 }

/-- Inserts a token before that with a number. -/
def insert (s : Scanner) (number : Nat) (t : Token) : Scanner :=
  let behind := s.count - number
  { s with tokens := s.tokens.take behind ++ t :: s.tokens.drop behind, count := s.count + 1 }

/-- Adds a token of `n` characters. -/
def pushMark (s : Scanner) (n : Nat) (t : Token) : Scanner :=
  { s with cursor := s.cursor.advance n }.push t

/-! ### Keys and blocks -/

/-- Settles that no key starts at the open place, none if only a key may start there. -/
def dropKey (s : Scanner) : Option Scanner :=
  if s.openKey.any (·.required) then none else some { s with openKey := none }

/-- Keeps this place open for a key, if one may start here. -/
def openKeyHere (s : Scanner) : Option Scanner :=
  if s.keyAllowed then do
    let required := !s.inFlow && s.blocks.head? == some s.cursor.column
    let s ← s.dropKey
    return { s with openKey := some ⟨s.count, s.cursor, required⟩ }
  else some s

/-- Starts a block at a column inside the innermost one, with a token before that with a number. -/
def startBlock (s : Scanner) (column number : Nat) (t : Token) : Scanner :=
  if s.inFlow || column < s.least then s
  else { s with blocks := column :: s.blocks }.insert number t

/-- Ends the blocks in a list behind which a line starts: those at larger columns, or all. -/
def endBlocks (column? : Option Nat) : List Nat → Scanner → Scanner
  | [], s => { s with blocks := [] }
  | block :: rest, s =>
    if column?.all (· < block) then endBlocks column? rest (s.push .blockEnd)
    else { s with blocks := block :: rest }

/-- Ends the blocks behind which a line at a column starts.  Columns do not matter inside flow
collections. -/
def leaveBlocks (s : Scanner) (column? : Option Nat) : Scanner :=
  if s.inFlow then s else endBlocks column? s.blocks s

/-! ### Between tokens -/

/-- Looks for the next token.  A tabulator may not stand where a key may start in a block. -/
def nextFrom : Nat → Scanner → Scanner
  | 0, s => s
  | fuel + 1, s =>
    let c := s.cursor
    let c := if c.column == 0 && c.rest.head? == some '\ufeff' then c.advance 1 else c
    let c := c.skip fun ch => ch == ' ' || ((s.inFlow || !s.keyAllowed) && ch == '\t')
    let c := if c.rest.head? == some '#' then c.skipComments else c
    if c.rest.isEmpty || !atBreak c.rest then { s with cursor := c }
    else nextFrom fuel { s with cursor := c.breakLine, keyAllowed := s.keyAllowed || !s.inFlow }

/-- Looks for the next token. -/
def next (s : Scanner) : Scanner := nextFrom (s.cursor.rest.length + 1) s

/-! ### Tokens -/

/-- Takes the end of the text. -/
def fetchEnd (s : Scanner) : Option Scanner := do
  let s ← (s.leaveBlocks none).dropKey
  return { s with keyAllowed := false, ended := true }.push .streamEnd

/-- Takes the mark of the start or end of a document. -/
def fetchDocumentMark (s : Scanner) (t : Token) : Option Scanner := do
  let s ← (s.leaveBlocks none).dropKey
  return { s with keyAllowed := false }.pushMark 3 t

/-- Takes the start of a flow collection, with which a key may start. -/
def fetchFlowStart (s : Scanner) (t : Token) : Option Scanner := do
  let s ← s.openKeyHere
  return { s with outer := s.openKey :: s.outer, openKey := none, keyAllowed := true }.pushMark 1 t

/-- Takes the end of a flow collection. -/
def fetchFlowEnd (s : Scanner) (t : Token) : Option Scanner := do
  let s ← s.dropKey
  let s := match s.outer with
    | [] => s
    | k :: rest => { s with openKey := k, outer := rest }
  return { s with keyAllowed := false }.pushMark 1 t

/-- Takes a comma. -/
def fetchFlowEntry (s : Scanner) : Option Scanner := do
  let s ← s.dropKey
  return { s with keyAllowed := true }.pushMark 1 .flowEntry

/-- Takes the dash before an item. -/
def fetchBlockEntry (s : Scanner) : Option Scanner := do
  if !s.inFlow && !s.keyAllowed then none
  let s ← (s.startBlock s.cursor.column s.count .blockSequenceStart).dropKey
  return { s with keyAllowed := true }.pushMark 1 .blockEntry

/-- Takes the mark of a key. -/
def fetchKey (s : Scanner) : Option Scanner := do
  if !s.inFlow && !s.keyAllowed then none
  let s ← (s.startBlock s.cursor.column s.count .blockMappingStart).dropKey
  return { s with keyAllowed := !s.inFlow }.pushMark 1 .key

/-- Takes a colon that does not end a key on its line. -/
def bareValue (s : Scanner) : Option Scanner :=
  if !s.inFlow && !s.keyAllowed then none
  else
    let s := s.startBlock s.cursor.column s.count .blockMappingStart
    some ({ s with keyAllowed := !s.inFlow }.pushMark 1 .value)

/-- Takes the colon before a value.  If a key may end here, it starts at the open place. -/
def fetchValue (s : Scanner) : Option Scanner :=
  match s.openKey with
  | some k =>
    if k.reaches s.cursor then
      let s := s.insert k.token .key
      let s := s.startBlock k.place.column k.token .blockMappingStart
      some ({ s with openKey := none, keyAllowed := false }.pushMark 1 .value)
    else if k.required then none
    else bareValue { s with openKey := none }
  | none => bareValue s

/-- Takes a scalar in quotes. -/
def fetchQuoted (s : Scanner) (single : Bool) : Option Scanner := do
  let s ← s.openKeyHere
  let (value, c) ← quotedScalar single s.cursor
  return { s with keyAllowed := false, cursor := c }.push (.scalar false value)

/-- Takes a plain scalar.  A key may start behind it if line breaks follow it. -/
def fetchPlain (s : Scanner) : Option Scanner := do
  let s ← s.openKeyHere
  let (value, broken, c) ← plainScalar s.inFlow s.least s.cursor
  let c := if broken then c else c.skipTrailingComment
  return { s with keyAllowed := broken, cursor := c }.push (.scalar true value)

/-- The characters with which no plain scalar starts. -/
def isReserved (c : Char) : Bool :=
  ['-', '?', ':', ',', '[', ']', '\x7b', '\x7d', '#', '&', '*', '!', '|', '>', '\x27', '"', '%',
    '@', '\x60'].contains c

/-- Whether a plain scalar starts with a character.  A dash, a question mark and a colon need
something behind them. -/
def startsPlain (flow : Bool) (c : Char) (rest : List Char) : Bool :=
  !(isReserved c || isBlank c) || (c == '-' && !rest.head?.any isBlank) ||
    (!flow && (c == '?' || c == ':') && !atBlank rest)

/-- Passes over a comment behind the token that was taken. -/
def pastComment (s : Scanner) : Scanner := { s with cursor := s.cursor.skipTrailingComment }

/-- Takes the token that starts with a character. -/
def fetchAt (s : Scanner) (c : Char) (rest : List Char) : Option Scanner :=
  if c == '[' then (s.fetchFlowStart .flowSequenceStart).map pastComment
  else if c == '\x7b' then (s.fetchFlowStart .flowMappingStart).map pastComment
  else if c == ']' then (s.fetchFlowEnd .flowSequenceEnd).map pastComment
  else if c == '\x7d' then (s.fetchFlowEnd .flowMappingEnd).map pastComment
  else if c == ',' then s.fetchFlowEntry.map pastComment
  else if c == '-' && atBlank rest then s.fetchBlockEntry
  else if c == '?' && (s.inFlow || atBlank rest) then s.fetchKey.map pastComment
  else if c == ':' && (s.inFlow || atBlank rest) then s.fetchValue.map pastComment
  else if c == '\x27' then (s.fetchQuoted true).map pastComment
  else if c == '"' then (s.fetchQuoted false).map pastComment
  else if startsPlain s.inFlow c rest then s.fetchPlain
  else none

/-- **Takes a token off the text**, none if no token starts at the next place. -/
def fetch (s : Scanner) : Option Scanner :=
  let s := s.next
  let s := s.leaveBlocks (some s.cursor.column)
  match s.cursor.rest with
  | [] => s.fetchEnd
  | c :: rest =>
    if s.cursor.atMark "---" then s.fetchDocumentMark .documentStart
    else if s.cursor.atMark "..." then s.fetchDocumentMark .documentEnd
    else s.fetchAt c rest

/-! ### All tokens -/

/-- Takes tokens until the text ends or nothing can be taken. -/
def run : Nat → Scanner → Scanner
  | 0, s => s
  | fuel + 1, s =>
    if s.ended then s
    else match s.fetch with
      | some s => run fuel s
      | none => s

/-- Whether it is not settled yet if a key starts with the token with a number. -/
def unsettled (s : Scanner) (number : Nat) : Bool :=
  (s.openKey :: s.outer).any fun k? =>
    k?.any fun k => k.token == number && (k.required || k.reaches s.cursor)

/-- Whether the token with a number can be used. -/
def usable (s : Scanner) (number : Nat) : Bool :=
  s.ended || (number + 3 ≤ s.count && !s.unsettled number)

end Scanner

/-- **The tokens of a text that can be used**, up to the first that can not. -/
def tokens (t : List Char) : List Token :=
  let s := Scanner.run (t.length + 1) { cursor := { rest := t } }
  (s.tokens.reverse.zipIdx.takeWhile fun (_, n) => s.usable n).map fun (t, _) => t

end StackCompiler.Yaml
