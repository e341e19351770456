/-
**From tokens to YAML documents.**

A document is put together out of tokens.  Only the first document of a text is read, and what
follows it only matters as far as its tokens are needed to see that the document is over.  What
settings files and manifests do not need is refused: directives, tags, names of nodes and blocks of
lines.
-/

import StackCompiler.Text.Piece
import StackCompiler.Yaml.Node
import StackCompiler.Yaml.Scan

namespace StackCompiler.Yaml

/-! ### Reading tokens -/

/-- Reads tokens, and fails where they do not fit. -/
abbrev Builder := StateT (List Token) Option

/-- The next token. -/
def peek : Builder Token := do
  match ← get with
  | t :: _ => return t
  | [] => failure

/-- Passes over a token. -/
def skip : Builder Unit := modify (·.drop 1)

/-- Passes over a token, and gives the one behind it. -/
def skipTo : Builder Token := do
  skip
  peek

/-! ### Nodes -/

/-- Whether a token ends an entry of a block. -/
def endsBlockEntry (t : Token) : Bool := t == .key || t == .value || t == .blockEnd

mutual

/-- **A node.**  Blocks are only read where they may stand; the items of a sequence that is the
value of an entry may start at the column of its key. -/
def node : Nat → (block bare : Bool) → Builder Node
  | 0, _, _ => failure
  | fuel + 1, block, bare => do
    match ← peek with
    | .scalar plain value =>
      skip
      return .scalar plain value
    | .flowSequenceStart =>
      skip
      return .sequence (← flowItems fuel true)
    | .flowMappingStart =>
      skip
      return .ofEntries (← flowEntries fuel true)
    | .blockEntry => if bare then return .sequence (← bareItems fuel) else failure
    | .blockSequenceStart =>
      if block then
        skip
        return .sequence (← blockItems fuel)
      else failure
    | .blockMappingStart =>
      if block then
        skip
        return .ofEntries (← blockEntries fuel)
      else failure
    | _ => failure

/-- The items of a block sequence. -/
def blockItems : Nat → Builder (List Node)
  | 0 => failure
  | fuel + 1 => do
    match ← peek with
    | .blockEntry =>
      let t ← skipTo
      let item ← if t == .blockEntry || t == .blockEnd then pure .nothing else node fuel true false
      return item :: (← blockItems fuel)
    | .blockEnd =>
      skip
      return []
    | _ => failure

/-- The items of a sequence at the column of its key. -/
def bareItems : Nat → Builder (List Node)
  | 0 => failure
  | fuel + 1 => do
    match ← peek with
    | .blockEntry =>
      let t ← skipTo
      let item ← if t == .blockEntry || endsBlockEntry t then pure .nothing
        else node fuel true false
      return item :: (← bareItems fuel)
    | _ => return []

/-- The entries of a block mapping. -/
def blockEntries : Nat → Builder (List (Node × Node))
  | 0 => failure
  | fuel + 1 => do
    match ← peek with
    | .key =>
      let t ← skipTo
      let key ← if endsBlockEntry t then pure .nothing else node fuel true true
      let value ← blockValue fuel
      return (key, value) :: (← blockEntries fuel)
    | .blockEnd =>
      skip
      return []
    | _ => failure

/-- The value of an entry of a block. -/
def blockValue : Nat → Builder Node
  | 0 => failure
  | fuel + 1 => do
    match ← peek with
    | .value =>
      let t ← skipTo
      if endsBlockEntry t then return .nothing else node fuel true true
    | _ => return .nothing

/-- The items of a flow sequence; a comma stands before all but the first.  A key makes a mapping of
an item. -/
def flowItems : Nat → (first : Bool) → Builder (List Node)
  | 0, _ => failure
  | fuel + 1, first => do
    let t ← peek
    if t == .flowSequenceEnd then
      skip
      return []
    let t ← if first then pure t else if t == .flowEntry then skipTo else failure
    if t == .flowSequenceEnd then
      skip
      return []
    let item ← if t == .key then
        skip
        flowPair fuel
      else node fuel false false
    return item :: (← flowItems fuel false)

/-- The mapping of an item of a flow sequence, behind the mark of its key. -/
def flowPair : Nat → Builder Node
  | 0 => failure
  | fuel + 1 => do
    let t ← peek
    let key ← if t == .value || t == .flowEntry || t == .flowSequenceEnd then
        -- What stands in place of the key is passed over.
        skip
        pure .nothing
      else node fuel false false
    match ← peek with
    | .value =>
      let t ← skipTo
      let value ← if t == .flowEntry || t == .flowSequenceEnd then pure .nothing
        else node fuel false false
      return .ofEntries [(key, value)]
    | _ => return .ofEntries [(key, .nothing)]

/-- The entries of a flow mapping; a comma stands before all but the first. -/
def flowEntries : Nat → (first : Bool) → Builder (List (Node × Node))
  | 0, _ => failure
  | fuel + 1, first => do
    let t ← peek
    if t == .flowMappingEnd then
      skip
      return []
    let t ← if first then pure t else if t == .flowEntry then skipTo else failure
    if t == .flowMappingEnd then
      skip
      return []
    let entry ← if t == .key then do
        let t ← skipTo
        let key ← if t == .value || t == .flowEntry || t == .flowMappingEnd then pure .nothing
          else node fuel false false
        pure (key, ← flowMappingValue fuel)
      else do
        let key ← node fuel false false
        pure (key, .nothing)
    return entry :: (← flowEntries fuel false)

/-- The value of an entry of a flow mapping. -/
def flowMappingValue : Nat → Builder Node
  | 0 => failure
  | fuel + 1 => do
    match ← peek with
    | .value =>
      let t ← skipTo
      if t == .flowEntry || t == .flowMappingEnd then return .nothing else node fuel false false
    | _ => return .nothing

end

/-! ### Documents -/

/-- Whether a token starts or ends a document. -/
def isDocumentMark : Token → Bool
  | .documentStart | .documentEnd | .streamEnd => true
  | _ => false

/-- **The first document.**  Behind it there has to be a token. -/
def document (fuel : Nat) : Builder Node := do
  let t ← peek
  if t == .streamEnd then return .nothing
  let n ← if t == .documentStart then do
      let t ← skipTo
      if isDocumentMark t then pure .nothing else node fuel true false
    else node fuel true false
  let _ ← peek
  return n

/-! ### Texts -/

/-- Whether a character may stand in a text. -/
def isReadable (c : Char) : Bool :=
  let n := c.toNat
  n == 9 || n == 10 || n == 13 || (32 ≤ n && n ≤ 126) || n == 0x85 || (0xA0 ≤ n && n ≤ 0xFFFD) ||
    0x10000 ≤ n

/-- The characters of a text, none if one of them may not stand in it. -/
def characters? (t : Text) : Option (List Char) :=
  (Text.pieces (Text.dropFront [0xEF, 0xBB, 0xBF] t)).mapM fun
    | .char c => if isReadable c then some c else none
    | .stray _ => none

/-- **The first document of a text**, none if it is malformed. -/
def parse (t : Text) : Option Node := do
  let all := tokens (← characters? t)
  let (n, _) ← (document (4 * all.length + 8)).run all
  return n

end StackCompiler.Yaml
