/-
**Patterns of names.**

In a pattern a star stands for any bytes, a question mark for any character, and brackets for one
character of a class.  A backslash takes the meaning from what follows it.  Patterns are matched
chunk by chunk, where a chunk is what stands between two stars: every chunk but the last takes the
first place where it fits.
-/

import StackCompiler.Text.Piece

namespace StackCompiler.Pattern

/-- A part of a pattern other than a star. -/
inductive Token where
  | literal (b : UInt8)
  | any
  /-- A character whose code is in one of some ranges, or in none of them. -/
  | oneOf (negated : Bool) (ranges : List (Nat × Nat))
deriving DecidableEq, Repr

/-- A part of a pattern up to the next star. -/
structure Chunk where
  star : Bool
  tokens : List Token
deriving DecidableEq, Repr

/-! ### Reading -/

/-- Takes a character off a text, which must not end with it. -/
def classChar? (t : Text) : Option (Nat × Text) := do
  let t ← match t with
    | [] | 45 :: _ | 93 :: _ => none
    | 92 :: rest => some rest
    | _ => some t
  let (c, rest) ← Text.headChar? t
  if rest.isEmpty then none else some (c.toNat, rest)

/-- A range of a class. -/
def classRange? (t : Text) : Option ((Nat × Nat) × Text) := do
  let (low, rest) ← classChar? t
  match rest with
  | 45 :: rest =>
    let (high, rest) ← classChar? rest
    return ((low, high), rest)
  | _ => return ((low, low), rest)

/-- Reads the ranges of a class up to its end.  There is at least one. -/
def classRanges? : Nat → Text → List (Nat × Nat) → Option (List (Nat × Nat) × Text)
  | 0, _, _ => none
  | fuel + 1, t, seen =>
    match t, seen with
    | 93 :: rest, _ :: _ => some (seen.reverse, rest)
    | _, _ => do
      let (range, rest) ← classRange? t
      classRanges? fuel rest (range :: seen)

/-- Adds a token to the last chunk. -/
def push (token : Token) : List Chunk → List Chunk
  | [] => [⟨false, [token]⟩]
  | chunk :: before => { chunk with tokens := token :: chunk.tokens } :: before

/-- Adds a star; two stars are as good as one. -/
def pushStar : List Chunk → List Chunk
  | ⟨true, []⟩ :: before => ⟨true, []⟩ :: before
  | before => ⟨true, []⟩ :: before

/-- Reads a pattern.  The chunks before it and their tokens are in reverse. -/
def parseFrom : Nat → Text → List Chunk → Option (List Chunk)
  | 0, t, chunks => if t.isEmpty then some chunks else none
  | fuel + 1, t, chunks =>
    match t with
    | [] => some chunks
    | 42 :: rest => parseFrom fuel rest (pushStar chunks)
    | 63 :: rest => parseFrom fuel rest (push .any chunks)
    | 91 :: rest => do
      let (negated, rest) := match rest with
        | 94 :: rest => (true, rest)
        | _ => (false, rest)
      let (ranges, rest) ← classRanges? (rest.length + 1) rest []
      parseFrom fuel rest (push (.oneOf negated ranges) chunks)
    | [92] => none
    | 92 :: b :: rest => parseFrom fuel rest (push (.literal b) chunks)
    | b :: rest => parseFrom fuel rest (push (.literal b) chunks)

/-- **The chunks of a pattern**, none if it is malformed. -/
def parse (t : Text) : Option (List Chunk) :=
  (parseFrom t.length t []).map fun chunks =>
    chunks.reverse.map fun c => { c with tokens := c.tokens.reverse }

/-- Whether a text has a character with a meaning in patterns. -/
def isProper (t : Text) : Bool := t.any fun b => b == 42 || b == 63 || b == 91 || b == 92

/-! ### Matching -/

/-- The code of the first character of a text, and what follows it. -/
def headCode? (t : Text) : Option (Nat × Text) :=
  match t with
  | [] => none
  | b :: rest =>
    match Text.headChar? t with
    | some (c, rest) => some (c.toNat, rest)
    | none => some ((Text.Piece.stray b).code, rest)

/-- What a token leaves of a name, none if it does not fit. -/
def Token.take (token : Token) (name : Text) : Option Text :=
  match token with
  | literal b =>
    match name with
    | [] => none
    | c :: rest => if b = c then some rest else none
  | any => (headCode? name).map (·.2)
  | oneOf negated ranges => do
    let (code, rest) ← headCode? name
    if ranges.any (fun (low, high) => low ≤ code && code ≤ high) != negated then some rest else none

/-- What tokens leave of a name, none if they do not fit.  The last tokens leave nothing. -/
def takeAll (last : Bool) (tokens : List Token) (name : Text) : Option Text :=
  (tokens.foldlM (fun name token => Token.take token name) name).filter fun rest =>
    !last || rest.isEmpty

/-- What tokens leave of a name at the first place where they fit. -/
def takeFirst (last : Bool) (tokens : List Token) : Text → Option Text
  | [] => takeAll last tokens []
  | c :: rest => (takeAll last tokens (c :: rest)).orElse fun _ => takeFirst last tokens rest

/-- Whether chunks match a name. -/
def matchChunks : List Chunk → Text → Bool
  | [], name => name.isEmpty
  | [⟨true, []⟩], _ => true
  | ⟨star, tokens⟩ :: rest, name =>
    match (if star then takeFirst rest.isEmpty tokens name
        else takeAll rest.isEmpty tokens name) with
    | some left => matchChunks rest left
    | none => false

/-- **Whether a name fits a pattern.**  Nothing fits a malformed one. -/
def matchName (pattern name : Text) : Bool :=
  match parse pattern with
  | some chunks => matchChunks chunks name
  | none => false

end StackCompiler.Pattern
