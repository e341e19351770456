/-
**Reading values out of JSON.**

A value is read as one of a known kind.  Null leaves a text or a number as it is.  What is of
another kind is reported with its route: the way to it from the whole value, by the names of fields
and the numbers of items.
-/

import StackCompiler.JsonText.Value

namespace StackCompiler.JsonText

/-! ### Routes -/

/-- A step from a value to a part of it. -/
inductive Step where
  | field (name : Text)
  | item (number : Nat)
deriving DecidableEq, Repr

/-- The way from a whole value to a part of it. -/
abbrev Route := List Step

/-- A step as it is shown.  A tilde in a name becomes `~0`, a slash becomes `~1`. -/
def Step.shown : Step → Text
  | field name =>
    name.flatMap fun c => if c = 126 then text "~0" else if c = 47 then text "~1" else [c]
  | item number => Numeral.decimal number

/-- A route as text. -/
def Route.shown (p : Route) : Text := Text.join (text ".") (p.map Step.shown)

/-! ### Values of the wrong kind -/

/-- A value of the wrong kind. -/
structure Mismatch where
  found : Text
  route : Route
  wanted : String
deriving DecidableEq, Repr

/-- The text of a mismatch. -/
def Mismatch.message (m : Mismatch) : Text :=
  let way := m.route.shown
  text "json: cannot unmarshal " ++ m.found ++ text " into Go " ++
    (if way.isEmpty then text "value" else text "struct field ." ++ way) ++
    text " of type " ++ text m.wanted

namespace Value

/-- What a value is called when it is of the wrong kind. -/
def kind : Value → Text
  | null => text "null"
  | bool _ => text "bool"
  | number _ => text "number"
  | string _ => text "string"
  | array _ => text "array"
  | object _ => text "object"

/-- Fails for a value of the wrong kind. -/
def mismatch {α : Type} (v : Value) (p : Route) (wanted : String) : Except Mismatch α :=
  .error ⟨v.kind, p, wanted⟩

/-! ### Values of known kinds -/

/-- **Reads a text.**  Null leaves the old one. -/
def asText (p : Route) (old : Text) : Value → Except Mismatch Text
  | null => .ok old
  | string t => .ok t
  | v => v.mismatch p "string"

/-- **Reads an integer of so many bits.**  Null leaves the old one, and a number that is no such
integer is reported as it is written. -/
def asInt (p : Route) (wanted : String) (bits : Nat) (old : Int) : Value → Except Mismatch Int
  | null => .ok old
  | number written =>
    match Numeral.readSigned (some 10) bits written with
    | .ok n => .ok n
    | .error _ => .error ⟨text "number " ++ written, p, wanted⟩
  | v => v.mismatch p wanted

/-- **Reads a list of texts.**  Null stands for the empty list, but for an item it leaves the one
that was in its place. -/
def asTexts (p : Route) (old : List Text) : Value → Except Mismatch (List Text)
  | null => .ok []
  | array items => items.zipIdx.mapM fun (v, n) => v.asText (p ++ [.item n]) (old[n]?.getD [])
  | v => v.mismatch p "[]string"

end Value

/-! ### Names of fields -/

/-- The small letter of a letter.  The long s and the sign for kelvin are letters too. -/
def foldedCode (n : Nat) : Nat :=
  if 65 ≤ n ∧ n ≤ 90 then n + 32 else if n = 0x17F then 115 else if n = 0x212A then 107 else n

/-- Whether a name stands for a field, whose own name is ASCII.  Capital letters count as small
ones. -/
def namesField (name : Text) (field : String) : Bool :=
  (Text.pieces name).map (foldedCode ·.code) == (text field).map (foldedCode ·.toNat)

end StackCompiler.JsonText
