/-
**Reading values out of YAML nodes.**

A node is read as a value of a known kind.  It may be of the wrong kind, and it may stand for
nothing; nothing leaves a value as it is where one is set, and is passed over in a list.
-/

import StackCompiler.Yaml.Node

namespace StackCompiler.Yaml

/-- What comes of reading a node. -/
inductive Reading (α : Type) where
  | wrong
  | nothing
  | value (a : α)
deriving Repr

/-- The value, or a given one for nothing. -/
def Reading.getD {α : Type} (r : Reading α) (default : α) : Option α :=
  match r with
  | wrong => none
  | nothing => some default
  | value a => some a

namespace Node

/-- What a scalar stands for: one in quotes stands for its text. -/
def scalar? : Node → Option Scalar
  | scalar plain v => some (if plain then .ofPlain v else .text v)
  | _ => none

/-- Reads a text. -/
def asText (n : Node) : Reading Text :=
  match n, n.scalar? with
  | scalar _ _, some .nothing => .nothing
  | scalar _ v, some _ => .value v
  | _, _ => .wrong

/-- The truth value of a word that stands for one only where a truth value is wanted: it is written
in small letters, in capital letters, or with a capital letter at its start. -/
def boolOfWord? (t : Text) : Option Bool :=
  if ["y", "Y", "yes", "Yes", "YES", "on", "On", "ON"].any (text · == t) then some true
  else if ["n", "N", "no", "No", "NO", "off", "Off", "OFF"].any (text · == t) then some false
  else none

/-- Reads a truth value. -/
def asBool (n : Node) : Reading Bool :=
  match n.scalar? with
  | some .nothing => .nothing
  | some (.bool b) => .value b
  | some (.text t) =>
    match boolOfWord? t with
    | some b => .value b
    | none => .wrong
  | _ => .wrong

/-- Reads an integer with a sign in so many bits.  A number that is not written as an integer is cut
to 64 bits first: what does not fit on the lower side, and `2 ^ 63` itself, become the least
integer. -/
def asSigned (bits : Nat) (n : Node) : Reading Int :=
  let bounded (i : Int) : Reading Int :=
    if -Int.pow 2 (bits - 1) ≤ i ∧ i < Int.pow 2 (bits - 1) then .value i else .wrong
  match n.scalar? with
  | some .nothing => .nothing
  | some (.int i) => bounded i
  | some (.float w) =>
    let bound := Int.pow 2 63
    if bound < w then .wrong
    else bounded (if w < -bound ∨ w = bound then -bound else w)
  | _ => .wrong

/-- Reads an integer without a sign in so many bits.  For a number that is not written as an
integer, `2 ^ 64` wraps around to zero. -/
def asUnsigned (bits : Nat) (n : Node) : Reading Nat :=
  let bounded (i : Int) : Reading Nat :=
    if 0 ≤ i ∧ i < Int.pow 2 bits then .value i.toNat else .wrong
  match n.scalar? with
  | some .nothing => .nothing
  | some (.int i) => bounded i
  | some (.float w) => bounded (if w = Int.pow 2 64 then 0 else w)
  | _ => .wrong

/-- Reads a list. -/
def asList {α : Type} (read : Node → Reading α) : Node → Reading (List α)
  | sequence items =>
    items.foldr (fun item found =>
      match read item, found with
      | .wrong, _ => .wrong
      | .nothing, found => found
      | .value a, .value as => .value (a :: as)
      | .value _, _ => .wrong) (.value [])
  | n => if n.scalar? = some .nothing then .nothing else .wrong

/-- The entries of a mapping by name; a key that stands for nothing is passed over. -/
def named : List (Node × Node) → Option (List (Text × Node))
  | [] => some []
  | (key, value) :: rest =>
    match key.asText with
    | .wrong => none
    | .nothing => named rest
    | .value name => (named rest).map ((name, value) :: ·)

/-- Reads a mapping by names. -/
def asRecord : Node → Reading (List (Text × Node))
  | mapping entries =>
    match named entries with
    | some fields => .value fields
    | none => .wrong
  | n => if n.scalar? = some .nothing then .nothing else .wrong

/-- Reads a mapping from names to truth values, where nothing stands for falsehood. -/
def asSwitches (n : Node) : Reading (List (Text × Bool)) :=
  match n.asRecord with
  | .wrong => .wrong
  | .nothing => .nothing
  | .value fields =>
    match fields.mapM fun (name, v) => (v.asBool.getD false).map fun b => (name, b) with
    | some switches => .value switches
    | none => .wrong

end Node

/-- A mapping by names. -/
abbrev Record := List (Text × Node)

/-- The value of a field, or a given one if it is absent; none if it is of the wrong kind. -/
def Record.get {α : Type} (r : Record) (name : String) (read : Node → Reading α) (default : α) :
    Option α :=
  match r.lookup (text name) with
  | some n => (read n).getD default
  | none => some default

end StackCompiler.Yaml
