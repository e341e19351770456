/-
**Flags.**

A flag has a name, perhaps a one-letter shorthand, and a value of one of four kinds.  Assigning a
text to a flag replaces its value, except for lists, which grow.
-/

import StackCompiler.Text.Quoted

namespace StackCompiler.CommandLine

/-- What can be wrong with a command line. -/
inductive ParseError where
  /-- There is nothing between the dashes and the equals sign. -/
  | emptyName
  | unknownFlag (name : Text)
  | unknownShorthand (letter : Text)
  /-- A flag that needs a value stands last. -/
  | missingValue (shown : Text)
  | badBool (value : Text)
  | badInt (value : Text)
deriving DecidableEq, Repr

/-- The text of what is wrong with arguments. -/
def ParseError.message : ParseError → Text
  | emptyName => text "empty flag name"
  | unknownFlag name => text "unknown flag: --" ++ name
  | unknownShorthand letter => text "unknown shorthand flag: -" ++ letter
  | missingValue shown => text "flag needs an argument: " ++ shown
  | badBool value =>
    text "invalid boolean value '" ++ value ++ text "': strconv.ParseBool: parsing " ++
      Text.quote value ++ text ": invalid syntax"
  | badInt value => text "invalid integer value '" ++ value ++ text "'"

/-- The value of a flag. -/
inductive Value where
  | text (t : Text)
  | bool (b : Bool)
  | int (n : Int64)
  | list (ts : List Text)
deriving DecidableEq, Repr

namespace Value

/-- The truth value that a text stands for. -/
def readBool? (t : Text) : Option Bool :=
  if ["1", "t", "T", "TRUE", "true", "True"].any (StackCompiler.text · == t) then some true
  else if ["0", "f", "F", "FALSE", "false", "False"].any (StackCompiler.text · == t) then
    some false
  else none

/-- **What assigning a text does to a value.**  The empty text turns a switch on. -/
def assign (v : Value) (t : Text) : Except ParseError Value :=
  match v with
  | text _ => .ok (text t)
  | bool _ =>
    if t.isEmpty then .ok (bool true)
    else match readBool? t with
      | some b => .ok (bool b)
      | none => .error (.badBool t)
  | int _ =>
    match Numeral.readSigned none 64 t with
    | .ok n => .ok (int (Int64.ofInt n))
    | .error _ => .error (.badInt t)
  | list ts => .ok (list (ts ++ [t]))

/-- A value as text. -/
def render : Value → Text
  | text t => t
  | bool b => StackCompiler.text (if b then "true" else "false")
  | int n => Numeral.signed n.toInt
  | list ts => Text.join (StackCompiler.text ", ") ts

/-- A value as it is shown where it is the one from the start. -/
def renderDefault : Value → Text
  | list ts => Text.join (StackCompiler.text ",") ts
  | v => v.render

/-- Whether a value is a truth value. -/
def isBool : Value → Bool
  | bool _ => true
  | _ => false

end Value

/-- A flag. -/
structure Flag where
  name : Text
  /-- The shorthand, empty if there is none. -/
  shorthand : Text := []
  usage : Text := []
  initial : Text := []
  expected : Text := []
  value : Value
deriving DecidableEq, Repr

namespace Flag

/-- A flag with its first value. -/
def ofValue (name shorthand : Text) (value : Value) (usage expected : Text) : Flag :=
  { name, shorthand, usage, expected, value, initial := value.renderDefault }

/-- How a flag is shown among the options. -/
def display (f : Flag) : Text :=
  let expected := text "<" ++ f.expected ++ text ">"
  if !f.shorthand.isEmpty then
    if f.value.isBool then text "-" ++ f.shorthand ++ text ", --" ++ f.name
    else text "-" ++ f.shorthand ++ text " " ++ expected ++ text ", --" ++ f.name ++ text " " ++
      expected
  else if f.value.isBool || f.expected.isEmpty then text "--" ++ f.name
  else text "--" ++ f.name ++ text "=" ++ f.expected

end Flag

end StackCompiler.CommandLine
