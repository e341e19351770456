/-
**JSON.**

Values and their text, on one line or indented.  Besides quotes, backslashes and control characters,
the characters that mean something in a web page are escaped too, and bytes that are no UTF-8 become
the replacement character.
-/

import StackCompiler.Text.Numeral
import StackCompiler.Text.Piece

namespace StackCompiler.JsonText

/-- A value.  Numbers are kept as they are written. -/
inductive Value where
  | null
  | bool (b : Bool)
  | number (written : Text)
  | string (t : Text)
  | array (items : List Value)
  | object (fields : List (Text × Value))

/-- An integer. -/
def Value.int (n : Int) : Value := .number (Numeral.signed n)

/-- A character by its number. -/
def escaped (n : Nat) : Text := text "\\u" ++ Numeral.hexPadded 4 n

/-- A character inside quotes. -/
def quoteChar (c : Char) : Text :=
  match c.toNat with
  | 34 => text "\\\""
  | 92 => text "\\\\"
  | 8 => text "\\b"
  | 12 => text "\\f"
  | 10 => text "\\n"
  | 13 => text "\\r"
  | 9 => text "\\t"
  | n =>
    if n < 32 ∨ n = 60 ∨ n = 62 ∨ n = 38 ∨ n = 0x2028 ∨ n = 0x2029 then escaped n
    else String.utf8EncodeChar c

/-- **A string as text.** -/
def quote (t : Text) : Text :=
  text "\"" ++ (Text.pieces t).flatMap (fun
    | .char c => quoteChar c
    | .stray _ => String.utf8EncodeChar '\ufffd') ++ text "\""

/-- Where a line ends in an indented text, and how far the next one is indented. -/
def lineBreak (level : Nat) : Text := 10 :: Text.blanks (2 * level)

/-- How a value is laid out: on one line, or indented from a level on. -/
abbrev Layout := Option Nat

/-- The break before an item. -/
def itemBreak (l : Layout) : Text := (l.map fun level => lineBreak (level + 1)).getD []

/-- The break behind the last item. -/
def endBreak (l : Layout) : Text := (l.map lineBreak).getD []

/-- What separates a name from its value. -/
def colon (l : Layout) : Text := text (if l.isSome then ": " else ":")

mutual

/-- A value as text. -/
def Value.render (l : Layout) : Value → Text
  | .null => text "null"
  | .bool b => text (if b then "true" else "false")
  | .number written => written
  | .string t => quote t
  | .array [] => text "[]"
  | .array (item :: items) =>
    text "[" ++ itemBreak l ++ item.render (l.map (· + 1)) ++ renderItems l items ++ endBreak l ++
      text "]"
  | .object [] => text "\x7b\x7d"
  | .object ((name, v) :: fields) =>
    text "\x7b" ++ itemBreak l ++ quote name ++ colon l ++ v.render (l.map (· + 1)) ++
      renderFields l fields ++ endBreak l ++ text "\x7d"

/-- The text of the items behind the first one. -/
def renderItems (l : Layout) : List Value → Text
  | [] => []
  | item :: items =>
    text "," ++ itemBreak l ++ item.render (l.map (· + 1)) ++ renderItems l items

/-- The text of the fields behind the first one. -/
def renderFields (l : Layout) : List (Text × Value) → Text
  | [] => []
  | (name, v) :: fields =>
    text "," ++ itemBreak l ++ quote name ++ colon l ++ v.render (l.map (· + 1)) ++
      renderFields l fields

end

/-- **A value on one line.** -/
def Value.compact (v : Value) : Text := v.render none

/-- **A value, indented.** -/
def Value.indented (v : Value) : Text := v.render (some 0)

/-- The field of a text that is left out if it is empty. -/
def optionalText (name : String) (t : Text) : List (Text × Value) :=
  if t.isEmpty then [] else [(text name, .string t)]

end StackCompiler.JsonText
