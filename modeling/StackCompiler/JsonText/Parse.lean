/-
**Reading JSON.**

A text is read as one value.  An error shows the first character or escape sequence that can not
stand where it does.
-/

import StackCompiler.JsonText.Value
import StackCompiler.Text.Blank
import StackCompiler.Text.Quoted

namespace StackCompiler.JsonText

/-- What is wrong with a text. -/
inductive SyntaxError where
  | ended
  | unexpected (p : Text.Piece) (place : Text)
  | escape (written : Text)
  | depth
deriving DecidableEq, Repr

/-- A piece in quotes. -/
def shown (p : Text.Piece) : Text :=
  let body := match p with
    | .char '\x27' => text "\\'"
    | .char '"' => text "\""
    | p => Text.quotePiece p
  text "'" ++ body ++ text "'"

/-- Whether a character is not shown as it is between backquotes. -/
def isObscure : Text.Piece → Bool
  | .stray _ => true
  | .char c =>
    c == '\x60' || c == '\ufffd' || Text.isBlank (.char c) || !Text.isPrintable c.toNat

/-- An escape sequence between backquotes, or between quotes if it has an obscure character. -/
def shownEscape (t : Text) : Text :=
  if (Text.pieces t).any isObscure then Text.quote t else text "\x60" ++ t ++ text "\x60"

/-- The text of a failure. -/
def SyntaxError.message : SyntaxError → Text
  | ended => text "unexpected end of JSON input"
  | unexpected p place => text "invalid character " ++ shown p ++ text " " ++ place
  | escape written => text "invalid escape sequence " ++ shownEscape written ++ text " in string"
  | depth => text "exceeded max depth"

/-- What comes of reading. -/
abbrev Result := Except SyntaxError

/-- Passes over blanks. -/
def skip (t : Text) : Text := t.dropWhile fun c => c == 32 || c == 9 || c == 10 || c == 13

/-- An error at the first character of a text. -/
def failAt {α : Type} (t : Text) (place : Text) : Result α :=
  -- No character is longer than four bytes.
  match Text.pieces (t.take 4) with
  | [] => .error .ended
  | p :: _ => .error (.unexpected p place)

/-! ### Scalars -/

/-- What follows the letters of a word that are left. -/
def word (name : Text) : Text → Text → Result Text
  | [], t => .ok t
  | _ :: _, [] => .error .ended
  | letter :: letters, c :: t =>
    if c = letter then word name letters t
    else failAt (c :: t)
      (text "in literal " ++ name ++ text " (expecting '" ++ [letter] ++ text "')")

/-- Whether a byte is a digit. -/
def isDigit (c : UInt8) : Bool := 48 ≤ c && c ≤ 57

/-- At least one digit, and those that follow it. -/
def digits (t : Text) : Result (Text × Text) :=
  if t.head?.any isDigit then .ok (t.takeWhile isDigit, t.dropWhile isDigit)
  else failAt t (text "in numeric literal")

/-- The exponent of a number, if there is one. -/
def exponent (t : Text) : Result (Text × Text) :=
  match t with
  | e :: rest =>
    if e = 101 ∨ e = 69 then do
      let (sign, rest) : Text × Text := match rest with
        | 43 :: rest => ([43], rest)
        | 45 :: rest => ([45], rest)
        | rest => ([], rest)
      let (ds, rest) ← digits rest
      return (e :: (sign ++ ds), rest)
    else .ok ([], t)
  | [] => .ok ([], [])

/-- The fraction of a number, if there is one. -/
def fraction (t : Text) : Result (Text × Text) :=
  match t with
  | 46 :: rest => do
    let (ds, rest) ← digits rest
    return (46 :: ds, rest)
  | t => .ok ([], t)

/-- A number without its sign. -/
def magnitude (t : Text) : Result (Text × Text) := do
  let (whole, rest) ← match t with
    | 48 :: rest => Except.ok ([48], rest)
    | t => digits t
  let (part, rest) ← fraction rest
  let (power, rest) ← exponent rest
  return (whole ++ part ++ power, rest)

/-- A number. -/
def number (t : Text) : Result (Text × Text) :=
  match t with
  | 45 :: rest => (magnitude rest).map fun (n, rest) => (45 :: n, rest)
  | t => magnitude t

/-- The value of a hexadecimal digit. -/
def hexValue? (c : UInt8) : Option Nat := (Numeral.value? c).filter (· < 16)

/-- The number of a text that starts with a backslash, a letter and four hexadecimal digits. -/
def hexEscape (t : Text) : Result (Nat × Text) :=
  let written := t.take 6
  match (written.drop 2).mapM hexValue? with
  | none => .error (.escape written)
  | some ds =>
    if written.length < 6 then .error .ended
    else .ok (ds.foldl (fun n d => n * 16 + d) 0, t.drop 6)

/-- What a letter behind a backslash stands for. -/
def escape? (c : UInt8) : Option UInt8 :=
  match c.toNat with
  | 98 => some 8
  | 102 => some 12
  | 110 => some 10
  | 114 => some 13
  | 116 => some 9
  | 92 => some 92
  | 47 => some 47
  | 34 => some 34
  | _ => none

/-- The bytes of a character by its number, the replacement character if there is none. -/
def charBytes (n : Nat) : Text :=
  String.utf8EncodeChar (if n.isValidChar then Char.ofNat n else Char.ofNat 0xFFFD)

/-- Whether a number is the first half of a pair that stands for one character. -/
def isHighHalf (n : Nat) : Bool := 0xD800 ≤ n && n < 0xDC00

/-- Whether a number is the second half of such a pair. -/
def isLowHalf (n : Nat) : Bool := 0xDC00 ≤ n && n < 0xE000

/-- The character of a pair of which the first half is given, and what follows it. -/
def pair? (high : Nat) (t : Text) : Option (Nat × Text) :=
  if isHighHalf high && (text "\\u").isPrefixOf t then
    match hexEscape t with
    | .ok (low, rest) =>
      if isLowHalf low then some (0x10000 + (high - 0xD800) * 0x400 + (low - 0xDC00), rest)
      else none
    | .error _ => none
  else none

/-- The rest of a string up to its closing quote, behind bytes in reverse. -/
def stringFrom : Nat → Text → Text → Result (Text × Text)
  | 0, _, _ => .error .ended
  | _, [], _ => .error .ended
  | fuel + 1, c :: t, seen =>
    if c = 34 then .ok (seen.reverse, t)
    else if c < 32 then failAt (c :: t) (text "in string")
    else if c = 92 then
      match t with
      | [] => .error .ended
      | 117 :: _ => do
        let (n, t) ← hexEscape (c :: t)
        let (n, t) := (pair? n t).getD (n, t)
        stringFrom fuel t ((charBytes n).reverse ++ seen)
      | e :: t =>
        match escape? e with
        | some b => stringFrom fuel t (b :: seen)
        | none => .error (.escape [c, e])
    else stringFrom fuel t (c :: seen)

/-- Bytes that are no UTF-8 become the replacement character. -/
def repaired (t : Text) : Text :=
  (Text.pieces t).flatMap fun
    | .char c => String.utf8EncodeChar c
    | .stray _ => charBytes 0xFFFD

/-- The rest of a string. -/
def string (t : Text) : Result (Text × Text) :=
  (stringFrom (t.length + 1) t []).map fun (s, rest) => (repaired s, rest)

/-! ### Values -/

/-- A word that stands for a value. -/
def constant (name : String) (v : Value) (t : Text) : Result (Value × Text) := do
  let rest ← word (text name) (text name) t
  return (v, rest)

/-- How deep values may be nested. -/
def deepest : Nat := 10000

mutual

/-- A value with so many others around it, and what follows it. -/
def value : Nat → (depth : Nat) → Text → Result (Value × Text)
  | 0, _, _ => .error .ended
  | fuel + 1, depth, t =>
    match skip t with
    | [] => .error .ended
    | c :: t =>
      match c.toNat with
      | 123 => do
        if depth = deepest then .error .depth
        let (fields, t) ← object fuel (depth + 1) t
        return (.object fields, t)
      | 91 => do
        if depth = deepest then .error .depth
        let (items, t) ← array fuel (depth + 1) t
        return (.array items, t)
      | 34 => do
        let (s, t) ← string t
        return (.string s, t)
      | 116 => constant "true" (.bool true) (c :: t)
      | 102 => constant "false" (.bool false) (c :: t)
      | 110 => constant "null" .null (c :: t)
      | _ =>
        if c = 45 ∨ isDigit c then do
          let (n, t) ← number (c :: t)
          return (.number n, t)
        else failAt (c :: t) (text "looking for beginning of value")

/-- The items of an array whose opening bracket has been read. -/
def array : Nat → (depth : Nat) → Text → Result (List Value × Text)
  | 0, _, _ => .error .ended
  | fuel + 1, depth, t =>
    match skip t with
    | 93 :: t => .ok ([], t)
    | t => items fuel depth t []

/-- Items up to the end of an array, behind others in reverse. -/
def items : Nat → (depth : Nat) → Text → List Value → Result (List Value × Text)
  | 0, _, _, _ => .error .ended
  | fuel + 1, depth, t, seen => do
    let (v, t) ← value fuel depth t
    match skip t with
    | 44 :: t => items fuel depth t (v :: seen)
    | 93 :: t => .ok ((v :: seen).reverse, t)
    | t => failAt t (text "after array element")

/-- The fields of an object whose opening brace has been read. -/
def object : Nat → (depth : Nat) → Text → Result (List (Text × Value) × Text)
  | 0, _, _ => .error .ended
  | fuel + 1, depth, t =>
    match skip t with
    | 125 :: t => .ok ([], t)
    | t => fields fuel depth t []

/-- Fields up to the end of an object, behind others in reverse. -/
def fields : Nat → (depth : Nat) → Text → List (Text × Value) →
    Result (List (Text × Value) × Text)
  | 0, _, _, _ => .error .ended
  | fuel + 1, depth, t, seen =>
    match skip t with
    | 34 :: t => do
      let (name, t) ← string t
      match skip t with
      | 58 :: t =>
        let (v, t) ← value fuel depth t
        match skip t with
        | 44 :: t => fields fuel depth t ((name, v) :: seen)
        | 125 :: t => .ok (((name, v) :: seen).reverse, t)
        | t => failAt t (text "after object key:value pair")
      | t => failAt t (text "after object key")
    | t => failAt t (text "looking for beginning of object key string")

end

/-- **The value of a text.**  No character takes more than three steps. -/
def parse (t : Text) : Result Value := do
  let (v, rest) ← value (3 * t.length + 3) 0 t
  match skip rest with
  | [] => .ok v
  | rest => failAt rest (text "after top-level value")

end StackCompiler.JsonText
