/-
**Statements.**

A line of assembly holds labels, each followed by a colon, and then at most one instruction.  A
`#` starts a comment.  What starts with a point is a directive and stands for nothing.  Commas and
parentheses separate operands as blanks do, and mnemonics are taken in lower case.
-/

import StackCompiler.Assembly.Error
import StackCompiler.Text.Letter
import StackCompiler.Text.Lowercase

namespace StackCompiler.Assembly

/-- An instruction as it is written. -/
structure Written where
  mnemonic : Text
  operands : List Text
deriving DecidableEq, Repr

/-- A line of assembly taken apart. -/
structure Statement where
  /-- The number of the line, counted from one. -/
  line : Nat
  source : Text
  labels : List Text
  instruction : Option Written
deriving DecidableEq, Repr

namespace Statement

/-- A line without its comment and without the blanks around what is left. -/
def significant (source : Text) : Text := Text.trim (Text.upTo 35 source)

/-- What starts with a point is a directive. -/
def isDirective (t : Text) : Bool := t.head? == some 46

/-- A blank or a comma keeps the text before a colon from being a label. -/
def holdsSeparator (t : Text) : Bool := t.any fun c => c == 32 || c == 9 || c == 44

/-- Takes labels off the front of a text of at most `fuel` bytes.  A name that is no identifier is
returned as an error. -/
def takeLabels : Nat → Text → List Text → Except Text (List Text × Text)
  | 0, t, labels => .ok (labels.reverse, t)
  | fuel + 1, t, labels =>
    if t.isEmpty || isDirective t then .ok (labels.reverse, t)
    else match Text.cut 58 t with
      | ([], _) | (_, none) => .ok (labels.reverse, t)
      | (front, some rest) =>
        let name := Text.trim front
        if holdsSeparator name then .ok (labels.reverse, t)
        else if Text.isIdentifier name then takeLabels fuel (Text.trim rest) (name :: labels)
        else .error name

/-- Commas and parentheses become blanks. -/
def blankSeparators (t : Text) : Text :=
  t.map fun c => if c = 44 ∨ c = 40 ∨ c = 41 then 32 else c

/-- **Takes a line apart.** -/
def parse (line : Nat) (source : Text) : Except Failure Statement :=
  let t := significant source
  match takeLabels t.length t [] with
  | .error name => .error (.line ⟨line, source, .operand (.invalidLabel name)⟩)
  | .ok (labels, rest) =>
    if rest.isEmpty || isDirective rest then .ok ⟨line, source, labels, none⟩
    else match Text.fields (blankSeparators rest) with
      | [] => .error (.noMnemonic line)
      | mnemonic :: operands => .ok ⟨line, source, labels, some ⟨Text.toLower mnemonic, operands⟩⟩

/-- Takes lines apart, up to the first that is wrong. -/
def parseAll (lines : List Text) : Except Failure (List Statement) :=
  (lines.zipIdx 1).mapM fun (source, line) => parse line source

end Statement

end StackCompiler.Assembly
