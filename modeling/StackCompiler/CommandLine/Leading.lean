/-
**Flags before arguments.**

A simple command line has all its flags before its arguments.  A flag starts with one dash or two,
and its value follows an equals sign or is the next argument.  Switches need no value.
-/

import StackCompiler.CommandLine.Flag

namespace StackCompiler.CommandLine.Leading

/-- A flag.  Its value is a text, a number or a switch. -/
structure Flag where
  name : Text
  value : Value
  usage : Text
deriving DecidableEq, Repr

/-- What is wrong with a command line. -/
inductive Problem where
  | help
  | malformed (argument : Text)
  | undefined (name : Text)
  | noValue (name : Text)
  | badSwitch (value name : Text)
  | badNumber (value name : Text)
  | outOfRange (value name : Text)
deriving DecidableEq, Repr

/-- The wording of a problem; there is none for help. -/
def Problem.message : Problem → Text
  | help => []
  | malformed argument => text "bad flag syntax: " ++ argument ++ text "\n"
  | undefined name => text "flag provided but not defined: -" ++ name ++ text "\n"
  | noValue name => text "flag needs an argument: -" ++ name ++ text "\n"
  | badSwitch value name =>
    text "invalid boolean value " ++ Text.quote value ++ text " for -" ++ name ++
      text ": parse error\n"
  | badNumber value name =>
    text "invalid value " ++ Text.quote value ++ text " for flag -" ++ name ++
      text ": parse error\n"
  | outOfRange value name =>
    text "invalid value " ++ Text.quote value ++ text " for flag -" ++ name ++
      text ": value out of range\n"

/-- The value of a flag for a text. -/
def assign (f : Flag) (t : Text) : Except Problem Value :=
  match f.value with
  | .bool _ =>
    match Value.readBool? t with
    | some b => .ok (.bool b)
    | none => .error (.badSwitch t f.name)
  | .int _ =>
    match Numeral.readSigned none 64 t with
    | .ok n => .ok (.int (Int64.ofInt n))
    | .error .outOfRange => .error (.outOfRange t f.name)
    | .error .malformed => .error (.badNumber t f.name)
  | _ => .ok (.text t)

/-- The flag with a name. -/
def find (flags : List Flag) (name : Text) : Option Flag := flags.find? (·.name == name)

/-- Gives a flag a value. -/
def set (flags : List Flag) (name : Text) (v : Value) : List Flag :=
  flags.map fun f => if f.name = name then { f with value := v } else f

/-- The name in a flag, with the value behind its equals sign.  The sign can not come first. -/
def nameOf (argument : Text) : Except Problem (Text × Option Text) :=
  let body := match argument with
    | _ :: 45 :: rest => rest
    | rest => rest.drop 1
  match body with
  | [] | 45 :: _ | 61 :: _ => .error (.malformed argument)
  | _ => .ok (Text.cut 61 body)

/-- The flag that an argument names, and the value behind the name. -/
def named (flags : List Flag) (argument : Text) : Except Problem (Flag × Option Text) := do
  let (name, value) ← nameOf argument
  match find flags name with
  | some f => return (f, value)
  | none =>
    if name = text "help" ∨ name = text "h" then .error .help else .error (.undefined name)

/-- Whether a text is no flag. -/
def isArgument (t : Text) : Bool := t.length < 2 || t.head? != some 45

/-- **Reads a command line**: the flags with their values, and the arguments. -/
def parse (flags : List Flag) : List Text → Except Problem (List Flag × List Text)
  | [] => .ok (flags, [])
  | first :: rest =>
    if isArgument first then .ok (flags, first :: rest)
    else if first = text "--" then .ok (flags, rest)
    else
      match named flags first with
      | .error e => .error e
      | .ok (f, some value) =>
        match assign f value with
        | .ok v => parse (set flags f.name v) rest
        | .error e => .error e
      | .ok (f, none) =>
        if f.value.isBool then parse (set flags f.name (.bool true)) rest
        else
          match rest with
          | [] => .error (.noValue f.name)
          | value :: rest =>
            match assign f value with
            | .ok v => parse (set flags f.name v) rest
            | .error e => .error e

/-- What a tool shows about a flag and its initial value. -/
def Flag.describe (f : Flag) : Text :=
  let head := text "  -" ++ f.name
  let (kind, initial) : Text × Text := match f.value with
    | .bool _ => ([], [])
    | .int n => (text " int",
        if n = 0 then [] else text " (default " ++ Numeral.signed n.toInt ++ text ")")
    | .text t => (text " string",
        if t.isEmpty then [] else text " (default " ++ Text.quote t ++ text ")")
    | .list _ => (text " value", [])
  let head := head ++ kind
  head ++ (if head.length ≤ 4 then text "\t" else text "\n    \t") ++ f.usage ++
    initial ++ text "\n"

/-- **What a tool shows about its flags**, in the order of their names. -/
def usage (tool : Text) (flags : List Flag) : Text :=
  text "Usage of " ++ tool ++ text ":\n" ++
    (flags.mergeSort fun a b => decide (a.name ≤ b.name)).flatMap Flag.describe

end StackCompiler.CommandLine.Leading
