/-
**YAML nodes.**

A document is a tree of mappings, sequences and scalars.  A scalar without quotes may stand for
nothing, a truth value or a number.
-/

import StackCompiler.Text.Decimal

namespace StackCompiler.Yaml

/-! ### Nodes -/

/-- A node of a document. -/
inductive Node where
  /-- A scalar.  A plain one is written without quotes. -/
  | scalar (plain : Bool) (value : Text)
  | sequence (items : List Node)
  | mapping (entries : List (Node × Node))
  | malformed

namespace Node

/-- The node that stands for nothing. -/
def nothing : Node := scalar true []

/-- Whether two keys are the same: scalars by what is written, others by their kind. -/
def sameKey : Node → Node → Bool
  | scalar _ v, scalar _ w => v == w
  | sequence _, sequence _ => true
  | mapping _, mapping _ => true
  | malformed, malformed => true
  | _, _ => false

/-- Whether a key is there twice. -/
def repeats : List (Node × Node) → Bool
  | [] => false
  | (key, _) :: rest => rest.any (fun (other, _) => sameKey key other) || repeats rest

/-- **The mapping with some entries.**  No key may be written twice. -/
def ofEntries (entries : List (Node × Node)) : Node :=
  if repeats entries then malformed else mapping entries

end Node

/-! ### Scalars -/

/-- What a scalar stands for. -/
inductive Scalar where
  | nothing
  | bool (b : Bool)
  | int (n : Int)
  /-- A number that is not written as an integer, by its integer part. -/
  | float (whole : Int)
  | text (t : Text)
deriving DecidableEq, Repr

namespace Scalar

/-- Stands for infinity, which is beyond all other numbers. -/
def infinity : Int := Int.pow 2 1024

/-- Removes the marks that may divide the digits of a number. -/
def undivided (t : Text) : Text := t.filter (· != 95)

/-- Whether a byte is a digit. -/
def isDigit (c : UInt8) : Bool := 48 ≤ c && c ≤ 57

/-- Whether every mark that divides digits has one on both sides. -/
def divides : Text → Bool
  | a :: 95 :: b :: t => isDigit a && isDigit b && divides (b :: t)
  | 95 :: _ | [_, 95] => false
  | _ :: t => divides t
  | [] => true

/-- Removes a sign and says whether it was a minus. -/
def unsigned : Text → Bool × Text
  | 43 :: t => (false, t)
  | 45 :: t => (true, t)
  | t => (false, t)

/-- The number that digits stand for. -/
def digits (t : Text) : Nat := t.foldl (fun n c => n * 10 + (c.toNat - 48)) 0

/-- The exponent of a decimal fraction; none is zero. -/
def exponent? : Text → Option Int
  | [] => some 0
  | e :: t =>
    let (negative, ds) := unsigned t
    if (e == 101 || e == 69) && !ds.isEmpty && ds.all isDigit then
      some (if negative then -(digits ds : Int) else digits ds)
    else none

/-- The integer part of a decimal fraction. -/
def fraction? (t : Text) : Option Int := do
  let (negative, t) := unsigned t
  let (before, t) := t.span isDigit
  let (after, t) := match t with
    | 46 :: rest => rest.span isDigit
    | _ => ([], t)
  if before.isEmpty && after.isEmpty then none
  let e ← exponent? t
  let w ← Decimal.whole? (digits (before ++ after)) (e - after.length)
  return if negative then -(w : Int) else w

/-- The integer that a text stands for in a base, or in the base that it names. -/
def integer? (base? : Option Nat) (t : Text) : Option Int :=
  match Numeral.readSigned base? 64 t with
  | .ok n => some n
  | .error _ =>
    match Numeral.readUnsigned base? (Nat.pow 2 64 - 1) t with
    | .ok n => some n
    | .error _ => none

/-- The integer of a text that names its base before its sign. -/
def basedInteger? : Text → Option Int
  | 48 :: 98 :: t => integer? (some 2) t
  | 48 :: 111 :: t => integer? (some 8) t
  | _ => none

/-- The number that a plain scalar stands for, if it starts with a digit or a sign. -/
def number? (t : Text) : Option Scalar :=
  let t := undivided t
  ((integer? none t).map int).orElse fun _ =>
    ((fraction? t).map float).orElse fun _ => (basedInteger? t).map int

/-- The words for numbers without digits. -/
def word? (t : Text) : Option Scalar :=
  if [".inf", ".Inf", ".INF", "+.inf", "+.Inf", "+.INF", ".nan", ".NaN", ".NAN"].any
    (StackCompiler.text · == t) then some (float infinity)
  else if ["-.inf", "-.Inf", "-.INF"].any (StackCompiler.text · == t) then some (float (-infinity))
  else none

/-- **What a plain scalar stands for.** -/
def ofPlain (t : Text) : Scalar :=
  if ["", "~", "null", "Null", "NULL"].any (StackCompiler.text · == t) then .nothing
  else if ["true", "True", "TRUE"].any (StackCompiler.text · == t) then .bool true
  else if ["false", "False", "FALSE"].any (StackCompiler.text · == t) then .bool false
  else
    let found : Option Scalar := match t with
      | [] => none
      | 46 :: _ => (word? t).orElse fun _ =>
        if divides t then (fraction? (undivided t)).map float else none
      | c :: _ =>
        if isDigit c || c == 43 || c == 45 then (word? t).orElse fun _ => number? t else none
    found.getD (.text t)

end Scalar

end StackCompiler.Yaml
