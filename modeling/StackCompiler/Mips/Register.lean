/-
**Registers.**

The machine has 32 registers.  Each has a conventional name, one of them two, and every register
can also be written as a number behind a dollar sign.  Register numbers are bytes; a number from 32
on names no register, and its text says so.
-/

import StackCompiler.Text.Blank
import StackCompiler.Text.Lowercase
import StackCompiler.Text.Numeral

namespace StackCompiler

/-- The number of a register. -/
abbrev Register := UInt8

namespace Register

/-- Always zero. -/
def zero : Register := 0
/-- First result, and the number of a service. -/
def v0 : Register := 2
/-- Second result. -/
def v1 : Register := 3
/-- First argument; the others follow it. -/
def a0 : Register := 4
/-- Stack base of a frame. -/
def s0 : Register := 16
/-- Stack offset of a frame. -/
def s1 : Register := 17
/-- Stack pointer. -/
def sp : Register := 29
/-- Frame pointer. -/
def fp : Register := 30
/-- Return address. -/
def ra : Register := 31

/-- The conventional names, in the order of the numbers. -/
def names : List Text :=
  ["$zero", "$at", "$v0", "$v1", "$a0", "$a1", "$a2", "$a3",
   "$t0", "$t1", "$t2", "$t3", "$t4", "$t5", "$t6", "$t7",
   "$s0", "$s1", "$s2", "$s3", "$s4", "$s5", "$s6", "$s7",
   "$t8", "$t9", "$k0", "$k1", "$gp", "$sp", "$fp", "$ra"].map text

/-- The name of a register. -/
def name (r : Register) : Text :=
  names[r.toNat]?.getD (text "$?" ++ Numeral.decimal r.toNat)

/-- The register with a conventional name; the frame pointer has a second one. -/
def ofName? (t : Text) : Option Register :=
  if t = text "$s8" then some fp else (names.idxOf? t).map (·.toUInt8)

/-- The register with a number below 32 behind a dollar sign. -/
def ofNumber? : Text → Option Register
  | 36 :: digits =>
    match Numeral.readSigned (some 10) 64 digits with
    | .ok n => if 0 ≤ n ∧ n < 32 then some n.toNat.toUInt8 else none
    | .error _ => none
  | _ => none

/-- **The register that a text names.** -/
def parse? (t : Text) : Option Register :=
  let t := Text.toLower (Text.trim t)
  (ofName? t).or (ofNumber? t)

end Register

end StackCompiler
