/-
**Runs.**

A run makes steps until the program ends or a step fails.  It may be bounded by a limit on the
number of steps that the machine has made, and it always ends by then; a run without a limit need
not end, so runs take fuel, and running out of it is an outcome of its own.
-/

import StackCompiler.Machine.Step

namespace StackCompiler.Machine

/-- How a run ends. -/
inductive Outcome where
  | halted
  | fault (f : Fault)
  | outOfFuel
deriving DecidableEq, Repr

/-- Whether no further step is allowed. -/
def limitReached (limit : Option Nat) (m : Machine) : Bool :=
  match limit with
  | some n => n ≤ m.steps
  | none => false

/-- **A run**, of at most `fuel` steps. -/
def run (limit : Option Nat) : Nat → Machine → Machine × Outcome
  | 0, m => (m, if m.halted then .halted else .outOfFuel)
  | fuel + 1, m =>
    if m.halted then (m, .halted)
    else if limitReached limit m then (m, .fault ⟨m.pc, 0, .stepLimit⟩)
    else match m.step with
      | (m', none) => run limit fuel m'
      | (m', some f) => (m', .fault f)

/-- The limit that a number stands for: none unless it is positive. -/
def limitOf (n : Int64) : Option Nat := if 0 < n then some n.toNatClampNeg else none

/-- **A bounded run.** -/
def runWithin (n : Nat) (m : Machine) : Machine × Outcome := run (some n) (n - m.steps + 1) m

/-- A run under the limit that a number stands for.  The fuel is only used without a limit. -/
def runLimited (fuel : Nat) (n : Int64) (m : Machine) : Machine × Outcome :=
  match limitOf n with
  | some n => runWithin n m
  | none => run none fuel m

/-- Makes `n` steps, up to the first that fails. -/
def stepUpTo : Nat → Machine → Machine × Option Fault
  | 0, m => (m, none)
  | n + 1, m =>
    match m.step with
    | (m', none) => stepUpTo n m'
    | (m', some f) => (m', some f)

end StackCompiler.Machine
