/-
**Sets of code points.**

A property of characters is given by the ranges of code points that have it, in increasing order.
The long tables hold the lengths of the runs of code points that lack and have it, in turn.
-/

namespace StackCompiler.Text

/-- Membership in a list of increasing, disjoint ranges, both ends included. -/
def inRanges : List (Nat × Nat) → Nat → Bool
  | [], _ => false
  | (lo, hi) :: rest, n => if n < lo then false else decide (n ≤ hi) || inRanges rest n

/-- Membership in the set whose runs have these lengths: one outside, one inside, and so on. -/
def inRuns : List Nat → Nat → Bool
  | gap :: size :: rest, n =>
    if n < gap then false else decide (n < gap + size) || inRuns rest (n - gap - size)
  | _, _ => false

end StackCompiler.Text
