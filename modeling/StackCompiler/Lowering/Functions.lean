/-
**Functions.**

A program is divided into functions, which are runs of its instructions.  A function starts at
offset zero, at every marker, and at every place that is called; it ends where the next one starts.
The entry function is the one at the first entry marker, or the first one if there is no such
marker and that is allowed.
-/

import StackCompiler.Lowering.Failure
import Std.Data.HashMap

namespace StackCompiler.Lowering

/-- A run of instructions. -/
structure Function where
  start : Nat
  stop : Nat
  /-- The index of its first instruction. -/
  first : Nat
  /-- The index behind its last instruction. -/
  last : Nat
  isEntry : Bool
deriving DecidableEq, Repr

/-- The functions of a program. -/
structure Functions where
  functions : List Function
  entry : Nat
  /-- The index of the first instruction, markers apart, at every offset. -/
  boundaries : Std.HashMap Nat Nat

namespace Functions

/-- The index of the first instruction at every offset, markers apart. -/
def boundariesOf (located : List (Instruction × Nat)) : Std.HashMap Nat Nat :=
  located.zipIdx.foldl
    (fun m ((ins, offset), i) => if ins.op.isMarker then m else m.insertIfNew offset i) {}

/-- Whether an instruction starts at an offset. -/
def isBoundary (boundaries : Std.HashMap Nat Nat) : Int → Bool
  | .ofNat n => boundaries.contains n
  | .negSucc _ => false

/-- What is wrong with the first call to a place where no instruction starts. -/
def badCall? (boundaries : Std.HashMap Nat Nat) (located : List (Instruction × Nat)) :
    Option Failure :=
  located.findSome? fun (ins, offset) =>
    if ins.op = .invoke ∧ !isBoundary boundaries ins.target then
      some (.instruction offset ins .badCallee)
    else none

/-- The offsets that an instruction makes the start of a function. -/
def startsOf (ins : Instruction) (offset : Nat) : List Nat :=
  if ins.op.isMarker then [offset] else if ins.op = .invoke then [ins.half 0] else []

/-- Where the functions of a list start. -/
def startsIn (located : List (Instruction × Nat)) : List Nat :=
  ((0 :: located.flatMap fun (ins, offset) => startsOf ins offset).mergeSort).eraseReps

/-- The offset of the first entry marker. -/
def entryMarker? (located : List (Instruction × Nat)) : Option Nat :=
  (located.find? (·.1.op = .entry)).map (·.2)

/-- The function between two offsets. -/
def between (offsets : List Nat) (entry start stop : Nat) : Function where
  start := start
  stop := stop
  first := offsets.findIdx (start ≤ ·)
  last := offsets.findIdx (stop ≤ ·)
  isEntry := start == entry

/-- **Divides a list of instructions into functions.**  Without an entry marker the program starts
at offset zero if `implicitEntry` allows it. -/
def ofList (list : List Instruction) (implicitEntry : Bool) : Except Failure Functions :=
  let offsets := Instruction.offsets list
  let located := list.zip offsets
  let boundaries := boundariesOf located
  match badCall? boundaries located with
  | some failure => .error failure
  | none =>
    match (entryMarker? located).or (if implicitEntry then some 0 else none) with
    | none => .error .noEntry
    | some entry =>
      let starts := startsIn located
      let stops := starts.tail ++ [Instruction.totalSize list]
      .ok { functions := (starts.zip stops).map fun (start, stop) =>
              between offsets entry start stop
            entry, boundaries }

/-- The function that an offset belongs to: the last one that starts at or before it. -/
def owner? (fs : Functions) (offset : Nat) : Option Function :=
  fs.functions.foldl (fun found f => if f.start ≤ offset then some f else found) none

/-- Whether an offset is in the entry function. -/
def inEntry (fs : Functions) (offset : Nat) : Bool := (fs.owner? offset).any (·.isEntry)

/-- Whether an instruction starts at an offset. -/
def startsAt (fs : Functions) (offset : Int) : Bool := isBoundary fs.boundaries offset

end Functions

end StackCompiler.Lowering
