/-
**Programs that only differ in names.**

A marker carries a name, and nothing that is found out about a program looks at it: not the offsets
of its instructions, not the depth of its stack, and not its functions.  A program in which all
markers have lost their names stands for all programs that only differ in names.

* `Lowering.Functions.ofList_unnamed`, `Lowering.Frame.ofProgram_unnamed` — **functions and frames
  do not depend on names**.
-/

import StackCompiler.Proofs.LoweredLines

namespace StackCompiler

/-! ### Instructions -/

namespace Instruction

/-- An instruction that has lost its name if it is a marker. -/
def unnamed (ins : Instruction) : Instruction :=
  if ins.op.isMarker then { ins with symbol := [] } else ins

theorem unnamed_of_marker {ins : Instruction} (h : ins.op.isMarker = true) :
    ins.unnamed = { ins with symbol := [] } := if_pos h

theorem unnamed_of_not_marker {ins : Instruction} (h : ins.op.isMarker = false) :
    ins.unnamed = ins := if_neg (by simp [h])

section

variable (ins : Instruction)

include ins

@[simp] theorem op_unnamed : ins.unnamed.op = ins.op := by
  unfold unnamed
  split <;> rfl

@[simp] theorem operands_unnamed : ins.unnamed.operands = ins.operands := by
  unfold unnamed
  split <;> rfl

@[simp] theorem operand_unnamed (i : Int) : ins.unnamed.operand i = ins.operand i := by
  cases i <;> simp only [operand, operands_unnamed]

@[simp] theorem half_unnamed (i : Int) : ins.unnamed.half i = ins.half i := by
  simp only [half, operand_unnamed]

@[simp] theorem width_unnamed : ins.unnamed.width = ins.width := by
  simp only [width, op_unnamed]

@[simp] theorem target_unnamed : ins.unnamed.target = ins.target := by
  simp only [target, op_unnamed, half_unnamed, operand_unnamed]

@[simp] theorem effect_unnamed : ins.unnamed.effect = ins.effect := by
  simp only [effect, op_unnamed, half_unnamed]

end

/-! ### Lists -/

theorem offsetsFrom_unnamed (start : Nat) (list : List Instruction) :
    offsetsFrom start (list.map unnamed) = offsetsFrom start list := by
  induction list generalizing start with
  | nil => rfl
  | cons ins list ih => rw [List.map_cons, offsetsFrom, offsetsFrom, width_unnamed, ih]

@[simp] theorem offsets_unnamed (list : List Instruction) :
    offsets (list.map unnamed) = offsets list := offsetsFrom_unnamed 0 list

@[simp] theorem totalSize_unnamed (list : List Instruction) :
    totalSize (list.map unnamed) = totalSize list := by
  induction list with
  | nil => rfl
  | cons ins list ih => rw [List.map_cons, totalSize, totalSize, width_unnamed, ih]

/-- An instruction that has lost its name stays where it is. -/
def unnamedAt (x : Instruction × Nat) : Instruction × Nat := (x.1.unnamed, x.2)

theorem located_unnamed (list : List Instruction) :
    (list.map unnamed).zip (offsets list) = (list.zip (offsets list)).map unnamedAt := by
  rw [List.zip_map_left]
  rfl

end Instruction

open Instruction (unnamed unnamedAt)

/-- **The graph of a list does not depend on names.** -/
theorem Flow.ofList_unnamed (list : List Instruction) :
    ofList (list.map unnamed) = ofList list := by
  simp only [ofList, Instruction.offsets_unnamed, List.zipIdx_map, List.map_map, List.flatMap_map,
    Function.comp_def, Prod.map, id_eq, nextOf, startsOf, Instruction.op_unnamed,
    Instruction.target_unnamed, Instruction.effect_unnamed]

theorem Instruction.estimateDepth_unnamed (list : List Instruction) :
    estimateDepth (list.map unnamed) = estimateDepth list := by
  rw [estimateDepth, estimateDepth, Flow.ofList_unnamed]

/-- A program whose markers have lost their names. -/
def Program.unnamed (p : Program) : Program :=
  { p with instructions := p.instructions.map Instruction.unnamed }

namespace Lowering

/-- An instruction is a marker of either kind, unknown, or ordinary. -/
theorem kind_cases (ins : Instruction) :
    ins.op = .entry ∨ ins.op = .global ∨ (∃ n, ins.op = .unknown n) ∨ Mips.Ordinary ins := by
  unfold Mips.Ordinary
  cases ins.op <;> simp [Op.isMarker]

theorem Mips.Ordinary.isKnown {ins : Instruction} (h : Mips.Ordinary ins) :
    ins.op.isKnown = true := by
  cases hop : ins.op with
  | unknown n => exact absurd hop (h.2 n)
  | _ => rfl

/-! ### Frames and functions -/

theorem Frame.ofProgram_unnamed (p : Program) (s : Settings) :
    ofProgram p.unnamed s = ofProgram p s := by
  simp only [ofProgram, depthFor, Program.unnamed, Instruction.estimateDepth_unnamed]

namespace Functions

variable (located : List (Instruction × Nat))

theorem boundariesOf_unnamed : boundariesOf (located.map unnamedAt) = boundariesOf located := by
  simp only [boundariesOf, List.zipIdx_map, List.foldl_map, Prod.map, unnamedAt, id_eq,
    Instruction.op_unnamed]

theorem badCall?_unnamed (boundaries : Std.HashMap Nat Nat) :
    badCall? boundaries (located.map unnamedAt) = badCall? boundaries located := by
  simp only [badCall?, List.findSome?_map]
  congr 1
  funext x
  simp only [Function.comp_apply, unnamedAt, Instruction.op_unnamed, Instruction.target_unnamed]
  split
  · next h => rw [Instruction.unnamed_of_not_marker (by rw [h.1]; rfl)]
  · rfl

theorem startsIn_unnamed : startsIn (located.map unnamedAt) = startsIn located := by
  simp only [startsIn, startsOf, List.flatMap_map, unnamedAt, Instruction.op_unnamed,
    Instruction.half_unnamed]

theorem entryMarker?_unnamed : entryMarker? (located.map unnamedAt) = entryMarker? located := by
  simp only [entryMarker?, List.find?_map, Function.comp_def, Option.map_map, unnamedAt,
    Instruction.op_unnamed]

/-- **The functions of a program do not depend on names.** -/
theorem ofList_unnamed (list : List Instruction) (implicitEntry : Bool) :
    ofList (list.map unnamed) implicitEntry = ofList list implicitEntry := by
  simp only [ofList, Instruction.offsets_unnamed, Instruction.located_unnamed,
    Instruction.totalSize_unnamed, boundariesOf_unnamed, badCall?_unnamed, startsIn_unnamed,
    entryMarker?_unnamed]

end Functions

end Lowering

end StackCompiler
