/-
**Frames in natural numbers.**

The sizes of a frame are computed with 64-bit numbers that wrap around.  For settings that are
accepted, and for depths that a program can ask for, nothing wraps: a frame is four saved words,
then its local slots, then its operand stack, rounded up to a multiple of eight bytes, and
displacements reach all of it.

* `Lowering.Frame.shape_ofProgram` — **the frames of a program that is accepted**.
-/

import StackCompiler.Lowering.Frame
import StackCompiler.Proofs.Outcomes
import StackCompiler.Proofs.StackDepth
import StackCompiler.Proofs.Words

namespace StackCompiler.Lowering.Frame

/-! ### 64-bit numbers that do not wrap around -/

theorem bmod_small {z : Int} (hlo : -2 ^ 63 ≤ z) (hhi : z < 2 ^ 63) : z.bmod (2 ^ 64) = z :=
  Int.bmod_eq_of_le (by simp; omega) (by simp; omega)

theorem cells_toInt {n : Nat} (h : n < 2 ^ 60) :
    (cellSize * Int64.ofNat n).toInt = 4 * (n : Int) := by
  rw [Int64.toInt_mul, Int64.toInt_ofNat_of_lt (by omega), show cellSize.toInt = 4 from rfl]
  exact bmod_small (by omega) (by omega)

theorem cells_back_toInt {n : Nat} (h : n < 2 ^ 60) :
    (-cellSize * Int64.ofNat n).toInt = -(4 * (n : Int)) := by
  rw [Int64.toInt_mul, Int64.toInt_ofNat_of_lt (by omega), show (-cellSize).toInt = -4 from rfl]
  rw [bmod_small (by omega) (by omega)]
  omega

theorem localOffset_toInt {n : Int64} (hlo : 0 ≤ n.toInt) (hhi : n.toInt < 2 ^ 60) :
    (localOffset n).toInt = 16 + 4 * n.toInt := by
  have hmul : (cellSize * n).toInt = 4 * n.toInt := by
    rw [Int64.toInt_mul, show cellSize.toInt = 4 from rfl]
    exact bmod_small (by omega) (by omega)
  rw [localOffset, Int64.toInt_add, hmul, show locals.toInt = 16 from rfl]
  exact bmod_small (by omega) (by omega)

theorem localOffset_ofNat_toInt {n : Nat} (h : n < 2 ^ 60) :
    (localOffset (Int64.ofNat n)).toInt = 16 + 4 * (n : Int) := by
  have hn : (Int64.ofNat n).toInt = n := Int64.toInt_ofNat_of_lt (by omega)
  rw [localOffset_toInt (by omega) (by omega), hn]

/-- Rounding up is adding seven, which may wrap around, and rounding down. -/
theorem alignEight_eq_floor (n : Int64) : (alignEight n).toInt = (n + 7).toInt / 8 * 8 := by
  have hbits : (alignEight n).toBitVec.toNat = (n + 7).toBitVec.toNat / 8 * 8 := by
    rw [alignEight, Int64.toBitVec_and, BitVec.toNat_and]
    exact and_upper (n := 61) (k := 3) (n + 7).toBitVec.isLt
  rw [← Int64.toInt_toBitVec, ← Int64.toInt_toBitVec, BitVec.toInt_eq_toNat_cond,
    BitVec.toInt_eq_toNat_cond, hbits]
  -- clearing the last three bits does not change the sign
  have := (n + 7).toBitVec.isLt
  split <;> split <;> omega

theorem alignEight_toInt {n : Int64} (hlo : 0 ≤ n.toInt) (hhi : n.toInt + 8 < 2 ^ 63) :
    (alignEight n).toInt = (n.toInt + 7) / 8 * 8 := by
  rw [alignEight_eq_floor, Int64.toInt_add, show (7 : Int64).toInt = 7 from rfl,
    bmod_small (by omega) (by omega)]

/-! ### The parts of a frame -/

/-- A frame with `L` local slots, `D` cells and `S` bytes. -/
structure Shape (f : Frame) (L D S : Nat) : Prop where
  slots : f.localSlots.toInt = L
  base : f.base.toInt = 16 + 4 * (L : Int)
  depth : f.depth.toInt = D
  size : f.size.toInt = S
  slots_le : L ≤ 4096
  fits : 16 + 4 * L + 4 * D ≤ S
  tight : S < 16 + 4 * L + 4 * D + 8
  aligned : S % 8 = 0
  small : S ≤ 32767

theorem Shape.size_neg {f : Frame} {L D S : Nat} (h : f.Shape L D S) :
    (-f.size).toInt = -(S : Int) := by
  have := h.small
  rw [Int64.toInt_neg, h.size]
  exact bmod_small (by omega) (by omega)

theorem check_ok {f : Frame} (h : f.check = .ok ()) : f.size.toInt ≤ 32767 := by
  unfold check at h
  split at h
  · cases h
  · next hle =>
    rw [Int64.not_lt, Int64.le_iff_toInt_le] at hle
    exact hle

variable {s : Settings}

theorem validate_slots (h : s.validate = .ok ()) :
    1 ≤ s.localSlots.toInt ∧ s.localSlots.toInt ≤ 4096 := by
  unfold Settings.validate at h
  split at h
  · cases h
  · next hrange =>
    rw [not_or, Int64.not_lt, Int64.not_lt, Int64.le_iff_toInt_le, Int64.le_iff_toInt_le] at hrange
    exact hrange

theorem validate_depth (h : s.validate = .ok ()) : 0 ≤ s.stackDepth.toInt := by
  unfold Settings.validate at h
  split at h
  · cases h
  · split at h
    · cases h
    · next hdepth => exact Int64.le_iff_toInt_le.1 (Int64.not_lt.1 hdepth)

theorem estimate_range (list : List Instruction) :
    0 ≤ (Int64.ofNat (Instruction.estimateDepth list)).toInt ∧
      (Int64.ofNat (Instruction.estimateDepth list)).toInt < 2 ^ 60 := by
  have hle := Flow.deepest_le (Flow.ofList list)
  rw [← Instruction.estimateDepth, depthLimit] at hle
  rw [Int64.toInt_ofNat_of_lt (by omega)]
  omega

theorem depthFor_lt {p : Program} (hs : s.stackDepth.toInt < 2 ^ 60)
    (hp : s.stackDepth = 0 → p.maxDepth.toInt < 2 ^ 60) : (depthFor p s).toInt < 2 ^ 60 := by
  unfold depthFor
  split
  · exact hs
  · next hzero =>
    split
    · exact hp (by simpa using hzero)
    · exact (estimate_range p.instructions).2

/-- **The frames of a program** under settings that are accepted, if the depth is in range. -/
theorem shape_ofProgram {p : Program} (hs : s.validate = .ok ()) (hdepth : 0 ≤ (depthFor p s).toInt)
    (hdepth' : (depthFor p s).toInt < 2 ^ 60)
    (hcheck : (ofProgram p s).check = .ok ()) : ∃ L D S, (ofProgram p s).Shape L D S := by
  obtain ⟨hslots, hslots'⟩ := validate_slots hs
  obtain ⟨L, hL⟩ := Int.eq_ofNat_of_zero_le (show 0 ≤ s.localSlots.toInt by omega)
  obtain ⟨D, hD⟩ := Int.eq_ofNat_of_zero_le hdepth
  have hbase : (localOffset s.localSlots).toInt = 16 + 4 * (L : Int) := by
    rw [localOffset_toInt (by omega) (by omega), hL]
  have hcells : (cellSize * depthFor p s).toInt = 4 * (D : Int) := by
    rw [Int64.toInt_mul, hD, show cellSize.toInt = 4 from rfl]
    exact bmod_small (by omega) (by omega)
  have hsum : (localOffset s.localSlots + cellSize * depthFor p s).toInt =
      16 + 4 * (L : Int) + 4 * (D : Int) := by
    rw [Int64.toInt_add, hbase, hcells]
    exact bmod_small (by omega) (by omega)
  have hsize : (ofProgram p s).size.toInt = ((16 + 4 * L + 4 * D + 7) / 8 * 8 : Nat) := by
    show (alignEight (localOffset s.localSlots + cellSize * depthFor p s)).toInt = _
    rw [alignEight_toInt (by omega) (by omega), hsum]
    omega
  have hsmall := check_ok hcheck
  rw [hsize] at hsmall
  exact ⟨L, D, (16 + 4 * L + 4 * D + 7) / 8 * 8, hL, hbase, hD, hsize, by omega, by omega, by omega,
    by omega, by omega⟩

end StackCompiler.Lowering.Frame
