/-
**The room in a frame.**

A frame is accepted if its size is at most what a displacement reaches.  The size is a 64-bit
number, and so is every step of its computation: the cells are multiplied by four, added to the base
and rounded up to a multiple of eight, and each of these may wrap around.  The size that is checked
is therefore only a remainder of the size that is needed, and a depth that is large enough passes
the check with a frame that is far too small for it.

What is needed is a number of bytes without a bound.  The theorem says that everything else about an
accepted frame holds always, and that there is room for the operand stack exactly if the bytes that
are needed can be rounded up below the limit of 64-bit numbers.

* `Lowering.Frame.accepted_room` — **what an accepted frame has room for**.
-/

import StackCompiler.Proofs.FrameShape

namespace StackCompiler.Lowering.Frame

/-- **The bytes that the parts of a frame need**: up to its operand stack, and four for each
cell. -/
def extent (f : Frame) : Int := f.base.toInt + 4 * f.depth.toInt

/-! ### Numbers that wrap around -/

/-- A number that is not above the range is not made smaller by wrapping around. -/
theorem le_bmod_of_lt {z : Int} (h : z < 2 ^ 63) : z ≤ z.bmod (2 ^ 64) := by
  have heq : z.bmod (2 ^ 64) = z - 2 ^ 64 * z.bdiv (2 ^ 64) := Int.bmod_eq_self_sub_mul_bdiv z _
  have hlo : -(2 ^ 64 / 2) ≤ z.bmod (2 ^ 64) := Int.le_bmod (by decide)
  omega

/-- A number above the range is made smaller by all of the range. -/
theorem bmod_le_of_le {z : Int} (h : 2 ^ 63 ≤ z) : z.bmod (2 ^ 64) ≤ z - 2 ^ 64 := by
  have heq : z.bmod (2 ^ 64) = z - 2 ^ 64 * z.bdiv (2 ^ 64) := Int.bmod_eq_self_sub_mul_bdiv z _
  have hhi : z.bmod (2 ^ 64) < (2 ^ 64 + 1) / 2 := Int.bmod_lt (by decide)
  omega

/-! ### The size that is computed -/

variable (p : Program) (s : Settings)

/-- **The size is what the parts need, rounded up and wrapped around.** -/
theorem size_ofProgram :
    (ofProgram p s).size.toInt = ((ofProgram p s).extent + 7).bmod (2 ^ 64) / 8 * 8 := by
  have hsize : (ofProgram p s).size =
      alignEight ((ofProgram p s).base + cellSize * (ofProgram p s).depth) := rfl
  rw [hsize, alignEight_eq_floor, Int64.toInt_add, Int64.toInt_add, Int64.toInt_mul,
    show cellSize.toInt = 4 from rfl, show (7 : Int64).toInt = 7 from rfl, Int.add_bmod_bmod,
    Int.bmod_add_bmod, extent]

theorem dvd_size : 8 ∣ (ofProgram p s).size.toInt := by
  rw [size_ofProgram]
  exact Int.dvd_mul_left _ _

/-- **The size covers what the parts need exactly if that can be rounded up without wrapping.** -/
theorem extent_le_size_iff :
    (ofProgram p s).extent ≤ (ofProgram p s).size.toInt ↔ (ofProgram p s).extent + 7 < 2 ^ 63 := by
  rw [size_ofProgram]
  constructor
  · intro h
    by_contra hlt
    have := bmod_le_of_le (Int.not_lt.1 hlt)
    omega
  · intro h
    have := le_bmod_of_lt h
    omega

variable {p s}

theorem slot_within (hs : s.validate = .ok ()) {n : Int64} (hlo : 0 ≤ n.toInt)
    (hhi : n.toInt < (ofProgram p s).localSlots.toInt) :
    16 ≤ (localOffset n).toInt ∧ (localOffset n).toInt + 4 ≤ (ofProgram p s).base.toInt := by
  obtain ⟨hslots, hslots'⟩ := validate_slots hs
  have hn : n.toInt < s.localSlots.toInt := hhi
  have hbase : (ofProgram p s).base.toInt = 16 + 4 * s.localSlots.toInt :=
    localOffset_toInt (by omega) (by omega)
  rw [localOffset_toInt hlo (by omega), hbase]
  omega

/-! ### Frames that are accepted -/

/-- **What an accepted frame has room for.**  Its size is a multiple of eight that displacements
reach, and its local slots stand between the saved words and the operand stack.  The operand stack
fits if and only if its end can be rounded up to a multiple of eight below the limit of 64-bit
numbers. -/
theorem accepted_room (p : Program) (s : Settings) (hs : s.validate = .ok ())
    (hcheck : (ofProgram p s).check = .ok ()) :
    (ofProgram p s).size.toInt ≤ 32767 ∧ 8 ∣ (ofProgram p s).size.toInt ∧
      ((ofProgram p s).base.toInt + 4 * (ofProgram p s).depth.toInt ≤ (ofProgram p s).size.toInt ↔
        (ofProgram p s).base.toInt + 4 * (ofProgram p s).depth.toInt + 7 < 2 ^ 63) ∧
      ∀ n : Int64, 0 ≤ n.toInt → n.toInt < (ofProgram p s).localSlots.toInt →
        16 ≤ (localOffset n).toInt ∧ (localOffset n).toInt + 4 ≤ (ofProgram p s).base.toInt :=
  ⟨check_ok hcheck, dvd_size p s, extent_le_size_iff p s, fun _ => slot_within hs⟩

/-- A frame of 16 slots and 8170 cells takes up all that displacements reach. -/
theorem accepted_room_largest :
    (Settings.validate {} = .ok () ∧ (ofProgram ⟨[], 8170⟩ {}).check = .ok ()) ∧
      (ofProgram ⟨[], 8170⟩ {}).base.toInt + 4 * (ofProgram ⟨[], 8170⟩ {}).depth.toInt ≤
        (ofProgram ⟨[], 8170⟩ {}).size.toInt ∧
      (localOffset 15).toInt + 4 ≤ (ofProgram ⟨[], 8170⟩ {}).base.toInt := by
  have hs : Settings.validate {} = .ok () := rfl
  have hcheck : (ofProgram ⟨[], 8170⟩ {}).check = .ok () := by decide
  obtain ⟨-, -, hroom, hslots⟩ := accepted_room ⟨[], 8170⟩ {} hs hcheck
  exact ⟨⟨hs, hcheck⟩, hroom.2 (by decide), (hslots 15 (by decide) (by decide)).2⟩

/-- **An accepted frame that is too small**: for a depth of `2 ^ 62` cells the size is 80, which is
where the operand stack starts. -/
theorem accepted_without_room :
    Settings.validate { stackDepth := 4611686018427387904 } = .ok () ∧
      (ofProgram ⟨[], 0⟩ { stackDepth := 4611686018427387904 }).check = .ok () ∧
      (ofProgram ⟨[], 0⟩ { stackDepth := 4611686018427387904 }).size = 80 ∧
      ¬ (ofProgram ⟨[], 0⟩ { stackDepth := 4611686018427387904 }).base.toInt +
          4 * (ofProgram ⟨[], 0⟩ { stackDepth := 4611686018427387904 }).depth.toInt ≤
        (ofProgram ⟨[], 0⟩ { stackDepth := 4611686018427387904 }).size.toInt := by
  decide

end StackCompiler.Lowering.Frame
