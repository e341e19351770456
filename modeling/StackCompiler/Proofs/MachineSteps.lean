/-
**What a step can do.**

The machine knows many operations, but they change its state in few ways: an operation replaces a
register and may go elsewhere, or it replaces the halves of a product, a piece of memory or the
output, or it extends the heap, or it ends the program.  And a step is one of four things: the
program has ended, there is no word to be fetched, the word is refused, or its operation is carried
out.  Both are said here once.  What every step keeps follows by looking at the ways, not at the
operations.

* `Machine.effect_perform` — **every operation changes the state in one of these ways**;
* `Machine.makes_step` — **every step is one of the four things**;
* `Machine.keeps_step`, `Machine.keeps_after` — **what a step keeps, and what any number of steps
  keeps**.
-/

import Mathlib.Logic.Function.Iterate
import StackCompiler.Proofs.WordExecution

namespace StackCompiler

namespace Word

theorem and_three_eq_zero_iff (a : UInt32) : a &&& 3 = 0 ↔ a.toNat % 4 = 0 := by
  rw [← UInt32.toNat_inj, and_mask_toNat a 3 2 rfl]
  rfl

theorem rounded_mod (w : UInt32) : (w &&& 0xFFFFFFFC).toNat % 4 = 0 := by
  rw [UInt32.toNat_and, ← Nat.and_two_pow_sub_one_eq_mod _ 2, Nat.and_assoc]
  exact Nat.and_zero _

end Word

namespace Machine

/-! ### Operations -/

/-- **The ways in which an operation changes the state.**  One that does nothing goes to where the
counter already is. -/
inductive Effect (m : Machine) : Machine → Prop where
  /-- A register is replaced, and the counter may be. -/
  | register (r : Register) (v pc : UInt32) : Effect m { m with regs := m.regs.set r v, pc }
  | jump (pc : UInt32) : Effect m { m with pc }
  /-- The halves of a product or quotient are replaced. -/
  | halves (hi lo : UInt32) : Effect m { m with hi, lo }
  | memory (memory : Memory) : Effect m { m with memory }
  | output (output : Array UInt8) : Effect m { m with output }
  /-- The heap is extended, and its former end is the result. -/
  | heap (size : UInt32) : Effect m
      { m with
        regs := m.regs.put Register.v0 m.heapEnd
        heapEnd := m.heapEnd + ((size + 3) &&& 0xFFFFFFFC) }
  | exit (status : Int32) : Effect m { m with halted := true, exitCode := status }

/-- **Every operation changes the state in one of these ways.** -/
theorem effect_perform (m : Machine) (pc : UInt32) (f : Fields) (o : Operation) :
    m.Effect (m.perform pc f o) := by
  have hgoIf : ∀ condition target, m.Effect (m.goIf condition target) := by
    intro condition target
    unfold goIf
    split
    · exact .jump target
    · exact .jump m.pc
  cases o with
  | beq | bne | blez | bgtz => exact hgoIf _ _
  | sb | sh | sw => exact .memory _
  | j | jr => exact .jump _
  | jal => exact .register Register.ra (pc + 4) _
  | mult | multu | div | divu => exact .halves _ _
  | syscall =>
      unfold perform
      dsimp only
      split
      · next s _ =>
        cases s with
        | printNumber | printString | printCharacter => exact .output _
        | extendHeap => exact .heap _
        | exitZero | exitStatus => exact .exit _
      · exact .jump m.pc
  | _ => exact .register _ _ _

/-! ### Fetching -/

theorem fetch?_eq (m : Machine) :
    m.fetch? = if m.pc.toNat % 4 = 0 then m.text[m.pc.toNat / 4]? else none := by
  rw [fetch?, UInt32.toNat_div, show (4 : UInt32).toNat = 4 from rfl]
  exact if_congr (Word.and_three_eq_zero_iff _) rfl rfl

theorem fetch?_eq_none_iff (m : Machine) :
    m.fetch? = none ↔ ¬(m.pc.toNat % 4 = 0 ∧ m.pc.toNat / 4 < m.text.size) := by
  rw [fetch?_eq]
  split
  · next h => simp [h]
  · next h => simp [h]

theorem fetch?_eq_some_iff {m : Machine} {w : UInt32} :
    m.fetch? = some w ↔ m.pc.toNat % 4 = 0 ∧ m.text[m.pc.toNat / 4]? = some w := by
  rw [fetch?_eq, Option.ite_none_right_eq_some]

/-! ### Steps -/

/-- **What a step can be**, with the state behind it and the failure if there is one. -/
inductive Makes (m : Machine) : Machine × Option Fault → Prop where
  | rest (h : m.halted = true) : Makes m (m, none)
  /-- There is no word at the counter. -/
  | stray (h : m.halted = false) (hfetch : m.fetch? = none) :
      Makes m (m, some ⟨m.pc, 0, .pcOutOfRange⟩)
  /-- The word at the counter is refused. -/
  | refusal {w : UInt32} {stop : Stop} (h : m.halted = false) (hfetch : m.fetch? = some w)
      (hstop : m.wordFailure? w = some stop) : Makes m (m.advance, some ⟨m.pc, w, stop⟩)
  /-- The operation of the word at the counter is carried out. -/
  | work {w : UInt32} {o : Operation} (h : m.halted = false) (hfetch : m.fetch? = some w)
      (ho : Operation.ofFields? (Fields.ofWord w) = some o)
      (hstop : m.failure? (Fields.ofWord w) o = none) :
      Makes m (m.advance.perform m.pc (Fields.ofWord w) o, none)

/-- **Every step is one of these.** -/
theorem makes_step (m : Machine) : m.Makes m.step := by
  rw [step_eq]
  split
  · next h => exact .rest h
  · next h =>
    have hrunning : m.halted = false := Bool.eq_false_iff.2 h
    split
    · next hfetch => exact .stray hrunning hfetch
    · next w hfetch =>
      split
      · next stop hstop => exact .refusal hrunning hfetch hstop
      · next hnone =>
        unfold wordFailure? at hnone
        unfold performWord
        dsimp only at hnone ⊢
        cases ho : Operation.ofFields? (Fields.ofWord w) with
        | none => simp only [ho] at hnone; cases hnone
        | some o =>
            simp only [ho] at hnone
            exact .work hrunning hfetch ho hnone

/-- Which of these a step is determines what it does. -/
theorem Makes.step_eq {m : Machine} {made : Machine × Option Fault} (h : m.Makes made) :
    m.step = made := by
  cases h with
  | rest h => exact step_of_halted h
  | stray h hfetch => rw [Machine.step_eq, h, if_neg Bool.false_ne_true, hfetch]
  | refusal h hfetch hstop =>
      rw [Machine.step_eq, h, if_neg Bool.false_ne_true, hfetch]
      simp only [hstop]
  | work h hfetch ho hstop =>
      rw [Machine.step_eq, h, if_neg Bool.false_ne_true, hfetch]
      simp only [wordFailure?, performWord, ho, hstop]

/-! ### What a step keeps -/

/-- **What no step changes**: the words that are fetched, register zero, and that the heap ends
behind whole words. -/
structure Keeps (m m' : Machine) : Prop where
  text : m'.text = m.text
  zero : m'.regs.get Register.zero = m.regs.get Register.zero
  heap : m'.heapEnd.toNat % 4 = m.heapEnd.toNat % 4

theorem Keeps.refl (m : Machine) : m.Keeps m := ⟨rfl, rfl, rfl⟩

theorem Keeps.trans {m₁ m₂ m₃ : Machine} (h₁ : m₁.Keeps m₂) (h₂ : m₂.Keeps m₃) : m₁.Keeps m₃ :=
  ⟨h₂.text.trans h₁.text, h₂.zero.trans h₁.zero, h₂.heap.trans h₁.heap⟩

theorem Effect.keeps {m m' : Machine} (h : m.Effect m') : m.Keeps m' := by
  cases h with
  | register r v pc => exact ⟨rfl, Registers.get_zero_set _ _ _, rfl⟩
  | jump | halves | memory | output | exit => exact ⟨rfl, rfl, rfl⟩
  | heap size =>
      have hmod := Word.rounded_mod (size + 3)
      refine ⟨rfl, ?_, ?_⟩
      · -- the result is put into another register
        exact (Registers.get_put _ _ _ _).trans (if_neg (by decide))
      · rw [UInt32.toNat_add]
        omega

theorem Effect.steps {m m' : Machine} (h : m.Effect m') : m'.steps = m.steps := by
  cases h <;> rfl

/-- **What a step keeps.** -/
theorem keeps_step (m : Machine) : m.Keeps m.step.1 := by
  have hadvance : m.Keeps m.advance := ⟨rfl, rfl, rfl⟩
  have hstep := m.makes_step
  generalize m.step = made at hstep ⊢
  cases hstep with
  | rest | stray => exact .refl m
  | refusal => exact hadvance
  | work => exact hadvance.trans (effect_perform _ _ _ _).keeps

/-- **A step does not change the program.** -/
theorem text_step (m : Machine) : m.step.1.text = m.text := m.keeps_step.text

/-- **No step changes register zero.** -/
theorem get_zero_step (m : Machine) :
    m.step.1.regs.get Register.zero = m.regs.get Register.zero := m.keeps_step.zero

/-! ### Any number of steps -/

/-- The state after `k` steps, whether they fail or not. -/
def after (m : Machine) (k : Nat) : Machine := (fun m => m.step.1)^[k] m

theorem after_succ (m : Machine) (k : Nat) : m.after (k + 1) = (m.after k).step.1 :=
  Function.iterate_succ_apply' _ _ _

/-- **What any number of steps keeps.** -/
theorem keeps_after (m : Machine) (k : Nat) : m.Keeps (m.after k) := by
  induction k with
  | zero => exact .refl m
  | succ k ih =>
      rw [after_succ]
      exact ih.trans (m.after k).keeps_step

theorem text_after (m : Machine) (k : Nat) : (m.after k).text = m.text := (m.keeps_after k).text

end Machine

end StackCompiler
