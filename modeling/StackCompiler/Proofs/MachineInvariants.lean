/-
**What holds on every run.**

A machine that was just given its words can be stepped as often as one likes, also on from steps
that fail.  Whatever the words are, register zero stays zero, the heap ends behind whole words, and
what is fetched are the words that were given, even if the program has stored something else at
their addresses.  The machine counts the words that it fetches, those that it then refuses included,
and nothing else.

* `Machine.steps_step`, `Machine.steps_after` — **the words that were fetched are counted**, in a
  step and in any number of them;
* `Machine.invariants_after` — **what holds after any number of steps**.
-/

import StackCompiler.Proofs.MachineSteps

namespace StackCompiler.Machine

/-! ### Counting -/

/-- The word that the next step fetches: none once the program has ended. -/
def next? (m : Machine) : Option UInt32 := if m.halted then none else m.fetch?

/-- The words that the first `k` steps fetch, one behind the other. -/
def fetched (m : Machine) (k : Nat) : List UInt32 :=
  (List.range k).filterMap fun i => (m.after i).next?

theorem fetched_succ (m : Machine) (k : Nat) :
    m.fetched (k + 1) = m.fetched k ++ (m.after k).next?.toList := by
  rw [fetched, List.range_succ, List.filterMap_append, List.filterMap_cons, List.filterMap_nil]
  cases (m.after k).next? <;> rfl

/-- **A step counts the word that it fetches**, whether the word is then refused or not. -/
theorem steps_step (m : Machine) : m.step.1.steps = m.steps + m.next?.toList.length := by
  have hstep := m.makes_step
  unfold next?
  generalize m.step = made at hstep ⊢
  cases hstep with
  | rest h => rw [h]; rfl
  | stray h hfetch => rw [h, hfetch]; rfl
  | refusal h hfetch => rw [h, hfetch]; rfl
  | work h hfetch => rw [h, hfetch, (effect_perform _ _ _ _).steps]; rfl

/-- **The words that were fetched are counted.** -/
theorem steps_after (m : Machine) (k : Nat) :
    (m.after k).steps = m.steps + (m.fetched k).length := by
  induction k with
  | zero => rfl
  | succ k ih =>
      rw [after_succ, steps_step, ih, fetched_succ, List.length_append, Nat.add_assoc]

/-! ### The end of a program -/

theorem after_of_halted {m : Machine} (h : m.halted = true) (k : Nat) : m.after k = m := by
  induction k with
  | zero => rfl
  | succ k ih => rw [after_succ, ih, step_of_halted h]

theorem after_add (m : Machine) (k j : Nat) : m.after (k + j) = (m.after k).after j := by
  rw [Nat.add_comm]
  exact Function.iterate_add_apply _ _ _ _

/-! ### Runs from the start -/

/-- **What holds after any number of steps.**  From the state in which a program starts, on a
machine that traps overflow or not, whether the steps fail or not: register zero is zero, the heap
ends behind whole words, the words that are fetched are the given ones wherever the counter stands,
the machine has counted the words that it has fetched, and once the program has ended no step does
anything. -/
theorem invariants_after (words : Array UInt32) (trap : Bool) (k : Nat) :
    let m := { ofWords words with trapOverflow := trap }
    (m.after k).regs.get Register.zero = 0 ∧
      (m.after k).heapEnd.toNat % 4 = 0 ∧
      (m.after k).text = words ∧
      ((m.after k).fetch? =
        if (m.after k).pc.toNat % 4 = 0 then words[(m.after k).pc.toNat / 4]? else none) ∧
      (m.after k).steps = (m.fetched k).length ∧
      ((m.after k).halted = true →
        ∀ j, m.after (k + j) = m.after k ∧ (m.after (k + j)).step = (m.after k, none)) := by
  intro m
  obtain ⟨htext, hzero, hheap⟩ := m.keeps_after k
  have hstart : m.regs.get Register.zero = 0 := rfl
  have hbase : m.heapEnd.toNat % 4 = 0 := by
    show heapBase.toNat % 4 = 0
    decide
  refine ⟨hzero.trans hstart, hheap.trans hbase, htext, ?_, ?_, fun h j => ?_⟩
  · rw [fetch?_eq, htext]
    rfl
  · rw [steps_after]
    exact Nat.zero_add _
  · have hsame : m.after (k + j) = m.after k := by rw [after_add, after_of_halted h]
    exact ⟨hsame, by rw [hsame, step_of_halted h]⟩

/-- Adds five into register zero, asks for three bytes of heap, clears the place of the last
instruction in memory, loads a word from an odd address, and exits by that last instruction. -/
def hostileWords : Array UInt32 :=
  #[0x24000005, 0x24040003, 0x24020009, 0x0000000C, 0xAC00001C, 0x8C080001, 0x2402000A, 0x0000000C]

/-- A machine that runs these words. -/
def hostile : Machine := { ofWords hostileWords with trapOverflow := true }

/-- The last instruction is fetched although its place has been cleared, and the step that fails is
counted. -/
theorem invariants_after_hostile :
    ((hostile.after 5).step.2 = some ⟨20, 0x8C080001, .unaligned⟩ ∧
      (hostile.after 7).memory.loadWord 28 = 0 ∧ (hostile.after 7).fetch? = some 0x0000000C ∧
      (hostile.after 8).halted = true) ∧
    (hostile.after 8).regs.get Register.zero = 0 ∧ (hostile.after 8).heapEnd.toNat % 4 = 0 ∧
      (hostile.after 8).text = hostileWords ∧ (hostile.after 8).steps = (hostile.fetched 8).length ∧
      ∀ j, hostile.after (8 + j) = hostile.after 8 := by
  have hhalted : (hostile.after 8).halted = true := by decide +kernel
  have hmemory : (hostile.after 7).memory = (Memory.ofWords hostileWords).storeWord 28 0 := by rfl
  obtain ⟨hzero, hheap, htext, -, hsteps, hend⟩ := invariants_after hostileWords true 8
  refine ⟨⟨by decide +kernel, ?_, by decide +kernel, hhalted⟩, hzero, hheap, htext, hsteps,
    fun j => (hend hhalted j).1⟩
  rw [hmemory, Memory.loadWord_storeWord]

end StackCompiler.Machine
