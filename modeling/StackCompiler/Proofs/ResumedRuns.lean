/-
**Bounded runs end and can be resumed.**

A bounded run makes steps until the program ends, a step fails or the machine has counted as many
words as the limit says.  Each step that does not end the run is counted, so the run ends.  The
count is kept in the machine and the limit is compared with it, so a run that was stopped by its
limit, or that came to the end of the program, is continued under a higher limit as if it had never
been interrupted.

* `Machine.run_of_lt` — **a bounded run ends**, and more fuel changes nothing;
* `Machine.runWithin_halted_iff` — **when a bounded run reaches the end of the program**;
* `Machine.runWithin_runWithin` — **a bounded run can be resumed** under a higher limit.
-/

import StackCompiler.Proofs.FaultingSteps

namespace StackCompiler.Machine

/-! ### The steps of a run -/

variable {m m' : Machine}

theorem steps_of_step (h : m.halted = false) (hstep : m.step = (m', none)) :
    m'.steps = m.steps + 1 := by
  have hmakes := m.makes_step
  rw [hstep] at hmakes
  cases hmakes with
  | rest hhalted => rw [h] at hhalted; cases hhalted
  | work => exact (effect_perform _ _ _ _).steps

theorem Goes.steps_le {k : Nat} (h : m.Goes k m') : m.steps ≤ m'.steps := by
  induction k generalizing m with
  | zero => exact Nat.le_of_eq (congrArg steps (Prod.mk.inj h).1)
  | succ k ih =>
      cases hhalted : m.halted with
      | true => rw [h.of_halted hhalted]
      | false =>
          unfold Goes stepUpTo at h
          split at h
          · next m₁ hstep =>
            have hone := steps_of_step hhalted hstep
            have hrest := ih h
            omega
          · cases h

section Runs

variable {n fuel : Nat} {m m' : Machine}

theorem run_of_halted (h : m.halted = true) : m.run (some n) (fuel + 1) = (m, .halted) := by
  rw [run, if_pos h]

theorem run_of_le (h : m.halted = false) (hn : n ≤ m.steps) :
    m.run (some n) (fuel + 1) = (m, .fault ⟨m.pc, 0, .stepLimit⟩) := by
  rw [run, h, if_neg Bool.false_ne_true, limitReached, if_pos (decide_eq_true hn)]

theorem run_of_fault {fault : Fault} (h : m.halted = false) (hn : m.steps < n)
    (hstep : m.step = (m', some fault)) : m.run (some n) (fuel + 1) = (m', .fault fault) := by
  rw [run, h, if_neg Bool.false_ne_true, limitReached, if_neg (by simpa using hn), hstep]

theorem run_of_step (h : m.halted = false) (hn : m.steps < n) (hstep : m.step = (m', none)) :
    m.run (some n) (fuel + 1) = m'.run (some n) fuel := by
  rw [run, h, if_neg Bool.false_ne_true, limitReached, if_neg (by simpa using hn), hstep]

theorem runWithin_of_halted (h : m.halted = true) : m.runWithin n = (m, .halted) :=
  run_of_halted h

theorem runWithin_of_le (h : m.halted = false) (hn : n ≤ m.steps) :
    m.runWithin n = (m, .fault ⟨m.pc, 0, .stepLimit⟩) := run_of_le h hn

theorem runWithin_of_fault {fault : Fault} (h : m.halted = false) (hn : m.steps < n)
    (hstep : m.step = (m', some fault)) : m.runWithin n = (m', .fault fault) :=
  run_of_fault h hn hstep

theorem runWithin_of_step (h : m.halted = false) (hn : m.steps < n)
    (hstep : m.step = (m', none)) : m.runWithin n = m'.runWithin n := by
  have hfuel : n - m.steps = n - m'.steps + 1 := by
    rw [steps_of_step h hstep]
    omega
  rw [runWithin, run_of_step h hn hstep, hfuel, runWithin]

/-- **Induction along a bounded run**: it is at its end, or it goes on behind its first step. -/
theorem runWithin_induction {motive : Machine → Prop} (n : Nat)
    (halted : ∀ m, m.halted = true → motive m)
    (limit : ∀ m, m.halted = false → n ≤ m.steps → motive m)
    (fault : ∀ m m' f, m.halted = false → m.steps < n → m.step = (m', some f) → motive m)
    (step : ∀ m m', m.halted = false → m.steps < n → m.step = (m', none) → motive m' → motive m)
    (m : Machine) : motive m := by
  -- on the number of words that may still be fetched
  induction hleft : n - m.steps generalizing m with
  | zero =>
      cases hm : m.halted with
      | true => exact halted m hm
      | false => exact limit m hm (by omega)
  | succ left ih =>
      cases hm : m.halted with
      | true => exact halted m hm
      | false =>
          have hn : m.steps < n := by omega
          rcases hstep : m.step with ⟨m', _ | f⟩
          · refine step m m' hm hn hstep (ih m' ?_)
            rw [steps_of_step hm hstep]
            omega
          · exact fault m m' f hm hn hstep

end Runs

/-! ### Bounded runs end -/

theorem runWithin_ne_outOfFuel (n : Nat) (m : Machine) : (m.runWithin n).2 ≠ .outOfFuel := by
  induction m using runWithin_induction n with
  | halted m h => rw [runWithin_of_halted h]; exact nofun
  | limit m h hn => rw [runWithin_of_le h hn]; exact nofun
  | fault m m' f h hn hstep => rw [runWithin_of_fault h hn hstep]; exact nofun
  | step m m' h hn hstep ih => rwa [runWithin_of_step h hn hstep]

/-- **More fuel than a bounded run can use changes nothing.** -/
theorem run_of_lt (n : Nat) (m : Machine) {fuel : Nat} (hfuel : n - m.steps < fuel) :
    m.run (some n) fuel = m.runWithin n := by
  obtain ⟨more, rfl⟩ := Nat.exists_eq_add_of_lt hfuel
  clear hfuel
  induction m using runWithin_induction n generalizing more with
  | halted m h => rw [run_of_halted h, runWithin_of_halted h]
  | limit m h hn => rw [run_of_le h hn, runWithin_of_le h hn]
  | fault m m' f h hn hstep => rw [run_of_fault h hn hstep, runWithin_of_fault h hn hstep]
  | step m m' h hn hstep ih =>
      have hmore : n - m.steps + more = n - m'.steps + more + 1 := by
        rw [steps_of_step h hstep]
        omega
      rw [run_of_step h hn hstep, runWithin_of_step h hn hstep, hmore, ih]

/-- Steps that end a program within the limit are the run. -/
theorem Goes.runWithin {n k : Nat} (h : m.Goes k m') (hm' : m'.halted = true)
    (hn : m'.steps ≤ n) : m.runWithin n = (m', .halted) := by
  induction k generalizing m with
  | zero =>
      obtain rfl : m = m' := (Prod.mk.inj h).1
      exact runWithin_of_halted hm'
  | succ k ih =>
      cases hm : m.halted with
      | true =>
          obtain rfl := h.of_halted hm
          exact runWithin_of_halted hm
      | false =>
          unfold Goes stepUpTo at h
          split at h
          · next m₁ hstep =>
            have hone := steps_of_step hm hstep
            have hrest := Goes.steps_le h
            rw [runWithin_of_step hm (by omega) hstep]
            exact ih h
          · cases h

/-- **When a bounded run reaches the end of the program**: if it is there already, or if steps
without a failure lead there and the words that they fetch are within the limit. -/
theorem runWithin_halted_iff (n : Nat) (m : Machine) :
    (m.runWithin n).2 = .halted ↔
      m.halted = true ∨ ∃ k m', m.Goes k m' ∧ m'.halted = true ∧ m'.steps ≤ n := by
  constructor
  · induction m using runWithin_induction n with
    | halted m h => exact fun _ => .inl h
    | limit m h hn => rw [runWithin_of_le h hn]; exact nofun
    | fault m m' f h hn hstep => rw [runWithin_of_fault h hn hstep]; exact nofun
    | step m m' h hn hstep ih =>
        rw [runWithin_of_step h hn hstep]
        intro hrun
        rcases ih hrun with hm' | ⟨k, m₂, hgoes, hm₂, hle⟩
        · refine .inr ⟨1, m', Goes.of_step hstep, hm', ?_⟩
          rw [steps_of_step h hstep]
          exact hn
        · exact .inr ⟨1 + k, m₂, (Goes.of_step hstep).trans hgoes, hm₂, hle⟩
  · rintro (h | ⟨k, m', hgoes, hm', hle⟩)
    · rw [runWithin_of_halted h]
    · rw [hgoes.runWithin hm' hle]

/-! ### Bounded runs can be resumed -/

theorem stop_ne_stepLimit {fault : Fault} (h : m.step = (m', some fault)) :
    fault.stop ≠ .stepLimit := by
  obtain ⟨-, -, rfl, -⟩ | ⟨-, -, -, hrefuses, -⟩ := step_failed (congrArg Prod.snd h)
  · exact nofun
  · exact hrefuses.stop_ne.2

/-- **A bounded run can be resumed** under a limit that is not lower, if it came to the end of the
program or was stopped by its own limit. -/
theorem runWithin_runWithin {k n : Nat} (hkn : k ≤ n) (m : Machine)
    (h : (m.runWithin k).2 = .halted ∨
      ∃ fault, (m.runWithin k).2 = .fault fault ∧ fault.stop = .stepLimit) :
    (m.runWithin k).1.runWithin n = m.runWithin n := by
  induction m using runWithin_induction k with
  | halted m hm => rw [runWithin_of_halted hm]
  | limit m hm hk => rw [runWithin_of_le hm hk]
  | fault m m' f hm hk hstep =>
      rw [runWithin_of_fault hm hk hstep] at h
      obtain h | ⟨fault, hfault, hstop⟩ := h
      · cases h
      · obtain rfl := Outcome.fault.inj hfault
        exact absurd hstop (stop_ne_stepLimit hstep)
  | step m m' hm hk hstep ih =>
      rw [runWithin_of_step hm hk hstep] at h ⊢
      rw [ih h, runWithin_of_step hm (Nat.lt_of_lt_of_le hk hkn) hstep]

/-! ### Limits as they are given -/

theorem runLimited_of_pos {n : Int64} (h : 0 < n) (fuel : Nat) (m : Machine) :
    m.runLimited fuel n = m.runWithin n.toInt.toNat := by
  rw [runLimited, limitOf, if_pos h]
  rfl

/-- **Bounded runs end and can be resumed.**  A run under a positive limit ends, whatever fuel it is
given.  It reaches the end of the program exactly if the program has ended already, or if it ends
before a step fails and with no more words fetched than the limit allows.  And if it does reach the
end, or is stopped by its limit, a run under a limit that is not lower goes on from there to the
same state, output included, and the same outcome as if it had started at once. -/
theorem run_resumed (m : Machine) {k n : Int64} (hk : 0 < k) (hkn : k ≤ n) (fuel : Nat) :
    ((m.runLimited fuel k).2 ≠ .outOfFuel ∧
      ∀ fuel', k.toInt.toNat - m.steps < fuel' →
        m.run (some k.toInt.toNat) fuel' = m.runLimited fuel k) ∧
    ((m.runLimited fuel k).2 = .halted ↔
      m.halted = true ∨ ∃ j m', m.Goes j m' ∧ m'.halted = true ∧ (m'.steps : Int) ≤ k.toInt) ∧
    ((m.runLimited fuel k).2 = .halted ∨
        (∃ fault, (m.runLimited fuel k).2 = .fault fault ∧ fault.stop = .stepLimit) →
      ∀ fuel', (m.runLimited fuel k).1.runLimited fuel' n = m.runLimited fuel' n) := by
  have hpos : 0 < k.toInt := Int64.lt_iff_toInt_lt.1 hk
  have hle : k.toInt ≤ n.toInt := Int64.le_iff_toInt_le.1 hkn
  have hn : 0 < n := Int64.lt_iff_toInt_lt.2 (Int.lt_of_lt_of_le hpos hle)
  simp only [runLimited_of_pos hk, runLimited_of_pos hn]
  refine ⟨⟨runWithin_ne_outOfFuel _ m, fun fuel' => run_of_lt _ m⟩, ?_, fun h _ => ?_⟩
  · rw [runWithin_halted_iff]
    simp only [Int.le_toNat (Int.le_of_lt hpos)]
  · exact runWithin_runWithin (Int.toNat_le_toNat hle) m h

/-- A program of two words that exits: stopped behind the first, it ends with the last step that the
second limit allows. -/
theorem run_resumed_exit :
    let m := ofWords #[0x2402000A, 0x0000000C]
    (m.runLimited 0 1).2 = .fault ⟨4, 0, .stepLimit⟩ ∧
      (m.runLimited 0 1).1.runLimited 0 2 = m.runLimited 0 2 ∧
      (m.runLimited 0 2).2 = .halted ∧ (m.runLimited 0 2).1.steps = 2 := by
  intro m
  have hlimit : (m.runLimited 0 1).2 = .fault ⟨4, 0, .stepLimit⟩ := by decide +kernel
  obtain ⟨-, -, hresumed⟩ := run_resumed m (show (0 : Int64) < 1 by decide)
    (show (1 : Int64) ≤ 2 by decide) 0
  exact ⟨hlimit, hresumed (.inr ⟨_, hlimit, rfl⟩) 0, by decide +kernel, by decide +kernel⟩

end StackCompiler.Machine
