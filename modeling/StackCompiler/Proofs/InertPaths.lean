/-
**Unknown instructions and paths.**

An unknown instruction has no bytes and no effect on the operand stack, and a path goes through it
to what stands behind it.  So a list with one unknown instruction more has the same paths, with the
places behind it moved by one: a jump to its offset now goes into the gap that it fills, and on from
there.  Only where nothing stands behind the gap is there something new, a path that ends in it; and
the depth of that path is the depth of one without its last step.

* `Paths.estimateDepth_filter` — **unknown instructions do not change the estimate**.
-/

import StackCompiler.Proofs.DepthPaths

namespace StackCompiler

open Instruction (effect_of_noBytes estimateDepth offsets offsetsFrom totalSize)

theorem Op.eq_unknown {op : Op} (h : op.isKnown = false) : ∃ n, op = .unknown n := by
  cases op with
  | unknown n => exact ⟨n, rfl⟩
  | _ => cases h

theorem Instruction.width_of_unknown {ins : Instruction} (h : ins.op.isKnown = false) :
    ins.width = 0 := by
  obtain ⟨n, hop⟩ := Op.eq_unknown h
  rw [width, hop]
  rfl

theorem Op.isKnown_of_isMarker {op : Op} (h : op.isMarker = true) : op.isKnown = true := by
  cases op with
  | unknown n => cases h
  | _ => rfl

namespace Paths

/-! ### Places around a gap -/

/-- Where something stands if there is a gap at `n`. -/
def moved (n j : Nat) : Nat := if j < n then j else j + 1

/-- Where something stands without the gap at `n`; what stands in the gap becomes what stands behind
it. -/
def movedBack (n i : Nat) : Nat := if i ≤ n then i else i - 1

theorem moved_movedBack {n i : Nat} (h : i ≠ n) : moved n (movedBack n i) = i := by
  unfold moved movedBack
  split <;> split <;> omega

theorem movedBack_succ {n i : Nat} (h : i ≠ n) : movedBack n (i + 1) = movedBack n i + 1 := by
  unfold movedBack
  split <;> split <;> omega

theorem moved_lt {n k i : Nat} (h : k < movedBack n i) : moved n k < i := by
  unfold movedBack at h
  unfold moved
  split at h <;> split <;> omega

theorem movedBack_lt {n k j : Nat} (h : k < moved n j) (hne : k ≠ n) : movedBack n k < j := by
  unfold moved at h
  unfold movedBack
  split <;> split at h <;> omega

theorem getElem?_moved {α : Type} (xs ys : List α) (u : α) (j : Nat) :
    (xs ++ u :: ys)[moved xs.length j]? = (xs ++ ys)[j]? := by
  unfold moved
  split
  · next h => rw [List.getElem?_append_left h, List.getElem?_append_left h]
  · next h =>
    rw [List.getElem?_append_right (by omega), List.getElem?_append_right (by omega),
      show j + 1 - xs.length = j - xs.length + 1 by omega, List.getElem?_cons_succ]

section Gap

variable {xs ys : List Instruction} {u : Instruction}

theorem getElem?_movedBack {i : Nat} (hne : i ≠ xs.length) :
    (xs ++ ys)[movedBack xs.length i]? = (xs ++ u :: ys)[i]? := by
  rw [← getElem?_moved xs ys u, moved_movedBack hne]

/-- A known instruction does not stand in the gap. -/
theorem ne_of_known (hu : u.op.isKnown = false) {i : Nat} {ins : Instruction}
    (hins : (xs ++ u :: ys)[i]? = some ins) (hknown : ins.op.isKnown = true) : i ≠ xs.length := by
  rintro rfl
  obtain rfl : u = ins := by simpa using hins
  rw [hu] at hknown
  cases hknown

/-- What fills the gap has no bytes, so no offset changes. -/
theorem offset_moved (hu : u.width = 0) (j : Nat) :
    (offsets (xs ++ u :: ys))[moved xs.length j]? = (offsets (xs ++ ys))[j]? := by
  have hmoved := getElem?_moved (offsets xs)
    (offsetsFrom (totalSize xs) ys) (totalSize xs) j
  rw [Instruction.length_offsets] at hmoved
  simpa only [offsets, Instruction.offsetsFrom_append, offsetsFrom, hu,
    Nat.zero_add, Nat.add_zero] using hmoved

theorem offset_behind (h : xs.length < (xs ++ ys).length) :
    (offsets (xs ++ ys))[xs.length]? = some (totalSize xs) := by
  rw [Instruction.offsets_getElem? h, List.take_left]

/-! ### Where jumps go -/

/-- Without the gap a jump goes where it went, if something stands there. -/
theorem FirstAt.movedBack (hu : u.width = 0) {offset : Int} {i : Nat}
    (h : FirstAt (xs ++ u :: ys) offset i) (hlt : movedBack xs.length i < (xs ++ ys).length) :
    FirstAt (xs ++ ys) offset (movedBack xs.length i) := by
  obtain ⟨n, hn, hi, hfirst⟩ := h
  refine ⟨n, hn, ?_, fun k hk => ?_⟩
  · by_cases hgap : i = xs.length
    · subst hgap
      rw [offset_behind (by simp)] at hi
      rw [show Paths.movedBack xs.length xs.length = xs.length from if_pos (Nat.le_refl _)] at hlt ⊢
      rwa [offset_behind hlt]
    · rw [← offset_moved hu, moved_movedBack hgap, hi]
  · rw [← offset_moved hu]
    exact hfirst _ (moved_lt hk)

/-- With the gap a jump goes where it went, or into the gap before that. -/
theorem FirstAt.moved (hu : u.width = 0) {offset : Int} {j : Nat}
    (h : FirstAt (xs ++ ys) offset j) :
    FirstAt (xs ++ u :: ys) offset (moved xs.length j) ∨
      j = xs.length ∧ FirstAt (xs ++ u :: ys) offset xs.length := by
  obtain ⟨n, hn, hj, hfirst⟩ := h
  have hbefore : ∀ k, k < Paths.moved xs.length j → k ≠ xs.length →
      (offsets (xs ++ u :: ys))[k]? ≠ some n := by
    intro k hk hne
    rw [← moved_movedBack hne, offset_moved hu]
    exact hfirst _ (movedBack_lt hk hne)
  by_cases hgap : xs.length ≤ j ∧ n = totalSize xs
  · -- what stands behind the gap has its offset
    obtain ⟨hle, rfl⟩ := hgap
    have hlt := Instruction.lt_length_of_offset hj
    obtain rfl : j = xs.length := by
      rcases Nat.lt_or_eq_of_le hle with hless | heq
      · exact absurd (offset_behind (by omega)) (hfirst _ hless)
      · exact heq.symm
    refine Or.inr ⟨rfl, _, hn, offset_behind (by simp), fun k hk => hbefore k ?_ (by omega)⟩
    rw [Paths.moved, if_neg (Nat.lt_irrefl _)]
    omega
  · refine Or.inl ⟨n, hn, by rw [offset_moved hu, hj], fun k hk => ?_⟩
    by_cases hne : k = xs.length
    · subst hne
      rw [offset_behind (by simp)]
      intro heq
      refine hgap ⟨?_, (Option.some.inj heq).symm⟩
      unfold Paths.moved at hk
      split at hk <;> omega
    · exact hbefore k hk hne

/-! ### Paths with the gap -/

section

variable (hu : u.op.isKnown = false)

include hu

/-- A path goes through an unknown instruction and keeps its depth. -/
theorem Reaches.through {depth : Nat} (h : Reaches (xs ++ u :: ys) xs.length depth) :
    Reaches (xs ++ u :: ys) (xs.length + 1) depth := by
  have hop : ∀ op, op.isKnown = true → u.op ≠ op := by
    rintro op hknown rfl
    rw [hu] at hknown
    cases hknown
  have hstep := h.step (by simp : (xs ++ u :: ys)[xs.length]? = some u)
    (.next (hop _ rfl) (hop _ rfl))
  rwa [effect_of_noBytes (Instruction.width_of_unknown hu)] at hstep

variable {j depth : Nat}

/-- A path that arrives before the gap or in it arrives behind it. -/
theorem Reaches.of_next (h : Reaches (xs ++ u :: ys) j depth) (hle : j ≤ xs.length) :
    Reaches (xs ++ u :: ys) (Paths.moved xs.length j) depth := by
  unfold Paths.moved
  split
  · exact h
  · obtain rfl : j = xs.length := by omega
    exact h.through hu

theorem Reaches.of_firstAt {offset : Int} (h : FirstAt (xs ++ ys) offset j)
    (hreach : ∀ i, FirstAt (xs ++ u :: ys) offset i → Reaches (xs ++ u :: ys) i depth) :
    Reaches (xs ++ u :: ys) (Paths.moved xs.length j) depth := by
  rcases h.moved (Instruction.width_of_unknown hu) with hmoved | ⟨rfl, hgap⟩
  · exact hreach _ hmoved
  · exact (hreach _ hgap).of_next hu (Nat.le_refl _)

/-- **Every path without the gap is one with it.** -/
theorem Reaches.moved (h : Reaches (xs ++ ys) j depth) :
    Reaches (xs ++ u :: ys) (moved xs.length j) depth := by
  induction h with
  | start hstart =>
      cases hstart with
      | first => exact of_next hu (.start .first) (Nat.zero_le _)
      | marker hins hmarker =>
          exact .start (.marker ((getElem?_moved xs ys u _).trans hins) hmarker)
      | callee hins hop hfirst =>
          exact of_firstAt hu hfirst fun i hi =>
            .start (.callee ((getElem?_moved xs ys u _).trans hins) hop hi)
  | @step i j depth ins _ hins hleads ih =>
      have hins' := (getElem?_moved xs ys u _).trans hins
      cases hleads with
      | next hret hjmp =>
          have hnext := ih.step hins' (.next hret hjmp)
          by_cases hlt : i < xs.length
          · rw [Paths.moved, if_pos hlt] at hnext
            exact of_next hu hnext hlt
          · rw [Paths.moved, if_neg hlt] at hnext
            rwa [Paths.moved, if_neg (by omega)]
      | jump hop hfirst =>
          exact of_firstAt hu hfirst fun k hk => ih.step hins' (.jump hop hk)

/-! ### Paths without the gap -/

/-- **Every path with the gap is one without it**, or ends in it; and no depth is lost then. -/
theorem Reaches.movedBack {i depth : Nat} (h : Reaches (xs ++ u :: ys) i depth) :
    (movedBack xs.length i < (xs ++ ys).length →
        Reaches (xs ++ ys) (movedBack xs.length i) depth) ∧
      (depth = 0 ∨ depth ∈ depths (xs ++ ys)) := by
  have hwidth := Instruction.width_of_unknown hu
  induction h with
  | start hstart =>
      refine ⟨fun hlt => ?_, Or.inl rfl⟩
      cases hstart with
      | first => exact .start .first
      | marker hins hmarker =>
          have hne := ne_of_known hu hins (Op.isKnown_of_isMarker hmarker)
          exact .start (.marker ((getElem?_movedBack hne).trans hins) hmarker)
      | callee hins hop hfirst =>
          have hne := ne_of_known hu hins (by rw [hop]; rfl)
          exact .start (.callee ((getElem?_movedBack hne).trans hins) hop
            (hfirst.movedBack hwidth hlt))
  | @step i j depth ins _ hins hleads ih =>
      by_cases hne : i = xs.length
      · -- behind the gap the path is where it was in it
        subst hne
        obtain rfl : u = ins := by simpa using hins
        rw [effect_of_noBytes hwidth]
        cases hleads with
        | next => simpa [Paths.movedBack] using ih
        | jump hop => rcases hop with hop | hop | hop <;> rw [hop] at hu <;> cases hu
      · have hins' := (getElem?_movedBack hne).trans hins
        have hreach := ih.1 (CallFrames.lt_of_getElem? hins')
        refine ⟨fun hlt => hreach.step hins' ?_, Or.inr ⟨_, ins, depth, hins', hreach, Or.inr rfl⟩⟩
        cases hleads with
        | next hret hjmp =>
            rw [movedBack_succ hne]
            exact .next hret hjmp
        | jump hop hfirst => exact .jump hop (hfirst.movedBack hwidth hlt)

theorem depths_moved : depths (xs ++ ys) ⊆ depths (xs ++ u :: ys) := by
  rintro k ⟨j, ins, depth, hins, hreach, hk⟩
  exact ⟨_, ins, depth, (getElem?_moved xs ys u j).trans hins, hreach.moved hu, hk⟩

theorem depths_movedBack {k : Nat}
    (h : k ∈ depths (xs ++ u :: ys)) : k = 0 ∨ k ∈ depths (xs ++ ys) := by
  obtain ⟨i, ins, depth, hins, hreach, rfl | rfl⟩ := h
  · exact (hreach.movedBack hu).2
  · by_cases hne : i = xs.length
    · subst hne
      obtain rfl : u = ins := by simpa using hins
      rw [effect_of_noBytes (Instruction.width_of_unknown hu)]
      exact (hreach.movedBack hu).2
    · have hins' := (getElem?_movedBack hne).trans hins
      exact Or.inr ⟨_, ins, depth, hins',
        (hreach.movedBack hu).1 (CallFrames.lt_of_getElem? hins'), Or.inr rfl⟩

end

end Gap

/-! ### The estimate -/

/-- More depths, zero apart, give no smaller estimate. -/
theorem estimateDepth_mono {list list' : List Instruction}
    (h : ∀ k ∈ depths list, k = 0 ∨ k ∈ depths list') :
    estimateDepth list ≤ estimateDepth list' := by
  obtain ⟨k, hk, heq⟩ := attained_estimateDepth list
  rw [heq]
  rcases Nat.lt_or_ge (estimateDepth list') depthLimit with hlt | hge
  · refine Nat.le_trans (Nat.min_le_left _ _) ?_
    rcases hk with rfl | hk
    · exact one_le_estimateDepth list'
    · rcases h k hk with rfl | hk
      · exact Nat.zero_le _
      · exact le_estimateDepth hlt hk
  · exact Nat.le_trans (Nat.min_le_right _ _) hge

theorem estimateDepth_gap {u : Instruction} (hu : u.op.isKnown = false) (xs ys : List Instruction) :
    estimateDepth (xs ++ u :: ys) = estimateDepth (xs ++ ys) :=
  Nat.le_antisymm (estimateDepth_mono fun _ hk => depths_movedBack hu hk)
    (estimateDepth_mono fun _ hk => Or.inr (depths_moved hu hk))

/-- **Unknown instructions do not change the estimate.** -/
theorem estimateDepth_filter (list : List Instruction) :
    estimateDepth (list.filter (·.op.isKnown)) = estimateDepth list := by
  -- what stands before is kept as it is, what stands behind is still to be sifted
  suffices h : ∀ xs ys : List Instruction,
      estimateDepth (xs ++ ys.filter (·.op.isKnown)) = estimateDepth (xs ++ ys) from h [] list
  intro xs ys
  induction ys generalizing xs with
  | nil => rfl
  | cons y ys ih =>
      cases hy : y.op.isKnown with
      | false => rw [List.filter_cons_of_neg (by simp [hy]), ih, estimateDepth_gap hy]
      | true =>
          rw [List.filter_cons_of_pos (by simpa using hy)]
          simpa using ih (xs ++ [y])

end Paths

end StackCompiler
