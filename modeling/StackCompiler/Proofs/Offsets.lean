/-
**Offsets in a list of instructions.**

The offset of an instruction is the number of bytes before it.  Markers and operations that nobody
knows have no bytes, so several instructions can share an offset; all of them but the last are of
this kind.

* `Instruction.offsets_getElem?` — an offset is the size of what stands before;
* `Instruction.noBytes_of_same_offset` — what shares its offset with a later instruction has no
  bytes;
* `firstIndex_getElem?` — the index of an offset is the first place where it occurs.
-/

import StackCompiler.Stack.Depth

namespace StackCompiler

namespace Instruction

@[simp] theorem totalSize_nil : totalSize [] = 0 := rfl

@[simp] theorem totalSize_cons (ins : Instruction) (list : List Instruction) :
    totalSize (ins :: list) = ins.width + totalSize list := rfl

@[simp] theorem totalSize_append (xs ys : List Instruction) :
    totalSize (xs ++ ys) = totalSize xs + totalSize ys := by
  induction xs with
  | nil => simp
  | cons ins xs ih => rw [List.cons_append, totalSize_cons, ih, totalSize_cons, Nat.add_assoc]

theorem offsetsFrom_append (start : Nat) (xs ys : List Instruction) :
    offsetsFrom start (xs ++ ys) =
      offsetsFrom start xs ++ offsetsFrom (start + totalSize xs) ys := by
  induction xs generalizing start with
  | nil => rfl
  | cons ins xs ih =>
      simp only [List.cons_append, offsetsFrom, ih, totalSize_cons, Nat.add_assoc]

@[simp] theorem length_offsetsFrom (start : Nat) (list : List Instruction) :
    (offsetsFrom start list).length = list.length := by
  induction list generalizing start with
  | nil => rfl
  | cons ins list ih => simp [offsetsFrom, ih]

@[simp] theorem length_offsets (list : List Instruction) : (offsets list).length = list.length :=
  length_offsetsFrom 0 list

variable {list : List Instruction} {i n : Nat} {ins : Instruction}

/-- **An offset is the size of what stands before.** -/
theorem offsets_getElem? (h : i < list.length) :
    (offsets list)[i]? = some (totalSize (list.take i)) := by
  have hsplit : list = list.take i ++ list.drop i := (List.take_append_drop i list).symm
  obtain ⟨ins, rest, hrest⟩ : ∃ ins rest, list.drop i = ins :: rest :=
    ⟨list[i], list.drop (i + 1), List.drop_eq_getElem_cons h⟩
  have hlen : (offsetsFrom 0 (list.take i)).length = i := by
    rw [length_offsetsFrom, List.length_take]
    omega
  rw [offsets]
  conv => lhs; rw [hsplit]
  rw [offsetsFrom_append, List.getElem?_append_right (by omega), hlen, hrest]
  simp [offsetsFrom]

theorem lt_length_of_offset (h : (offsets list)[i]? = some n) : i < list.length := by
  have := (List.getElem?_eq_some_iff.1 h).1
  simpa using this

/-- Offsets grow from instruction to instruction, by what stands between them. -/
theorem offset_succ (hi : (offsets list)[i]? = some n) (hins : list[i]? = some ins)
    (h : i + 1 < list.length) : (offsets list)[i + 1]? = some (n + ins.width) := by
  rw [offsets_getElem? (by omega)] at hi
  rw [offsets_getElem? h, List.take_add_one, hins, totalSize_append, ← Option.some.inj hi]
  rfl

theorem totalSize_take_le (list : List Instruction) {j : Nat} (h : i ≤ j) :
    totalSize (list.take i) ≤ totalSize (list.take j) := by
  have hsplit : list.take j = list.take i ++ (list.take j).drop i := by
    conv => lhs; rw [← List.take_append_drop i (list.take j)]
    rw [List.take_take, Nat.min_eq_left h]
  rw [hsplit, totalSize_append]
  exact Nat.le_add_right _ _

theorem offset_le {j m : Nat} (hi : (offsets list)[i]? = some m) (hj : (offsets list)[j]? = some n)
    (h : i ≤ j) : m ≤ n := by
  rw [offsets_getElem? (lt_length_of_offset hi)] at hi
  rw [offsets_getElem? (lt_length_of_offset hj)] at hj
  rw [← Option.some.inj hi, ← Option.some.inj hj]
  exact totalSize_take_le list h

theorem offset_add_width_le (hi : (offsets list)[i]? = some n) (hins : list[i]? = some ins) :
    n + ins.width ≤ totalSize list := by
  have hlt := lt_length_of_offset hi
  have hle := totalSize_take_le list hlt
  rw [offsets_getElem? hlt] at hi
  rw [List.take_length, List.take_add_one, hins, totalSize_append, Option.some.inj hi] at hle
  exact hle

theorem bounds_of_mem_offsetsFrom {o : Nat} (h : o ∈ offsetsFrom n list) :
    n ≤ o ∧ o ≤ n + totalSize list := by
  induction list generalizing n with
  | nil => cases h
  | cons ins list ih =>
      rw [totalSize_cons]
      rcases List.mem_cons.1 h with rfl | h
      · omega
      · have := ih h
        omega

theorem pairwise_offsetsFrom (n : Nat) (list : List Instruction) :
    (offsetsFrom n list).Pairwise (· ≤ ·) := by
  induction list generalizing n with
  | nil => exact List.Pairwise.nil
  | cons ins list ih =>
      refine List.pairwise_cons.2 ⟨fun o ho => ?_, ih (n + ins.width)⟩
      have := bounds_of_mem_offsetsFrom ho
      omega

theorem pairwise_located (list : List Instruction) :
    (list.zip (offsets list)).Pairwise fun x y => x.2 ≤ y.2 := by
  rw [← List.pairwise_map (f := Prod.snd), List.map_snd_zip (by simp)]
  exact pairwise_offsetsFrom 0 list

/-- An instruction ends before the later ones start. -/
theorem pairwise_located_width (n : Nat) (list : List Instruction) :
    (list.zip (offsetsFrom n list)).Pairwise fun x y => x.2 + x.1.width ≤ y.2 := by
  induction list generalizing n with
  | nil => exact List.Pairwise.nil
  | cons ins list ih =>
      refine List.pairwise_cons.2 ⟨fun y hy => ?_, ih (n + ins.width)⟩
      exact (bounds_of_mem_offsetsFrom (List.of_mem_zip hy).2).1

/-- **What shares its offset with a later instruction has no bytes**, and neither has anything
between them. -/
theorem noBytes_of_same_offset {j : Nat} (hi : (offsets list)[i]? = some n)
    (hins : list[i]? = some ins) (hj : (offsets list)[j]? = some n) (h : i < j) :
    ins.width = 0 ∧ (offsets list)[i + 1]? = some n := by
  have hj' := lt_length_of_offset hj
  have hsucc := offset_succ hi hins (by omega)
  have hle := offset_le hsucc hj h
  obtain hw : ins.width = 0 := by omega
  exact ⟨hw, by rw [hsucc, hw, Nat.add_zero]⟩

theorem width_of_isMarker (h : ins.op.isMarker = true) : ins.width = 0 := by
  unfold Op.isMarker at h
  split at h
  iterate 2 · next hop => rw [width, hop, Op.width]
  · cases h

theorem effect_of_noBytes (h : ins.width = 0) : ins.effect = ⟨0, 0⟩ := by
  unfold width at h
  unfold effect
  cases hop : ins.op <;> simp_all [Op.width]

end Instruction

/-! ### Indices of offsets -/

/-- A table that keeps the first index of every key. -/
theorem insertIfNew_fold {α : Type} (skip : α → Bool) (key : α → Nat) (xs : List α)
    (m : Std.HashMap Nat Nat) (k n : Nat) :
    ((xs.zipIdx k).foldl (fun m x => if skip x.1 then m else m.insertIfNew (key x.1) x.2) m)[n]? =
      m[n]?.or ((xs.findIdx? fun x => !skip x && key x == n).map (· + k)) := by
  induction xs generalizing m k with
  | nil => simp
  | cons x xs ih =>
      have hlater : ∀ i : Option Nat, (i.map (· + 1)).map (· + k) = i.map (· + (k + 1)) := by
        intro i
        rw [Option.map_map]
        congr 1
        funext i
        exact Nat.add_right_comm i 1 k
      rw [List.zipIdx_cons, List.foldl_cons, ih, List.findIdx?_cons]
      cases hskip : skip x with
      | true => simp [hlater]
      | false =>
          simp only [Bool.false_eq_true, if_false, Bool.not_false, Bool.true_and, beq_iff_eq,
            Std.HashMap.getElem?_insertIfNew, Std.HashMap.mem_iff_isSome_getElem?]
          by_cases hn : key x = n
          · subst hn
            cases m[key x]? <;> simp
          · simp [hn, hlater]

/-- **The index of an offset is the first place where it occurs.** -/
theorem firstIndex_getElem? (offsets : List Nat) (n : Nat) :
    (firstIndex offsets)[n]? = offsets.idxOf? n := by
  have hfold := insertIfNew_fold (fun _ => false) id offsets {} 0 n
  simpa [firstIndex, List.idxOf?] using hfold

end StackCompiler
