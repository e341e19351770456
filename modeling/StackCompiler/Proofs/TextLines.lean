/-
**The lines of a text.**

A text is cut at every newline, and so it can be put together from pieces that are cut one by one,
as long as each of them but the last ends with a newline.  What is found on a line is found in the
text.

* `Text.splitOn_append` — **a separator is where a text can be cut in two**.
-/

import StackCompiler.Text.Basic

namespace StackCompiler.Text

variable {separator : UInt8}

/-! ### Cutting -/

theorem splitOn_separator (separator : UInt8) (t : Text) :
    splitOn separator (separator :: t) = [] :: splitOn separator t := by
  rw [splitOn, List.foldr_cons, if_pos rfl]
  rfl

theorem splitOn_cons {c : UInt8} (h : c ≠ separator) (t : Text) :
    splitOn separator (c :: t) = (splitOn separator t).modifyHead (c :: ·) := by
  rw [splitOn, List.foldr_cons, if_neg h]
  rfl

theorem splitOn_eq_cons (separator : UInt8) (t : Text) :
    ∃ part parts, splitOn separator t = part :: parts := by
  induction t with
  | nil => exact ⟨[], [], rfl⟩
  | cons c t ih =>
      obtain ⟨part, parts, ht⟩ := ih
      by_cases h : c = separator
      · subst h
        exact ⟨[], _, splitOn_separator c t⟩
      · exact ⟨c :: part, parts, by rw [splitOn_cons h, ht, List.modifyHead_cons]⟩

/-- **A separator is where a text can be cut in two.** -/
theorem splitOn_append (separator : UInt8) (s t : Text) :
    splitOn separator (s ++ separator :: t) = splitOn separator s ++ splitOn separator t := by
  induction s with
  | nil => exact splitOn_separator separator t
  | cons c s ih =>
      rw [List.cons_append]
      by_cases h : c = separator
      · subst h
        rw [splitOn_separator, splitOn_separator, ih, List.cons_append]
      · obtain ⟨part, parts, hs⟩ := splitOn_eq_cons separator s
        rw [splitOn_cons h, splitOn_cons h, ih, hs]
        rfl

theorem splitOn_of_not_mem {t : Text} (h : separator ∉ t) : splitOn separator t = [t] := by
  induction t with
  | nil => rfl
  | cons c t ih =>
      rw [splitOn_cons (List.ne_of_not_mem_cons h).symm, ih (List.not_mem_of_not_mem_cons h)]
      rfl

/-- What holds no separator belongs to the first part. -/
theorem splitOn_append_of_not_mem {s : Text} (h : separator ∉ s) (t : Text) :
    splitOn separator (s ++ t) = (splitOn separator t).modifyHead (s ++ ·) := by
  obtain ⟨part, parts, ht⟩ := splitOn_eq_cons separator t
  rw [ht]
  induction s with
  | nil => exact ht
  | cons c s ih =>
      rw [List.cons_append, splitOn_cons (List.ne_of_not_mem_cons h).symm,
        ih (List.not_mem_of_not_mem_cons h)]
      rfl

/-- The lines of lines that were put together, and of what follows them. -/
theorem splitOn_unlines (ts : List Text) (rest : Text) :
    splitOn newline (unlines ts ++ rest) =
      ts.flatMap (splitOn newline) ++ splitOn newline rest := by
  induction ts with
  | nil => rfl
  | cons t ts ih =>
      have hcut : unlines (t :: ts) ++ rest = t ++ newline :: (unlines ts ++ rest) := by
        simp [unlines]
      rw [hcut, splitOn_append, ih, List.flatMap_cons, List.append_assoc]

/-- **Cutting leaves out nothing but separators.** -/
theorem flatten_splitOn (separator : UInt8) (t : Text) :
    (splitOn separator t).flatten = t.filter (· ≠ separator) := by
  induction t with
  | nil => rfl
  | cons c t ih =>
      by_cases h : c = separator
      · subst h
        rw [splitOn_separator, List.flatten_cons, List.nil_append, ih,
          List.filter_cons_of_neg (by simp)]
      · obtain ⟨part, parts, ht⟩ := splitOn_eq_cons separator t
        rw [List.filter_cons_of_pos (by simpa using h), ← ih, splitOn_cons h, ht]
        rfl

/-! ### Parts of a text -/

/-- A text begins with its first part, and its other parts stand behind that. -/
theorem infix_of_mem_splitOn {t part : Text} (h : part ∈ splitOn separator t) : part <:+: t := by
  suffices hall : ∀ t : Text, ∃ part parts, splitOn separator t = part :: parts ∧ part <+: t ∧
      ∀ p ∈ parts, p <:+: t by
    obtain ⟨first, parts, hsplit, hfirst, hparts⟩ := hall t
    rw [hsplit] at h
    rcases List.mem_cons.1 h with rfl | h
    · exact hfirst.isInfix
    · exact hparts part h
  intro t
  induction t with
  | nil => exact ⟨[], [], rfl, List.prefix_rfl, List.forall_mem_nil _⟩
  | cons c t ih =>
      obtain ⟨first, parts, ht, hfirst, hparts⟩ := ih
      have hparts' : ∀ p ∈ parts, p <:+: c :: t := fun p hp => List.infix_cons (hparts p hp)
      by_cases hc : c = separator
      · subst hc
        refine ⟨[], first :: parts, by rw [splitOn_separator, ht], List.nil_prefix, ?_⟩
        exact List.forall_mem_cons.2 ⟨List.infix_cons hfirst.isInfix, hparts'⟩
      · refine ⟨c :: first, parts, by rw [splitOn_cons hc, ht, List.modifyHead_cons], ?_, hparts'⟩
        exact (List.prefix_cons_inj c).2 hfirst

theorem occursIn_iff {needle t : Text} : occursIn needle t = true ↔ needle <:+: t := by
  induction t with
  | nil => rw [occursIn, List.isEmpty_iff, List.infix_nil]
  | cons c t ih =>
      rw [occursIn, Bool.or_eq_true, List.isPrefixOf_iff_prefix, ih, List.infix_cons_iff]

end StackCompiler.Text
