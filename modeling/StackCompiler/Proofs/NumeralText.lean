/-
**Numerals are read back.**

A number is written from its last digit on and read from its first.  The link between the two is a
law about a number in front of digits: reading what was written in front of them is reading them
behind that number.

* `Numeral.readDigits_writeFrom` — **reading follows writing**.
-/

import Mathlib.Algebra.Group.Int.Defs
import Mathlib.Algebra.Group.Nat.Defs
import StackCompiler.Text.Numeral

namespace StackCompiler.Numeral

/-! ### Digits -/

variable {d : Nat}

theorem value?_digit (h : d < 16) : value? (digit d) = some d := by
  have : ∀ d < 16, value? (digit d) = some d := by decide
  exact this d h

theorem digit_ne_separator (h : d < 16) : (digit d == 95) = false := by
  have : ∀ d < 16, (digit d == 95) = false := by decide
  exact this d h

variable {base most n : Nat}

theorem readDigits_digit (separated : Bool) (rest : Text) (hbase : base ≤ 16) (hd : d < base)
    (hmost : n * base + d ≤ most) :
    readDigits base separated most (digit d :: rest) n =
      readDigits base separated most rest (n * base + d) := by
  rw [readDigits, digit_ne_separator (by omega), Bool.and_false, if_neg Bool.false_ne_true,
    value?_digit (by omega)]
  simp only [if_neg (Nat.not_le.2 hd), if_neg (Nat.not_lt.2 hmost)]

variable {fuel : Nat}

/-- **Reading follows writing**: a number that was written in front of digits is behind them when
they are read. -/
theorem readDigits_writeFrom (separated : Bool) (hbase : 2 ≤ base ∧ base ≤ 16) (hfuel : n < fuel)
    (hn : n ≤ most) (written : Text) :
    readDigits base separated most (writeFrom base fuel n written) 0 =
      readDigits base separated most written n := by
  induction fuel generalizing n written with
  | zero => omega
  | succ fuel ih =>
      rw [writeFrom]
      by_cases hlt : n < base
      · rw [if_pos hlt, readDigits_digit separated written hbase.2 hlt (by omega)]
        congr 1
        omega
      · have hdiv : n / base < n := Nat.div_lt_self (by omega) (by omega)
        have hsplit : n / base * base + n % base = n := Nat.div_add_mod' n base
        rw [if_neg hlt, ih (by omega) (by omega),
          readDigits_digit separated written hbase.2 (Nat.mod_lt _ (by omega)) (by omega), hsplit]

theorem readDigits_write (base : Nat) (separated : Bool) (hbase : 2 ≤ base ∧ base ≤ 16)
    (hn : n ≤ most) : readDigits base separated most (write base n) 0 = .ok n := by
  rw [write, readDigits_writeFrom separated hbase (Nat.lt_succ_self n) hn, readDigits]

/-! ### The bytes of a numeral -/

theorem writeFrom_eq_cons (hbase : 2 ≤ base) (hfuel : n < fuel) (written : Text) :
    ∃ d rest, writeFrom base fuel n written = digit d :: rest ∧ d < base ∧ (0 < n → 0 < d) := by
  induction fuel generalizing n written with
  | zero => omega
  | succ fuel ih =>
      rw [writeFrom]
      by_cases hlt : n < base
      · exact ⟨n, written, by rw [if_pos hlt], hlt, id⟩
      · have hdiv : n / base < n := Nat.div_lt_self (by omega) (by omega)
        have hpos : 0 < n / base := Nat.div_pos (by omega) (by omega)
        obtain ⟨d, rest, h, hd, hd'⟩ :=
          ih (n := n / base) (by omega) (digit (n % base) :: written)
        exact ⟨d, rest, by rw [if_neg hlt, h], hd, fun _ => hd' hpos⟩

theorem mem_writeFrom (hbase : 2 ≤ base) {written : Text} {c : UInt8}
    (hc : c ∈ writeFrom base fuel n written) : c ∈ written ∨ ∃ d < base, c = digit d := by
  induction fuel generalizing n written with
  | zero => exact Or.inl hc
  | succ fuel ih =>
      rw [writeFrom] at hc
      by_cases hlt : n < base
      · rw [if_pos hlt] at hc
        rcases List.mem_cons.1 hc with rfl | hc
        · exact Or.inr ⟨n, hlt, rfl⟩
        · exact Or.inl hc
      · rw [if_neg hlt] at hc
        rcases ih hc with hc | hc
        · rcases List.mem_cons.1 hc with rfl | hc
          · exact Or.inr ⟨n % base, Nat.mod_lt _ (by omega), rfl⟩
          · exact Or.inl hc
        · exact Or.inr hc

theorem mem_write (hbase : 2 ≤ base) {c : UInt8} (hc : c ∈ write base n) :
    ∃ d < base, c = digit d := by
  rcases mem_writeFrom hbase hc with hc | hc
  · cases hc
  · exact hc

theorem write_eq_cons (base : Nat) (hbase : 2 ≤ base) (n : Nat) :
    ∃ d rest, write base n = digit d :: rest ∧ d < base ∧ (0 < n → 0 < d) :=
  writeFrom_eq_cons hbase (Nat.lt_succ_self n) []

theorem not_contains_separator (base n : Nat) (hbase : 2 ≤ base ∧ base ≤ 16) :
    (write base n).contains 95 = false := by
  rw [Bool.eq_false_iff]
  intro h
  obtain ⟨d, hd, hdigit⟩ := mem_write hbase.1 (List.contains_iff_mem.1 h)
  have := digit_ne_separator (d := d) (by omega)
  rw [← hdigit] at this
  exact absurd this (by decide)

/-! ### Numbers with a base of their own -/

theorem namedBase_digit (h0 : 0 < d) (hd : d < 10) (rest : Text) :
    namedBase (digit d :: rest) = (10, digit d :: rest) := by
  have : ∀ d < 10, 0 < d → digit d ≠ 48 := by decide
  unfold namedBase
  split
  iterate 2 · next h => exact absurd (List.cons.inj h).1 (this d hd h0)
  · rfl

/-- **A decimal numeral is read as its number.** -/
theorem readUnsigned_decimal (hn : n ≤ most) : readUnsigned none most (decimal n) = .ok n := by
  rcases Nat.eq_zero_or_pos n with rfl | hpos
  · -- a single zero names octal, and nothing is left to read
    rfl
  · obtain ⟨d, rest, h, hd, hd0⟩ := write_eq_cons 10 (by decide) n
    have hread := readDigits_write 10 true (by decide) hn
    have hsep := not_contains_separator 10 n (by decide)
    rw [decimal, readUnsigned]
    rw [h] at hread hsep ⊢
    simp only [List.isEmpty_cons, Bool.false_eq_true, if_false, namedBase_digit (hd0 hpos) hd,
      hread, hsep, Bool.false_and]
    rfl

theorem readUnsigned_hex (hn : n ≤ most) : readUnsigned none most (48 :: 120 :: hex n) = .ok n := by
  obtain ⟨d, rest, h, -, -⟩ := write_eq_cons 16 (by decide) n
  have hread := readDigits_write 16 true (by decide) hn
  have hsep := not_contains_separator 16 n (by decide)
  have hbase : namedBase (48 :: 120 :: hex n) = (16, hex n) := by
    rw [hex, h, namedBase]
    rfl
  rw [readUnsigned]
  simp only [List.isEmpty_cons, Bool.false_eq_true, if_false, hbase]
  rw [hex, hread, hsep, Bool.false_and]
  rfl

/-! ### Signs -/

theorem readSigned_of_unsigned {c : UInt8} {t : Text} (bits : Nat) (hsign : c ≠ 43 ∧ c ≠ 45)
    (hread : readUnsigned none (Nat.pow 2 bits - 1) (c :: t) = .ok n)
    (hn : n < Nat.pow 2 (bits - 1)) : readSigned none bits (c :: t) = .ok n := by
  unfold readSigned
  split
  next negative body heq =>
    split at heq
    · next h => exact absurd (List.cons.inj h).1 hsign.1
    · next h => exact absurd (List.cons.inj h).1 hsign.2
    · obtain ⟨rfl, rfl⟩ := Prod.mk.inj heq
      rw [hread]
      simp only [bind, Except.bind, Bool.false_eq_true, if_false, if_neg (Nat.not_le.2 hn)]

theorem readSigned_minus {t : Text} (bits : Nat)
    (hread : readUnsigned none (Nat.pow 2 bits - 1) t = .ok n) (hn : n ≤ Nat.pow 2 (bits - 1)) :
    readSigned none bits (45 :: t) = .ok (-(n : Int)) := by
  simp only [readSigned, hread]
  simp only [bind, Except.bind, if_true, if_neg (Nat.not_lt.2 hn)]

theorem digit_ne_sign (h : d < 16) : digit d ≠ 43 ∧ digit d ≠ 45 := by
  have : ∀ d < 16, digit d ≠ 43 ∧ digit d ≠ 45 := by decide
  exact this d h

/-- **A written integer is read back**, if it fits. -/
theorem readSigned_signed {n : Int} (hlo : -2 ^ 63 ≤ n) (hhi : n < 2 ^ 63) :
    readSigned none 64 (signed n) = .ok n := by
  cases n with
  | ofNat n =>
      have hn : n < 2 ^ 63 := by
        have : (n : Int) < 2 ^ 63 := hhi
        omega
      have hread : readUnsigned none (2 ^ 64 - 1) (decimal n) = .ok n :=
        readUnsigned_decimal (by omega)
      obtain ⟨d, rest, hw, hd, -⟩ := write_eq_cons 10 (by decide) n
      rw [signed, decimal, hw]
      rw [decimal, hw] at hread
      exact readSigned_of_unsigned 64 (digit_ne_sign (by omega)) hread hn
  | negSucc n =>
      have hn : n + 1 ≤ 2 ^ 63 := by
        rw [Int.negSucc_eq] at hlo
        omega
      have hread : readUnsigned none (2 ^ 64 - 1) (decimal (n + 1)) = .ok (n + 1) :=
        readUnsigned_decimal (by omega)
      exact readSigned_minus 64 hread hn

/-- A written address is read back. -/
theorem readSigned_hex (hn : n < 2 ^ 63) : readSigned none 64 (48 :: 120 :: hex n) = .ok n := by
  have hread : readUnsigned none (2 ^ 64 - 1) (48 :: 120 :: hex n) = .ok n :=
    readUnsigned_hex (by omega)
  exact readSigned_of_unsigned 64 (by decide) hread hn

end StackCompiler.Numeral
