/-
**Bytes and fields as numbers.**

Words are put together from bytes, and instruction words from fields, by shifting and by joining
bits.  The parts never overlap, so joining them is adding them, and every question about a part is a
question about a remainder or a quotient.

* `Fields.ofWord_ofRegisters`, `Fields.ofWord_ofImmediate`, `Fields.ofWord_ofJump` — **the fields of
  a word are the arguments it was built from**, each cut to the width of its field;
* `Word.ofImmediate_ofWord`, `Word.ofJump_ofWord`, `Word.ofRegisters_ofWord_iff` — **a word is read
  back from its fields**.
-/

import Mathlib.Data.Nat.Bitwise
import StackCompiler.Bytes.LittleEndian
import StackCompiler.Mips.Word

namespace StackCompiler

/-! ### Parts that do not overlap -/

/-- Bits below a multiple of a power of two are added to it. -/
theorem mul_two_pow_or {a b k : Nat} (h : b < 2 ^ k) : a * 2 ^ k ||| b = a * 2 ^ k + b := by
  rw [← Nat.shiftLeft_eq, Nat.shiftLeft_add_eq_or_of_lt h]

/-- A multiple of a power of two is added to the bits below it. -/
theorem or_mul_two_pow {a b k : Nat} (h : b < 2 ^ k) : b ||| a * 2 ^ k = b + a * 2 ^ k := by
  rw [Nat.or_comm, mul_two_pow_or h, Nat.add_comm]

/-- A mask that has all bits from `k` on clears the bits below. -/
theorem and_upper {x n k : Nat} (h : x < 2 ^ (k + n)) :
    x &&& (2 ^ n - 1) * 2 ^ k = x / 2 ^ k * 2 ^ k := by
  apply Nat.eq_of_testBit_eq
  intro i
  rw [Nat.testBit_and, Nat.testBit_mul_two_pow, Nat.testBit_mul_two_pow, Nat.testBit_div_two_pow,
    Nat.testBit_two_pow_sub_one]
  by_cases hlow : k ≤ i
  · by_cases hhigh : i < k + n
    · simp [hlow, show i - k < n by omega, show i - k + k = i by omega]
    · have hx : x.testBit i = false :=
        Nat.testBit_lt_two_pow
          (Nat.lt_of_lt_of_le h (Nat.pow_le_pow_right (by decide) (by omega)))
      simp [hx, show i - k + k = i by omega]
  · simp [hlow]

theorem toNat_toUInt32 {n : Nat} (h : n < 2 ^ 32) : n.toUInt32.toNat = n := by
  rw [Nat.toUInt32_eq, UInt32.toNat_ofNat_of_lt' h]

namespace LittleEndian

theorem half_toNat (b₀ b₁ : UInt8) : (half b₀ b₁).toNat = b₀.toNat + b₁.toNat * 2 ^ 8 := by
  have h₀ := b₀.toNat_lt
  have h₁ := b₁.toNat_lt
  simp only [half, UInt16.toNat_or, UInt16.toNat_shiftLeft, UInt8.toNat_toUInt16, Nat.shiftLeft_eq]
  rw [show (8 : UInt16).toNat % 16 = 8 from rfl, Nat.mod_eq_of_lt (by omega), or_mul_two_pow h₀]

theorem word_toNat (b₀ b₁ b₂ b₃ : UInt8) :
    (word b₀ b₁ b₂ b₃).toNat =
      b₀.toNat + b₁.toNat * 2 ^ 8 + b₂.toNat * 2 ^ 16 + b₃.toNat * 2 ^ 24 := by
  have h₀ := b₀.toNat_lt
  have h₁ := b₁.toNat_lt
  have h₂ := b₂.toNat_lt
  have h₃ := b₃.toNat_lt
  simp only [word, UInt32.toNat_or, UInt32.toNat_shiftLeft, UInt8.toNat_toUInt32, Nat.shiftLeft_eq]
  rw [show (8 : UInt32).toNat % 32 = 8 from rfl, show (16 : UInt32).toNat % 32 = 16 from rfl,
    show (24 : UInt32).toNat % 32 = 24 from rfl, Nat.mod_eq_of_lt (by omega),
    Nat.mod_eq_of_lt (by omega), Nat.mod_eq_of_lt (by omega), or_mul_two_pow h₀,
    or_mul_two_pow (k := 16) (by omega), or_mul_two_pow (k := 24) (by omega)]

/-! ### Bytes of words -/

theorem byte_toNat (w k : UInt32) (h : k.toNat < 32) :
    (w >>> k).toUInt8.toNat = w.toNat / 2 ^ k.toNat % 2 ^ 8 := by
  rw [UInt32.toNat_toUInt8, UInt32.toNat_shiftRight, Nat.mod_eq_of_lt h, Nat.shiftRight_eq_div_pow]

/-- **A word is read back from its bytes.** -/
theorem word_bytes (w : UInt32) :
    word w.toUInt8 (w >>> 8).toUInt8 (w >>> 16).toUInt8 (w >>> 24).toUInt8 = w := by
  have hw := w.toNat_lt
  apply UInt32.toNat_inj.1
  rw [word_toNat, byte_toNat _ _ (by decide), byte_toNat _ _ (by decide),
    byte_toNat _ _ (by decide), UInt32.toNat_toUInt8]
  simp only [UInt32.reduceToNat]
  omega

/-- **The bytes of a word are the bytes that it was read from.** -/
theorem bytes32_word (b₀ b₁ b₂ b₃ : UInt8) : bytes32 (word b₀ b₁ b₂ b₃) = [b₀, b₁, b₂, b₃] := by
  have h₀ := b₀.toNat_lt
  have h₁ := b₁.toNat_lt
  have h₂ := b₂.toNat_lt
  have h₃ := b₃.toNat_lt
  have key : ∀ k : UInt32, k.toNat < 32 → ((word b₀ b₁ b₂ b₃) >>> k).toUInt8.toNat =
      (b₀.toNat + b₁.toNat * 2 ^ 8 + b₂.toNat * 2 ^ 16 + b₃.toNat * 2 ^ 24) / 2 ^ k.toNat % 2 ^ 8 :=
    fun k hk => by rw [byte_toNat _ _ hk, word_toNat]
  simp only [bytes32, List.cons.injEq, and_true]
  refine ⟨?_, ?_, ?_, ?_⟩ <;> apply UInt8.toNat_inj.1
  · rw [UInt32.toNat_toUInt8, word_toNat]; omega
  · rw [key 8 (by decide), show (8 : UInt32).toNat = 8 from rfl]; omega
  · rw [key 16 (by decide), show (16 : UInt32).toNat = 16 from rfl]; omega
  · rw [key 24 (by decide), show (24 : UInt32).toNat = 24 from rfl]; omega

theorem half_bytes (h : UInt16) : half h.toUInt8 (h >>> 8).toUInt8 = h := by
  have hh := h.toNat_lt
  apply UInt16.toNat_inj.1
  rw [half_toNat, UInt16.toNat_toUInt8, UInt16.toNat_toUInt8, UInt16.toNat_shiftRight,
    show (8 : UInt16).toNat % 16 = 8 from rfl, Nat.shiftRight_eq_div_pow]
  omega

/-- The bytes of a half word are the bytes that it was read from. -/
theorem bytes16_half (b₀ b₁ : UInt8) : bytes16 (half b₀ b₁) = [b₀, b₁] := by
  have h₀ := b₀.toNat_lt
  have h₁ := b₁.toNat_lt
  simp only [bytes16, List.cons.injEq, and_true]
  refine ⟨?_, ?_⟩ <;> apply UInt8.toNat_inj.1
  · rw [UInt16.toNat_toUInt8, half_toNat]; omega
  · rw [UInt16.toNat_toUInt8, UInt16.toNat_shiftRight, half_toNat,
      show (8 : UInt16).toNat % 16 = 8 from rfl, Nat.shiftRight_eq_div_pow]
    omega

end LittleEndian

/-! ### Fields of instruction words -/

namespace Word

theorem and_mask_toNat (w m : UInt32) (k : Nat) (h : m.toNat = 2 ^ k - 1) :
    (w &&& m).toNat = w.toNat % 2 ^ k := by
  rw [UInt32.toNat_and, h, Nat.and_two_pow_sub_one_eq_mod]

theorem and_register_toNat (r : Register) : (r &&& 0x1F).toNat = r.toNat % 2 ^ 5 := by
  rw [UInt8.toNat_and, show (0x1F : UInt8).toNat = 2 ^ 5 - 1 from rfl,
    Nat.and_two_pow_sub_one_eq_mod]

/-- A mask leaves the remainder. -/
theorem eq_and_mask_iff {v w m : UInt32} (k : Nat) (h : m.toNat = 2 ^ k - 1) :
    v = w &&& m ↔ v.toNat = w.toNat % 2 ^ k := by
  rw [← and_mask_toNat w m k h, UInt32.toNat_inj]

theorem eq_and_register_iff {v r : Register} : v = r &&& 0x1F ↔ v.toNat = r.toNat % 2 ^ 5 := by
  rw [← and_register_toNat, UInt8.toNat_inj]

theorem registerField_toNat (r : Register) : (registerField r).toNat = r.toNat % 2 ^ 5 := by
  rw [registerField, UInt8.toNat_toUInt32, and_register_toNat]

theorem ofRegisters_toNat (rs rt rd : Register) (shamt funct : UInt32) :
    (ofRegisters rs rt rd shamt funct).toNat =
      rs.toNat % 2 ^ 5 * 2 ^ 21 + (rt.toNat % 2 ^ 5 * 2 ^ 16 + (rd.toNat % 2 ^ 5 * 2 ^ 11 +
        (shamt.toNat % 2 ^ 5 * 2 ^ 6 + funct.toNat % 2 ^ 6))) := by
  simp only [ofRegisters, UInt32.toNat_or, UInt32.toNat_shiftLeft, registerField_toNat,
    and_mask_toNat _ 0x1F 5 rfl, and_mask_toNat _ 0x3F 6 rfl, Nat.shiftLeft_eq, Nat.or_assoc]
  simp only [UInt32.reduceToNat, Nat.reduceMod]
  simp (disch := omega) only [Nat.mod_eq_of_lt (b := 2 ^ 32), mul_two_pow_or]

theorem ofImmediate_toNat (op : UInt32) (rs rt : Register) (imm : UInt16) :
    (ofImmediate op rs rt imm).toNat =
      op.toNat % 2 ^ 6 * 2 ^ 26 + (rs.toNat % 2 ^ 5 * 2 ^ 21 + (rt.toNat % 2 ^ 5 * 2 ^ 16 +
        imm.toNat)) := by
  have hi := imm.toNat_lt
  simp only [ofImmediate, UInt32.toNat_or, UInt32.toNat_shiftLeft, registerField_toNat,
    and_mask_toNat _ 0x3F 6 rfl, UInt16.toNat_toUInt32, Nat.shiftLeft_eq, Nat.or_assoc]
  simp only [UInt32.reduceToNat, Nat.reduceMod]
  simp (disch := omega) only [Nat.mod_eq_of_lt (b := 2 ^ 32), mul_two_pow_or]

theorem ofJump_toNat (op address : UInt32) :
    (ofJump op address).toNat = op.toNat % 2 ^ 6 * 2 ^ 26 + address.toNat / 2 ^ 2 % 2 ^ 26 := by
  simp only [ofJump, UInt32.toNat_or, UInt32.toNat_shiftLeft, and_mask_toNat _ 0x3F 6 rfl,
    and_mask_toNat _ 0x03FFFFFF 26 rfl, UInt32.toNat_shiftRight, Nat.shiftLeft_eq,
    Nat.shiftRight_eq_div_pow]
  simp only [UInt32.reduceToNat, Nat.reduceMod]
  rw [Nat.mod_eq_of_lt (b := 2 ^ 32) (by omega), mul_two_pow_or (k := 26) (by omega)]

theorem bits_toNat (w s m : UInt32) (k : Nat) (hs : s.toNat < 32) (hm : m.toNat = 2 ^ k - 1) :
    (w >>> s &&& m).toNat = w.toNat / 2 ^ s.toNat % 2 ^ k := by
  rw [and_mask_toNat _ _ _ hm, UInt32.toNat_shiftRight, Nat.mod_eq_of_lt hs,
    Nat.shiftRight_eq_div_pow]

theorem registerBits_toNat (w s : UInt32) (hs : s.toNat < 32) :
    (w >>> s &&& 0x1F).toUInt8.toNat = w.toNat / 2 ^ s.toNat % 2 ^ 5 := by
  rw [UInt32.toNat_toUInt8, bits_toNat w s 0x1F 5 hs rfl]
  omega

end Word

namespace Fields

open Word

theorem ofWord_op_toNat (w : UInt32) : (ofWord w).op.toNat = w.toNat / 2 ^ 26 := by
  simp only [ofWord, UInt32.toNat_shiftRight, Nat.shiftRight_eq_div_pow]
  rfl

theorem ofWord_rs_toNat (w : UInt32) : (ofWord w).rs.toNat = w.toNat / 2 ^ 21 % 2 ^ 5 :=
  registerBits_toNat w 21 (by decide)

theorem ofWord_rt_toNat (w : UInt32) : (ofWord w).rt.toNat = w.toNat / 2 ^ 16 % 2 ^ 5 :=
  registerBits_toNat w 16 (by decide)

theorem ofWord_rd_toNat (w : UInt32) : (ofWord w).rd.toNat = w.toNat / 2 ^ 11 % 2 ^ 5 :=
  registerBits_toNat w 11 (by decide)

theorem ofWord_shamt_toNat (w : UInt32) : (ofWord w).shamt.toNat = w.toNat / 2 ^ 6 % 2 ^ 5 :=
  bits_toNat w 6 0x1F 5 (by decide) rfl

theorem ofWord_funct_toNat (w : UInt32) : (ofWord w).funct.toNat = w.toNat % 2 ^ 6 :=
  and_mask_toNat w 0x3F 6 rfl

theorem ofWord_imm_toNat (w : UInt32) : (ofWord w).imm.toNat = w.toNat % 2 ^ 16 := by
  simp only [ofWord, UInt32.toNat_toUInt16]

theorem ofWord_index_toNat (w : UInt32) : (ofWord w).index.toNat = w.toNat % 2 ^ 26 :=
  and_mask_toNat w 0x03FFFFFF 26 rfl

/-- **The fields of a word that was built from registers.** -/
theorem ofWord_ofRegisters (rs rt rd : Register) (shamt funct : UInt32) :
    let f := ofWord (ofRegisters rs rt rd shamt funct)
    f.op = 0 ∧ f.rs = rs &&& 0x1F ∧ f.rt = rt &&& 0x1F ∧ f.rd = rd &&& 0x1F ∧
      f.shamt = shamt &&& 0x1F ∧ f.funct = funct &&& 0x3F := by
  refine ⟨UInt32.toNat_inj.1 ?_, eq_and_register_iff.2 ?_, eq_and_register_iff.2 ?_,
    eq_and_register_iff.2 ?_, (eq_and_mask_iff 5 rfl).2 ?_, (eq_and_mask_iff 6 rfl).2 ?_⟩
  · rw [ofWord_op_toNat, ofRegisters_toNat, show (0 : UInt32).toNat = 0 from rfl]
    omega
  · rw [ofWord_rs_toNat, ofRegisters_toNat]
    omega
  · rw [ofWord_rt_toNat, ofRegisters_toNat]
    omega
  · rw [ofWord_rd_toNat, ofRegisters_toNat]
    omega
  · rw [ofWord_shamt_toNat, ofRegisters_toNat]
    omega
  · rw [ofWord_funct_toNat, ofRegisters_toNat]
    omega

/-- **The fields of a word that was built with an immediate.** -/
theorem ofWord_ofImmediate (op : UInt32) (rs rt : Register) (imm : UInt16) :
    let f := ofWord (ofImmediate op rs rt imm)
    f.op = op &&& 0x3F ∧ f.rs = rs &&& 0x1F ∧ f.rt = rt &&& 0x1F ∧ f.imm = imm := by
  have hi := imm.toNat_lt
  refine ⟨(eq_and_mask_iff 6 rfl).2 ?_, eq_and_register_iff.2 ?_, eq_and_register_iff.2 ?_,
    UInt16.toNat_inj.1 ?_⟩
  · rw [ofWord_op_toNat, ofImmediate_toNat]
    omega
  · rw [ofWord_rs_toNat, ofImmediate_toNat]
    omega
  · rw [ofWord_rt_toNat, ofImmediate_toNat]
    omega
  · rw [ofWord_imm_toNat, ofImmediate_toNat]
    omega

/-- **The fields of a word that was built for a jump.** -/
theorem ofWord_ofJump (op address : UInt32) :
    let f := ofWord (ofJump op address)
    f.op = op &&& 0x3F ∧ f.index = address >>> 2 &&& 0x03FFFFFF := by
  refine ⟨(eq_and_mask_iff 6 rfl).2 ?_, UInt32.toNat_inj.1 ?_⟩
  · rw [ofWord_op_toNat, ofJump_toNat]
    omega
  · rw [ofWord_index_toNat, ofJump_toNat, bits_toNat _ 2 _ 26 (by decide) rfl,
      show (2 : UInt32).toNat = 2 from rfl]
    omega

end Fields

/-! ### Words from their fields -/

namespace Word

open Fields

/-- **A word is read back from the fields around its immediate.** -/
theorem ofImmediate_ofWord (w : UInt32) :
    ofImmediate (ofWord w).op (ofWord w).rs (ofWord w).rt (ofWord w).imm = w := by
  have hw := w.toNat_lt
  apply UInt32.toNat_inj.1
  rw [ofImmediate_toNat, ofWord_op_toNat, ofWord_rs_toNat, ofWord_rt_toNat, ofWord_imm_toNat]
  omega

/-- **A word is read back from its opcode and its index**, which counts words and not bytes. -/
theorem ofJump_ofWord (w : UInt32) : ofJump (ofWord w).op ((ofWord w).index * 4) = w := by
  have hw := w.toNat_lt
  apply UInt32.toNat_inj.1
  -- an index of 26 bits is still a word when it is multiplied by four
  have hindex : w.toNat % 2 ^ 26 * 2 ^ 2 < 2 ^ 32 := by omega
  rw [ofJump_toNat, UInt32.toNat_mul, ofWord_op_toNat, ofWord_index_toNat,
    show (4 : UInt32).toNat = 2 ^ 2 from rfl, Nat.mod_eq_of_lt hindex,
    Nat.mul_div_cancel _ (by decide), Nat.mod_mod]
  omega

/-- The fields of a register operation leave the opcode out: they give zero for it. -/
theorem ofRegisters_ofWord_toNat (w : UInt32) :
    let f := ofWord w
    (ofRegisters f.rs f.rt f.rd f.shamt f.funct).toNat = w.toNat % 2 ^ 26 := by
  intro f
  rw [ofRegisters_toNat, ofWord_rs_toNat, ofWord_rt_toNat, ofWord_rd_toNat, ofWord_shamt_toNat,
    ofWord_funct_toNat]
  simp only [Nat.mod_mod]
  omega

theorem ofRegisters_ofWord_iff (w : UInt32) :
    let f := ofWord w
    ofRegisters f.rs f.rt f.rd f.shamt f.funct = w ↔ f.op = 0 := by
  have hw := w.toNat_lt
  intro f
  rw [← UInt32.toNat_inj, ← UInt32.toNat_inj, ofRegisters_ofWord_toNat, ofWord_op_toNat,
    show (0 : UInt32).toNat = 0 from rfl]
  omega

/-- **Words and fields correspond.**  Each of the three layouts gives a word back from its fields,
the one for registers exactly where the opcode is zero; and the fields of a built word are the
arguments modulo the widths of the fields. -/
theorem fields_correspond (w op shamt funct address : UInt32) (rs rt rd : Register)
    (imm : UInt16) :
    let f := ofWord w
    let r := ofWord (ofRegisters rs rt rd shamt funct)
    let i := ofWord (ofImmediate op rs rt imm)
    let j := ofWord (ofJump op address)
    (ofImmediate f.op f.rs f.rt f.imm = w ∧ ofJump f.op (f.index * 4) = w ∧
      (ofRegisters f.rs f.rt f.rd f.shamt f.funct = w ↔ f.op = 0)) ∧
    (r.op = 0 ∧ r.rs.toNat = rs.toNat % 2 ^ 5 ∧ r.rt.toNat = rt.toNat % 2 ^ 5 ∧
      r.rd.toNat = rd.toNat % 2 ^ 5 ∧ r.shamt.toNat = shamt.toNat % 2 ^ 5 ∧
      r.funct.toNat = funct.toNat % 2 ^ 6) ∧
    (i.op.toNat = op.toNat % 2 ^ 6 ∧ i.rs.toNat = rs.toNat % 2 ^ 5 ∧
      i.rt.toNat = rt.toNat % 2 ^ 5 ∧ i.imm = imm) ∧
    j.op.toNat = op.toNat % 2 ^ 6 ∧ j.index.toNat = address.toNat / 2 ^ 2 % 2 ^ 26 := by
  intro f r i j
  obtain ⟨hop, hrs, hrt, hrd, hshamt, hfunct⟩ := ofWord_ofRegisters rs rt rd shamt funct
  obtain ⟨hiop, hirs, hirt, himm⟩ := ofWord_ofImmediate op rs rt imm
  obtain ⟨hjop, hindex⟩ := ofWord_ofJump op address
  refine ⟨⟨ofImmediate_ofWord w, ofJump_ofWord w, ofRegisters_ofWord_iff w⟩,
    ⟨hop, eq_and_register_iff.1 hrs, eq_and_register_iff.1 hrt, eq_and_register_iff.1 hrd,
      (eq_and_mask_iff 5 rfl).1 hshamt, (eq_and_mask_iff 6 rfl).1 hfunct⟩,
    ⟨(eq_and_mask_iff 6 rfl).1 hiop, eq_and_register_iff.1 hirs, eq_and_register_iff.1 hirt, himm⟩,
    (eq_and_mask_iff 6 rfl).1 hjop, ?_⟩
  rw [hindex]
  exact bits_toNat address 2 _ 26 (by decide) rfl

end Word

end StackCompiler
