/-
**Words are carried out as what they encode.**

The assembler writes an operation with its registers and its immediate into a word, and the machine
takes them out again.  This module joins the two: stepping a word that was written for an operation
is performing that operation on those registers.  Steps are then counted and put together.

* `Operation.registerWord_decoded`, `Operation.immediateWord_decoded`, `Operation.jumpWord_decoded`
  — **a word says what was written into it**.
-/

import StackCompiler.Machine.Run
import StackCompiler.Proofs.CheckedWords
import StackCompiler.Proofs.ImageLayout
import StackCompiler.Proofs.MemoryWords

namespace StackCompiler

/-! ### Registers -/

namespace Registers

theorem get_put (rs : Registers) (r r' : Register) (v : UInt32) :
    (rs.put r v).get r' = if r' = r ∧ r < 32 then v else rs.get r' := by
  have hinj : r.toNat = r'.toNat ↔ r' = r :=
    ⟨fun h => (UInt8.toNat_inj.1 h).symm, fun h => by rw [h]⟩
  have hlt : r.toNat < 32 ↔ r < 32 := (UInt8.lt_iff_toNat_lt (b := 32)).symm
  unfold put get
  rw [Vector.getElem?_setIfInBounds]
  by_cases h : r' = r
  · subst h
    by_cases h32 : r' < 32
    · simp [h32, hlt.2 h32]
    · have : ¬ r'.toNat < 32 := fun h => h32 (hlt.1 h)
      simp [h32, this]
  · have : ¬ r.toNat = r'.toNat := fun heq => h (hinj.1 heq)
    simp [h, this]

/-- **The law of registers**: register zero stays, any other is replaced. -/
theorem get_set (rs : Registers) (r r' : Register) (v : UInt32) :
    (rs.set r v).get r' = if r' = r ∧ r ≠ 0 ∧ r < 32 then v else rs.get r' := by
  unfold set
  by_cases h : r = Register.zero
  · rw [if_pos h, if_neg]
    rintro ⟨-, hne, -⟩
    exact hne h
  · have h0 : r ≠ 0 := h
    rw [if_neg h, get_put]
    simp [h0]

theorem set_set (rs : Registers) (r : Register) (v v' : UInt32) :
    (rs.set r v).set r v' = rs.set r v' := by
  unfold set
  split
  · rfl
  · simp [put]

theorem get_zero_set (rs : Registers) (r : Register) (v : UInt32) :
    (rs.set r v).get 0 = rs.get 0 := by
  rw [get_set, if_neg]
  rintro ⟨rfl, h, -⟩
  exact h rfl

end Registers

/-! ### Words say what was written into them -/

namespace Operation

theorem register_masked {r : Register} (h : r < 32) : r &&& 0x1F = r := by
  apply UInt8.toNat_inj.1
  rw [Word.and_register_toNat]
  exact Nat.mod_eq_of_lt (UInt8.lt_iff_toNat_lt.1 h)

variable {o : Operation}

theorem function_code {funct : UInt32} (h : o.code = .function funct) :
    funct &&& 0x3F = funct ∧ ofFunction? funct = some o := by
  refine ⟨?_, by have := ofCode?_code o; rwa [h] at this⟩
  cases o <;> first | (cases h; decide) | cases h

variable {op : UInt32}

theorem primary_code (h : o.code = .primary op) :
    op &&& 0x3F = op ∧ op ≠ 0 ∧ ofPrimary? op = some o := by
  refine ⟨?_, ?_, by have := ofCode?_code o; rwa [h] at this⟩
  iterate 2 · cases o <;> first | (cases h; decide) | cases h

/-- **A word with registers**: the machine finds the operation, the registers and five bits of the
shift amount. -/
theorem registerWord_decoded {funct : UInt32} (h : o.code = .function funct) {rs rt rd : Register}
    (hs : rs < 32) (ht : rt < 32) (hd : rd < 32) (shamt : UInt32) :
    let f := Fields.ofWord (o.registerWord rs rt rd shamt)
    ofFields? f = some o ∧ f.rs = rs ∧ f.rt = rt ∧ f.rd = rd ∧ f.shamt = shamt &&& 31 := by
  obtain ⟨hmask, hof⟩ := function_code h
  have hword : o.registerWord rs rt rd shamt = Word.ofRegisters rs rt rd shamt funct := by
    rw [registerWord, h]
  obtain ⟨h0, hrs, hrt, hrd, hshamt, hfunct⟩ := Fields.ofWord_ofRegisters rs rt rd shamt funct
  rw [hword]
  refine ⟨?_, ?_, ?_, ?_, hshamt⟩
  · rw [ofFields?, h0, if_pos rfl, hfunct, hmask, hof]
  · rw [hrs, register_masked hs]
  · rw [hrt, register_masked ht]
  · rw [hrd, register_masked hd]

/-- **A word with an immediate.** -/
theorem immediateWord_decoded (h : o.code = .primary op) {rs rt : Register} (hs : rs < 32)
    (ht : rt < 32) (imm : UInt16) :
    let f := Fields.ofWord (o.immediateWord rs rt imm)
    ofFields? f = some o ∧ f.rs = rs ∧ f.rt = rt ∧ f.imm = imm := by
  obtain ⟨hmask, hne, hof⟩ := primary_code h
  have hword : o.immediateWord rs rt imm = Word.ofImmediate op rs rt imm := by
    rw [immediateWord, h]
  obtain ⟨hop, hrs, hrt, himm⟩ := Fields.ofWord_ofImmediate op rs rt imm
  rw [hword]
  refine ⟨?_, ?_, ?_, himm⟩
  · rw [ofFields?, hop, hmask, if_neg hne, hof]
  · rw [hrs, register_masked hs]
  · rw [hrt, register_masked ht]

/-- **A word of a jump.** -/
theorem jumpWord_decoded (h : o.code = .primary op) (address : UInt32) :
    let f := Fields.ofWord (o.jumpWord address)
    ofFields? f = some o ∧ f.index = address >>> 2 &&& 0x03FFFFFF := by
  obtain ⟨hmask, hne, hof⟩ := primary_code h
  have hword : o.jumpWord address = Word.ofJump op address := by
    rw [jumpWord, h]
  obtain ⟨hop, hindex⟩ := Fields.ofWord_ofJump op address
  rw [hword]
  refine ⟨?_, hindex⟩
  rw [ofFields?, hop, hmask, if_neg hne, hof]

end Operation

/-! ### Immediates and targets -/

namespace Word

open Assembly

theorem toBitVec_ofInt (n : Int) : (UInt32.ofInt n).toBitVec = BitVec.ofInt 32 n := by
  apply BitVec.eq_of_toNat_eq
  rw [UInt32.toNat_toBitVec, UInt32.ofInt, UInt32.toNat_ofNat', BitVec.toNat_ofInt]
  omega

theorem toBitVec_ofInt16 (n : Int) : (UInt16.ofInt n).toBitVec = BitVec.ofInt 16 n := by
  apply BitVec.eq_of_toNat_eq
  rw [UInt16.toNat_toBitVec, UInt16.ofInt, UInt16.toNat_ofNat', BitVec.toNat_ofInt]
  omega

theorem toUInt32_of_toInt (x : Int32) : x.toUInt32 = UInt32.ofInt x.toInt := by
  apply UInt32.toBitVec_inj.1
  rw [toBitVec_ofInt, ← Int32.toInt_toBitVec, BitVec.ofInt_toInt]
  rfl

theorem toInt_ofInt16 {n : Int} (hlo : -32768 ≤ n) (hhi : n ≤ 32767) :
    (UInt16.ofInt n).toInt16.toInt = n := by
  rw [← Int16.toInt_toBitVec]
  show (UInt16.ofInt n).toBitVec.toInt = n
  rw [toBitVec_ofInt16, BitVec.toInt_ofInt_eq_self (by decide) hlo (by omega)]

/-- **An immediate stands for the number that was written into it**, if that fits. -/
theorem signExtend_ofInt {n : Int} (hlo : -32768 ≤ n) (hhi : n ≤ 32767) :
    signExtend (UInt16.ofInt n) = UInt32.ofInt n := by
  rw [signExtend, toUInt32_of_toInt, Int16.toInt_toInt32, toInt_ofInt16 hlo hhi]

theorem unsigned_ofInt {n : Int} (hlo : 0 ≤ n) (hhi : n ≤ 65535) :
    (UInt16.ofInt n).toUInt32 = UInt32.ofInt n := by
  apply UInt32.toNat_inj.1
  rw [UInt16.toNat_toUInt32, UInt16.ofInt, UInt32.ofInt, UInt16.toNat_ofNat', UInt32.toNat_ofNat']
  omega

theorem low_half (w : UInt32) : w.toUInt16.toUInt32 = w &&& 0xFFFF := by
  apply UInt32.toNat_inj.1
  rw [UInt16.toNat_toUInt32, UInt32.toNat_toUInt16, and_mask_toNat _ 0xFFFF 16 rfl]

theorem halves_or (w : UInt32) :
    (w >>> 16).toUInt16.toUInt32 <<< 16 ||| w.toUInt16.toUInt32 = w := by
  have hw := w.toNat_lt
  apply UInt32.toNat_inj.1
  rw [UInt32.toNat_or, UInt32.toNat_shiftLeft, UInt16.toNat_toUInt32, UInt16.toNat_toUInt32,
    UInt32.toNat_toUInt16, UInt32.toNat_toUInt16, UInt32.toNat_shiftRight,
    show (16 : UInt32).toNat % 32 = 16 from rfl, Nat.shiftLeft_eq, Nat.shiftRight_eq_div_pow,
    Nat.mod_eq_of_lt (b := 2 ^ 32) (by omega), mul_two_pow_or (k := 16) (by omega)]
  omega

theorem addressOf_eq (k : Nat) : addressOf k = UInt32.ofNat (4 * k) := by
  rw [addressOf, Nat.mul_comm, UInt32.ofNat_mul, Nat.toUInt32_eq]
  rfl

/-- Distances are counted in words, from the word behind the branch. -/
theorem distance_addressOf {k t : Nat} (hk : k + 1 < 2 ^ 30) (ht : t < 2 ^ 30) :
    Operand.distance (addressOf k) (addressOf t) = (t : Int) - (k + 1) := by
  have hnext : addressOf k + 4 = addressOf (k + 1) := (addressOf_add k 1).symm
  have hbytes : ((4 * t : Nat) : Int) - ((4 * (k + 1) : Nat) : Int) =
      ((t : Int) - (k + 1)) * 4 := by omega
  rw [Operand.distance, hnext, addressOf_toNat hk, addressOf_toNat ht, hbytes,
    Int.mul_tdiv_cancel _ (by decide)]

/-- **A branch reaches the word that its distance was taken to.** -/
theorem branchTarget_distance {k t : Nat} (hk : k < 2 ^ 29) (ht : t < 2 ^ 29)
    (hlo : -32768 ≤ Operand.distance (addressOf k) (addressOf t))
    (hhi : Operand.distance (addressOf k) (addressOf t) ≤ 32767) :
    branchTarget (addressOf k) (UInt16.ofInt (Operand.distance (addressOf k) (addressOf t))) =
      addressOf t := by
  rw [branchTarget, signExtend_ofInt hlo hhi, distance_addressOf (by omega) (by omega),
    show (4 : UInt32) = UInt32.ofInt 4 from rfl, ← UInt32.ofInt_mul, addressOf_eq, ← ofInt_natCast,
    ← UInt32.ofInt_add, ← UInt32.ofInt_add, addressOf_eq, ← ofInt_natCast]
  congr 1
  omega

/-- **A jump reaches the word whose address it holds**, if the program ends before the next
region. -/
theorem jumpTarget_index {k t : Nat} (hk : k + 1 < 2 ^ 26) (ht : t < 2 ^ 26) :
    jumpTarget (addressOf k) ((addressOf t &&& 0x0FFFFFFF) >>> 2 &&& 0x03FFFFFF) = addressOf t := by
  have hnext : addressOf k + 4 = addressOf (k + 1) := (addressOf_add k 1).symm
  have hindex : ((addressOf t &&& 0x0FFFFFFF) >>> 2 &&& 0x03FFFFFF).toNat = t := by
    rw [bits_toNat _ 2 _ 26 (by decide) rfl, and_mask_toNat _ _ 28 rfl, addressOf_toNat (by omega)]
    show 4 * t % 2 ^ 28 / 2 ^ 2 % 2 ^ 26 = t
    omega
  -- the upper four bits of a target are those of the address behind the jump, which are zero
  have hregion : addressOf (k + 1) &&& 0xF0000000 = 0 := by
    apply UInt32.toNat_inj.1
    rw [UInt32.toNat_and, addressOf_toNat (by omega)]
    show 4 * (k + 1) &&& 15 * 2 ^ 28 = 0
    apply Nat.eq_of_testBit_eq
    intro i
    rw [Nat.testBit_and, Nat.zero_testBit, Nat.testBit_mul_two_pow]
    by_cases hi : 28 ≤ i
    · have hlt : 4 * (k + 1) < 2 ^ i :=
        Nat.lt_of_lt_of_le (by omega : _ < 2 ^ 28) (Nat.pow_le_pow_right (by decide) hi)
      rw [Nat.testBit_lt_two_pow hlt, Bool.false_and]
    · simp [hi]
  apply UInt32.toNat_inj.1
  rw [jumpTarget, hnext, hregion]
  simp only [UInt32.zero_or, UInt32.toNat_shiftLeft, hindex, Nat.shiftLeft_eq]
  rw [addressOf_toNat (by omega)]
  show t * 2 ^ 2 % 2 ^ 32 = 4 * t
  omega

end Word

/-! ### Steps -/

namespace Machine

/-- `n` steps, none of which fails. -/
def Goes (m : Machine) (n : Nat) (m' : Machine) : Prop := m.stepUpTo n = (m', none)

theorem Goes.refl (m : Machine) : m.Goes 0 m := rfl

variable {m m' : Machine} {words : Array UInt32}

theorem Goes.of_step (h : m.step = (m', none)) : m.Goes 1 m' := by
  simp [Goes, stepUpTo, h]

theorem Goes.trans {m₁ m₂ m₃ : Machine} {a b : Nat} (h₁ : m₁.Goes a m₂) (h₂ : m₂.Goes b m₃) :
    m₁.Goes (a + b) m₃ := by
  induction a generalizing m₁ with
  | zero =>
      obtain rfl : m₁ = m₂ := by simpa [Goes, stepUpTo] using h₁
      rwa [Nat.zero_add]
  | succ a ih =>
      rw [Nat.succ_add]
      unfold Goes stepUpTo at h₁ ⊢
      split at h₁
      · exact ih h₁
      · cases h₁

theorem step_of_halted (h : m.halted = true) : m.step = (m, none) := by
  rw [step, if_pos h]

theorem Goes.of_halted {n : Nat} (h : m.Goes n m') (hm : m.halted = true) : m' = m := by
  induction n with
  | zero => exact (Prod.mk.inj h).1.symm
  | succ n ih =>
      unfold Goes stepUpTo at h
      rw [step_of_halted hm] at h
      exact ih h

/-- **Steps that end a program are a run**, whatever fuel is left. -/
theorem Goes.run {n fuel : Nat} (h : m.Goes n m') (hm' : m'.halted = true) (hfuel : n ≤ fuel) :
    m.run none fuel = (m', .halted) := by
  -- a machine that has halted goes nowhere, so the run may stop before the steps are used up
  induction fuel generalizing m n with
  | zero =>
      obtain rfl := Nat.le_zero.1 hfuel
      obtain rfl : m = m' := (Prod.mk.inj h).1
      rw [Machine.run, if_pos hm']
  | succ fuel ih =>
      by_cases hm : m.halted = true
      · rw [h.of_halted hm, Machine.run, if_pos hm]
      · cases n with
        | zero =>
            obtain rfl : m = m' := (Prod.mk.inj h).1
            exact absurd hm' hm
        | succ n =>
            rw [Machine.run, if_neg hm, limitReached, if_neg Bool.false_ne_true]
            unfold Goes stepUpTo at h
            split at h
            · exact ih h (by omega)
            · cases h

/-- The machine runs and its next word is word `k` of those given. -/
structure Ready (words : Array UInt32) (k : Nat) (m : Machine) : Prop where
  text : m.text = words
  running : m.halted = false
  pc : m.pc = Assembly.addressOf k

variable {k : Nat}

theorem Ready.fetch (h : Ready words k m) (hk : k < 2 ^ 30) : m.fetch? = words[k]? := by
  have hpc : m.pc.toNat = 4 * k := by rw [h.pc, Assembly.addressOf_toNat hk]
  have haligned : m.pc &&& 3 = 0 := by
    apply UInt32.toNat_inj.1
    rw [Word.and_mask_toNat _ 3 2 rfl, hpc]
    show 4 * k % 2 ^ 2 = 0
    omega
  have hindex : (m.pc / 4).toNat = k := by
    rw [UInt32.toNat_div, hpc]
    show 4 * k / 4 = k
    omega
  rw [fetch?, if_pos haligned, h.text, hindex]

variable {o : Operation}

/-- **A step of the machine at a known word.** -/
theorem Ready.goes {w : UInt32} (h : Ready words k m) (hk : k < 2 ^ 30) (hw : words[k]? = some w)
    (ho : Operation.ofFields? (Fields.ofWord w) = some o)
    (hf : m.failure? (Fields.ofWord w) o = none) :
    m.Goes 1 (m.advance.perform m.pc (Fields.ofWord w) o) := by
  apply Goes.of_step
  have hfetch := h.fetch hk
  rw [hw] at hfetch
  rw [step_eq, h.running, if_neg Bool.false_ne_true, hfetch]
  simp only [wordFailure?, ho, hf, performWord]

theorem Ready.goes_registers {funct : UInt32} {rs rt rd : Register} (h : Ready words k m)
    (hk : k < 2 ^ 30) (hcode : o.code = .function funct) (hs : rs < 32) (ht : rt < 32)
    (hd : rd < 32) (hw : words[k]? = some (o.registerWord rs rt rd 0))
    (hdo : ∀ f : Fields, f.rs = rs → f.rt = rt → f.rd = rd → m.failure? f o = none ∧
      m.advance.perform m.pc f o = m') : m.Goes 1 m' := by
  obtain ⟨ho, hrs, hrt, hrd, -⟩ := Operation.registerWord_decoded hcode hs ht hd 0
  obtain ⟨hf, hperform⟩ := hdo _ hrs hrt hrd
  rw [← hperform]
  exact h.goes hk hw ho hf

theorem Ready.goes_immediate {op : UInt32} {rs rt : Register} {imm : UInt16} (h : Ready words k m)
    (hk : k < 2 ^ 30) (hcode : o.code = .primary op) (hs : rs < 32) (ht : rt < 32)
    (hw : words[k]? = some (o.immediateWord rs rt imm))
    (hdo : ∀ f : Fields, f.rs = rs → f.rt = rt → f.imm = imm → m.failure? f o = none ∧
      m.advance.perform m.pc f o = m') : m.Goes 1 m' := by
  obtain ⟨ho, hrs, hrt, himm⟩ := Operation.immediateWord_decoded hcode hs ht imm
  obtain ⟨hf, hperform⟩ := hdo _ hrs hrt himm
  rw [← hperform]
  exact h.goes hk hw ho hf

end Machine

end StackCompiler
