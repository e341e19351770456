/-
**The words of abbreviations on the machine.**

Some instructions stand for words of other operations: copying a register is adding zero to it,
comparing for equality takes a difference and compares it with one, and a number is loaded by its
halves.  Wherever such words stand, they replace one register, whether or not overflows are trapped
and that register is also read, and nothing else but the counters changes.

* `Machine.Ready.copies`, `Machine.Ready.compares`, `Machine.Ready.loads_word`,
  `Machine.Ready.loads_number`, `Machine.Ready.idles` — **what the words of an abbreviation do**.
-/

import StackCompiler.Proofs.WordExecution

namespace StackCompiler

open Assembly (Image addressOf loadUpper numberSize)
open Register (zero)

namespace Machine

/-- The state at an address, `n` steps later, with a register replaced. -/
def given (m : Machine) (r : Register) (v address : UInt32) (n : Nat) : Machine :=
  { m with regs := m.regs.set r v, pc := address, steps := m.steps + n }

theorem given_given (m : Machine) (r : Register) (v v' a a' : UInt32) (n n' : Nat) :
    (m.given r v a n).given r v' a' n' = m.given r v' a' (n + n') := by
  simp only [given, Registers.set_set, Nat.add_assoc]

/-- What is written into register zero does not matter. -/
theorem given_zero (m : Machine) (v v' a : UInt32) (n : Nat) :
    m.given zero v a n = m.given zero v' a n := rfl

variable {image : Image} {k : Nat} {m : Machine}

theorem Ready.given (h : Ready image.words k m) (r : Register) (v : UInt32) (j n : Nat) :
    Ready image.words j (m.given r v (addressOf j) n) :=
  ⟨h.text, h.running, rfl⟩

theorem Ready.advance_setReg (h : Ready image.words k m) (r : Register) (v : UInt32) :
    m.advance.setReg r v = m.given r v (addressOf (k + 1)) 1 := by
  have hnext : m.pc + 4 = addressOf (k + 1) := by
    rw [h.pc, Assembly.addressOf_add]
    rfl
  rw [← hnext]
  rfl

/-! ### One word -/

/-- The step at a word with an immediate that replaces the register it is for. -/
theorem Ready.sets_immediate {o : Operation} {op : UInt32} {rs rt : Register} {imm : UInt16}
    {v : UInt32} (h : Ready image.words k m) (hk : k < 2 ^ 30) (hcode : o.code = .primary op)
    (hs : rs < 32) (ht : rt < 32) (hw : image.words[k]? = some (o.immediateWord rs rt imm))
    (hdo : ∀ f : Fields, f.rs = rs → f.rt = rt → f.imm = imm → m.failure? f o = none ∧
      m.advance.perform m.pc f o = m.advance.setReg rt v) :
    m.Goes 1 (m.given rt v (addressOf (k + 1)) 1) := by
  rw [← h.advance_setReg]
  exact h.goes_immediate hk hcode hs ht hw hdo

/-- Two words behind each other that replace the same register.  The second one finds in it what the
first one wrote, unless it is register zero. -/
theorem Ready.sets_twice {w₁ w₂ : UInt32} {r : Register} (v₁ : UInt32) {v₂ : UInt32}
    (h : Ready image.words k m) (hr : r < 32) (hw : image.Holds k [w₁, w₂])
    (h₁ : image.words[k]? = some w₁ → m.Goes 1 (m.given r v₁ (addressOf (k + 1)) 1))
    (h₂ : ∀ m' : Machine, Ready image.words (k + 1) m' → image.words[k + 1]? = some w₂ →
      ∃ v, (m'.regs.get r = v₁ → v = v₂) ∧
        m'.Goes 1 (m'.given r v (addressOf (k + 1 + 1)) 1)) :
    m.Goes 2 (m.given r v₂ (addressOf (k + 2)) 2) := by
  obtain ⟨v, hv, hsecond⟩ := h₂ _ (h.given r v₁ (k + 1) 1) (hw.getElem? (i := 1) rfl)
  have hboth := (h₁ (hw.getElem? (i := 0) rfl)).trans hsecond
  rw [given_given] at hboth
  by_cases h0 : r = zero
  · subst h0
    rwa [given_zero m v₂ v]
  · have hget : (m.given r v₁ (addressOf (k + 1)) 1).regs.get r = v₁ := by
      rw [Machine.given, Registers.get_set, if_pos ⟨rfl, h0, hr⟩]
    rwa [hv hget] at hboth

/-! ### Copying and comparing -/

theorem addOverflows_zero (a : UInt32) : addOverflows a 0 = false := by
  simp [addOverflows]

/-- **Copying a register is adding zero to it**, which never overflows. -/
theorem Ready.copies {rd rs : Register} (h : Ready image.words k m) (hk : k < 2 ^ 30)
    (hzero : m.regs.get zero = 0) (hd : rd < 32) (hs : rs < 32)
    (hw : image.words[k]? = some (Operation.add.registerWord rs zero rd 0)) :
    m.Goes 1 (m.given rd (m.regs.get rs) (addressOf (k + 1)) 1) := by
  have hzero' : m.advance.regs.get zero = 0 := hzero
  rw [← h.advance_setReg]
  refine h.goes_registers hk rfl hs (by decide) hd hw fun f hrs hrt hrd => ⟨?_, ?_⟩
  · rw [failure?, hrs, hrt, hzero, addOverflows_zero, Bool.and_false]
    rfl
  · simp only [perform, hrs, hrt, hrd, hzero', UInt32.add_zero]
    rfl

/-- **Comparing for equality**, also where the result replaces what is compared. -/
theorem Ready.compares {rd rs rt : Register} (h : Ready image.words k m) (hk : k + 2 ≤ 2 ^ 30)
    (hd : rd < 32) (hs : rs < 32) (ht : rt < 32)
    (hw : image.Holds k
      [Operation.xor.registerWord rs rt rd 0, Operation.sltiu.immediateWord rd rd 1]) :
    m.Goes 2 (m.given rd (ofBool (m.regs.get rs == m.regs.get rt)) (addressOf (k + 2)) 2) := by
  refine h.sets_twice (m.regs.get rs ^^^ m.regs.get rt) hd hw (fun hw₁ => ?_)
    fun m' hm' hw₂ => ⟨ofBool (decide (m'.regs.get rd < 1)), ?_, ?_⟩
  · rw [← h.advance_setReg]
    refine h.goes_registers (by omega) rfl hs ht hd hw₁ fun f hrs hrt hrd => ⟨rfl, ?_⟩
    simp only [perform, hrs, hrt, hrd]
    rfl
  · intro hget
    -- two words are equal if no bit of their difference is set
    rw [hget]
    congr 1
    rw [Bool.eq_iff_iff]
    simp
  · refine hm'.sets_immediate (by omega) rfl hd hd hw₂ fun f hrs hrt himm => ⟨rfl, ?_⟩
    have hone : Word.signExtend f.imm = 1 := by
      rw [himm]
      rfl
    simp only [perform, hrs, hrt, hone]
    rfl

/-! ### Loading -/

/-- **Loading a word by its upper half**, and by its lower half unless that is zero. -/
theorem Ready.loads_word {rd : Register} {w : UInt32} {n : Nat} (h : Ready image.words k m)
    (hk : k + (loadUpper rd w n).length ≤ 2 ^ 30) (hd : rd < 32)
    (hn : n = 2 ∨ w &&& 0xFFFF = 0) (hw : image.Holds k (loadUpper rd w n)) :
    m.Goes (loadUpper rd w n).length
      (m.given rd w (addressOf (k + (loadUpper rd w n).length)) (loadUpper rd w n).length) := by
  have hupper : k < 2 ^ 30 →
      image.words[k]? = some (Operation.lui.immediateWord zero rd (w >>> 16).toUInt16) →
      m.Goes 1 (m.given rd ((w >>> 16).toUInt16.toUInt32 <<< 16) (addressOf (k + 1)) 1) := by
    intro hk hw
    refine h.sets_immediate hk rfl (by decide) hd hw fun f hrs hrt himm => ⟨rfl, ?_⟩
    simp only [perform, hrt, himm]
  by_cases h2 : n = 2
  · rw [loadUpper, if_pos h2] at hw hk ⊢
    change k + 2 ≤ 2 ^ 30 at hk
    refine h.sets_twice _ hd hw (hupper (by omega)) fun m' hm' hw₂ =>
      ⟨m'.regs.get rd ||| w.toUInt16.toUInt32, ?_, ?_⟩
    · intro hget
      rw [hget, Word.halves_or]
    · refine hm'.sets_immediate (by omega) rfl hd hd hw₂ fun f hrs hrt himm => ⟨rfl, ?_⟩
      simp only [perform, hrs, hrt, himm]
      rfl
  · rw [loadUpper, if_neg h2] at hw hk ⊢
    change k + 1 ≤ 2 ^ 30 at hk
    have hlow : w.toUInt16.toUInt32 = 0 := by
      rw [Word.low_half, hn.resolve_left h2]
    have hhalf := Word.halves_or w
    rw [hlow, UInt32.or_zero] at hhalf
    have hgoes := hupper (by omega) (hw.getElem? (i := 0) rfl)
    rwa [hhalf] at hgoes

end Machine

/-- **Loading an address**, in one word only if its lower half is zero. -/
theorem Machine.Ready.loads_address {image : Image} {k : Nat} {m : Machine} {rd : Register}
    {a : UInt32} {ws : List UInt32} (h : Ready image.words k m) (hk : k + ws.length ≤ 2 ^ 30)
    (hd : rd < 32) (hdrift : ¬(ws.length = 1 ∧ a &&& 0xFFFF ≠ 0))
    (hws : loadUpper rd a ws.length = ws) (hw : image.Holds k ws) :
    m.Goes ws.length (m.given rd a (addressOf (k + ws.length)) ws.length) := by
  have hlow : ws.length = 2 ∨ a &&& 0xFFFF = 0 := by
    by_cases h2 : ws.length = 2
    · exact Or.inl h2
    · right
      have hone : ws.length = 1 := by
        rw [← hws, loadUpper, if_neg h2]
        rfl
      by_contra hne
      exact hdrift ⟨hone, hne⟩
  have hgoes := h.loads_word (by rwa [hws]) hd hlow (by rwa [hws])
  rwa [hws] at hgoes

/-- The words that load a number for which `words` words are laid out. -/
def Assembly.numberWords (rd : Register) (n : Int) (words : Nat) : List UInt32 :=
  if 0 ≤ n ∧ n ≤ 65535 then [Operation.ori.immediateWord zero rd (UInt16.ofInt n)]
  else if -32768 ≤ n ∧ n < 0 then
    [Operation.addiu.immediateWord zero rd (UInt16.ofInt n)]
  else loadUpper rd (UInt32.ofInt n) words

theorem Assembly.encodeNumber_eq (d t : Text) (words : Nat) :
    encodeNumber [d, t] words = (do
      let rd ← Operand.register d
      let n ← Operand.immediate t
      return numberWords rd n words) := by
  unfold encodeNumber numberWords
  dsimp only [Operand.two]
  rw [ok_bind]
  congr 1
  funext rd
  congr 1
  funext n
  split
  · rfl
  · split <;> rfl

namespace Machine

variable {image : Image} {k : Nat} {m : Machine}

/-- **Loading a number.** -/
theorem Ready.loads_number {rd : Register} {n : Int} {ws : List UInt32} (h : Ready image.words k m)
    (hk : k + ws.length ≤ 2 ^ 30) (hzero : m.regs.get zero = 0) (hd : rd < 32)
    (hws : Assembly.numberWords rd n (numberSize n) = ws) (hw : image.Holds k ws) :
    m.Goes ws.length
      (m.given rd (UInt32.ofInt n) (addressOf (k + ws.length)) ws.length) := by
  have hzero' : m.advance.regs.get zero = 0 := hzero
  unfold Assembly.numberWords at hws
  -- one word is enough where sixteen bits are, without a sign or with one
  split at hws
  · next hrange =>
    subst hws
    change k + 1 ≤ 2 ^ 30 at hk
    refine h.sets_immediate (by omega) rfl (by decide) hd (hw.getElem? (i := 0) rfl)
      fun f hrs hrt himm => ⟨rfl, ?_⟩
    simp only [perform, hrs, hrt, himm, hzero', UInt32.zero_or,
      Word.unsigned_ofInt hrange.1 hrange.2]
  · next hlarge =>
    split at hws
    · next hrange =>
      subst hws
      change k + 1 ≤ 2 ^ 30 at hk
      refine h.sets_immediate (by omega) rfl (by decide) hd (hw.getElem? (i := 0) rfl)
        fun f hrs hrt himm => ⟨rfl, ?_⟩
      simp only [perform, hrs, hrt, himm, hzero', UInt32.zero_add,
        Word.signExtend_ofInt hrange.1 (by omega : n ≤ 32767)]
    · next hsmall =>
      have hlow : numberSize n = 2 ∨ UInt32.ofInt n &&& 0xFFFF = 0 := by
        rw [numberSize, if_neg hlarge, if_neg hsmall]
        split
        · next hlow => exact Or.inr hlow
        · exact Or.inl rfl
      subst hws
      exact h.loads_word hk hd hlow hw

/-- **A word of zeros does nothing.** -/
theorem Ready.idles (h : Ready image.words k m) (hk : k < 2 ^ 30) (hw : image.words[k]? = some 0) :
    m.Goes 1 (m.given zero 0 (addressOf (k + 1)) 1) := by
  have hgoes := h.goes hk hw (o := .sll) rfl rfl
  have hperform : m.advance.perform m.pc (Fields.ofWord 0) .sll = m.advance.setReg zero 0 := rfl
  rwa [hperform, h.advance_setReg] at hgoes

end Machine

end StackCompiler
