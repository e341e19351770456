/-
**Memory is a flat array.**

Memory is kept in pages that are made when something is stored in them, and what is stored may lie
across two pages or across the end of the addresses.  None of this can be seen.  A store has an
address, a number of bytes and a number; the bytes of the number stand one behind the other from the
address on, least significant first, and behind the last address comes the first one.  After any
stores the byte at an address is the one that was stored there last; where nothing was stored it is
the byte of the program, and behind the program it is zero.

* `Memory.Store.load_apply`, `Memory.load_stores` — **what one store does to every byte**, and what
  any number of them does;
* `Memory.flat_after_stores` — **the byte at an address is the last one stored there**, and words at
  different addresses are apart.
-/

import StackCompiler.Machine.State
import StackCompiler.Proofs.MemoryWords

namespace StackCompiler.Memory

/-! ### Stores -/

/-- A store of a byte, a half word or a word. -/
inductive Store where
  | byte (address : UInt32) (b : UInt8)
  | half (address : UInt32) (h : UInt16)
  | word (address w : UInt32)
deriving DecidableEq, Repr

namespace Store

/-- Where it is stored. -/
def address : Store → UInt32
  | byte a _ | half a _ | word a _ => a

/-- The number of bytes that are stored. -/
def size : Store → Nat
  | byte .. => 1
  | half .. => 2
  | word .. => 4

/-- What is stored. -/
def value : Store → Nat
  | byte _ b => b.toNat
  | half _ h => h.toNat
  | word _ w => w.toNat

/-- The memory behind it. -/
def apply (m : Memory) : Store → Memory
  | byte a b => m.store a b
  | half a h => m.storeHalf a h
  | word a w => m.storeWord a w

/-- **The byte that a store has for an address**, if the address is one of those from its own on.
Addresses wrap around, and so does the distance between two of them. -/
def byteAt? (s : Store) (x : UInt32) : Option UInt8 :=
  let distance := (x - s.address).toNat
  if distance < s.size then some (UInt8.ofNat (s.value / 256 ^ distance)) else none

theorem load_store_behind (m : Memory) (a i x : UInt32) (b : UInt8) :
    (m.store (a + i) b).load x = if (x - a).toNat = i.toNat then b else m.load x := by
  have hbehind : a + i = x ↔ (x - a).toNat = i.toNat := by
    rw [UInt32.toNat_inj]
    constructor
    · rintro rfl
      rw [UInt32.add_comm, UInt32.add_sub_cancel]
    · rintro rfl
      rw [UInt32.add_comm, UInt32.sub_add_cancel]
  rw [load_store]
  exact if_congr hbehind rfl rfl

theorem load_store_at (m : Memory) (a x : UInt32) (b : UInt8) :
    (m.store a b).load x = if (x - a).toNat = 0 then b else m.load x := by
  have := load_store_behind m a 0 x b
  rwa [UInt32.add_zero] at this

theorem byte_of_word (w k : UInt32) (h : k.toNat < 32) :
    (w >>> k).toUInt8 = UInt8.ofNat (w.toNat / 2 ^ k.toNat) := by
  apply UInt8.toNat_inj.1
  rw [LittleEndian.byte_toNat w k h, UInt8.toNat_ofNat']

theorem byte_of_half (h : UInt16) : (h >>> 8).toUInt8 = UInt8.ofNat (h.toNat / 2 ^ 8) := by
  apply UInt8.toNat_inj.1
  rw [UInt16.toNat_toUInt8, UInt16.toNat_shiftRight, Nat.shiftRight_eq_div_pow, UInt8.toNat_ofNat']
  rfl

/-- **What a store does to every byte.** -/
theorem load_apply (m : Memory) (s : Store) (x : UInt32) :
    (s.apply m).load x = (s.byteAt? x).getD (m.load x) := by
  cases s with
  | byte a b =>
      rw [apply, load_store_at]
      obtain hd | hd : (x - a).toNat = 0 ∨ 1 ≤ (x - a).toNat := by omega
      · simp [byteAt?, address, size, value, hd]
      · simp [byteAt?, address, size, Nat.not_lt.2 hd, Nat.ne_of_gt hd]
  | half a h =>
      rw [apply, storeHalf, load_store_behind, load_store_at, byte_of_half]
      obtain hd | hd | hd : (x - a).toNat = 0 ∨ (x - a).toNat = 1 ∨ 2 ≤ (x - a).toNat := by omega
      iterate 2 · simp [byteAt?, address, size, value, hd]
      · have : (x - a).toNat ≠ 0 ∧ (x - a).toNat ≠ 1 := by omega
        simp [byteAt?, address, size, Nat.not_lt.2 hd, this]
  | word a w =>
      rw [apply, storeWord, load_store_behind, load_store_behind, load_store_behind, load_store_at,
        byte_of_word w 8 (by decide), byte_of_word w 16 (by decide), byte_of_word w 24 (by decide)]
      obtain hd | hd | hd | hd | hd : (x - a).toNat = 0 ∨ (x - a).toNat = 1 ∨ (x - a).toNat = 2 ∨
        (x - a).toNat = 3 ∨ 4 ≤ (x - a).toNat := by omega
      iterate 4 · simp [byteAt?, address, size, value, hd]
      · have : (x - a).toNat ≠ 0 ∧ (x - a).toNat ≠ 1 ∧ (x - a).toNat ≠ 2 ∧ (x - a).toNat ≠ 3 := by
          omega
        simp [byteAt?, address, size, Nat.not_lt.2 hd, this]

end Store

/-- **What any number of stores does to every byte**: the last one that has a byte for an address
decides. -/
theorem load_stores (m : Memory) (stores : List Store) (x : UInt32) :
    (stores.foldl Store.apply m).load x =
      (stores.reverse.findSome? (·.byteAt? x)).getD (m.load x) := by
  induction stores generalizing m with
  | nil => rfl
  | cons s stores ih =>
      rw [List.foldl_cons, ih, Store.load_apply, List.reverse_cons, List.findSome?_append]
      cases stores.reverse.findSome? (·.byteAt? x) with
      | none => simp
      | some b => rfl

/-! ### The memory of a program -/

/-- **The byte that a program has for an address**, if it reaches so far. -/
def imageByte? (words : Array UInt32) (x : UInt32) : Option UInt8 :=
  words[x.toNat / 4]?.map fun w => UInt8.ofNat (w.toNat / 256 ^ (x.toNat % 4))

/-- The byte that a word of a program has for an address. -/
theorem byteAt?_word {k : Nat} (hk : k < 2 ^ 30) (w x : UInt32) :
    (Store.word (UInt32.ofNat (4 * k)) w).byteAt? x =
      if x.toNat / 4 = k then some (UInt8.ofNat (w.toNat / 256 ^ (x.toNat % 4))) else none := by
  have hx := x.toNat_lt
  have hdistance : (x - UInt32.ofNat (4 * k)).toNat = (2 ^ 32 - 4 * k + x.toNat) % 2 ^ 32 := by
    rw [UInt32.toNat_sub, UInt32.toNat_ofNat', Nat.mod_eq_of_lt (show 4 * k < 2 ^ 32 by omega)]
  simp only [Store.byteAt?, Store.address, Store.size, Store.value, hdistance]
  by_cases hword : x.toNat / 4 = k
  · have : (2 ^ 32 - 4 * k + x.toNat) % 2 ^ 32 = x.toNat % 4 := by omega
    rw [this, if_pos (by omega), if_pos hword]
  · rw [if_neg (by omega), if_neg hword]

/-- Words that are stored from an address on, behind `k` others. -/
theorem load_storeAll (ws : List UInt32) (m : Memory) {k : Nat} (h : k + ws.length ≤ 2 ^ 30)
    (x : UInt32) :
    (ws.foldl storeNext (m, UInt32.ofNat (4 * k))).1.load x = if x.toNat / 4 < k then m.load x
      else (ws[x.toNat / 4 - k]?.map fun w =>
        UInt8.ofNat (w.toNat / 256 ^ (x.toNat % 4))).getD (m.load x) := by
  induction ws generalizing m k with
  | nil => simp
  | cons w ws ih =>
      rw [List.length_cons] at h
      have hnext : storeNext (m, UInt32.ofNat (4 * k)) w =
          ((Store.word (UInt32.ofNat (4 * k)) w).apply m, UInt32.ofNat (4 * (k + 1))) := by
        rw [storeNext, Nat.mul_add, UInt32.ofNat_add]
        rfl
      rw [List.foldl_cons, hnext, ih _ (by omega), Store.load_apply, byteAt?_word (by omega)]
      obtain hlt | heq | hgt := Nat.lt_trichotomy (x.toNat / 4) k
      · rw [if_pos (by omega), if_neg (by omega), if_pos hlt]
        rfl
      · rw [if_pos (by omega), if_pos heq, if_neg (by omega), heq, Nat.sub_self]
        rfl
      · rw [if_neg (by omega), if_neg (by omega), if_neg (by omega),
          show x.toNat / 4 - k = x.toNat / 4 - (k + 1) + 1 by omega]
        rfl

/-- **Memory before the first store is the program**, and zero behind it. -/
theorem load_ofWords {words : Array UInt32} (h : words.size ≤ 2 ^ 30) (x : UInt32) :
    (ofWords words).load x = (imageByte? words x).getD 0 := by
  rw [ofWords, ← Array.foldl_toList, imageByte?]
  have := load_storeAll words.toList {} (k := 0) (by simpa using h) x
  simpa [load_empty] using this

/-- **Behind the words of a program memory is zero.** -/
theorem loadWord_ofWords_above {words : Array UInt32} {n : Nat} (h : 4 * words.size ≤ n)
    (hn : n + 4 ≤ 2 ^ 32) : (ofWords words).loadWord (UInt32.ofNat n) = 0 := by
  have hload : ∀ i < 4, (ofWords words).load (UInt32.ofNat (n + i)) =
      ({} : Memory).load (UInt32.ofNat (n + i)) := by
    intro i hi
    rw [load_ofWords (by omega), imageByte?, UInt32.toNat_ofNat',
      Nat.mod_eq_of_lt (show n + i < 2 ^ 32 by omega), Array.getElem?_eq_none (by omega),
      load_empty]
    rfl
  rw [loadWord_congr hload, loadWord, load_empty, load_empty, load_empty, load_empty]
  rfl

/-! ### Words -/

/-- **A word that was stored is read where it was stored, and changes no other word.** -/
theorem readWord?_storeWord (m : Memory) {a b : UInt32} (v : UInt32) (ha : a &&& 3 = 0)
    (hb : b &&& 3 = 0) :
    (m.storeWord a v).readWord? b = if a = b then some v else m.readWord? b := by
  rw [readWord?, readWord?, if_pos hb, if_pos hb]
  split
  · next heq => rw [heq, loadWord_storeWord]
  · next hne =>
    have hrange : ∀ c : UInt32, c &&& 3 = 0 → c.toNat % 4 = 0 ∧ c.toNat < 2 ^ 32 := by
      intro c hc
      have hmod := Word.and_mask_toNat c 3 2 rfl
      rw [hc] at hmod
      exact ⟨hmod.symm, c.toNat_lt⟩
    have hne : a.toNat ≠ b.toNat := fun heq => hne (UInt32.toNat_inj.1 heq)
    have ha := hrange a ha
    have hb := hrange b hb
    have := loadWord_storeWord_outside m v (x := a.toNat) (y := b.toNat) (by omega) (by omega)
      (by omega)
    rwa [UInt32.ofNat_toNat, UInt32.ofNat_toNat, ← Option.some_inj] at this

/-! ### Memory after stores -/

/-- **Memory is a flat array.**  After any stores on a machine that was just given its words, the
byte at an address is the one that was stored there last, or the byte of the program, or zero.  So a
word that is stored is read at its address, and at every other address of a word nothing changes. -/
theorem flat_after_stores {words : Array UInt32} (h : words.size ≤ 2 ^ 30) (stores : List Store) :
    let m := stores.foldl Store.apply (Machine.ofWords words).memory
    (∀ x, m.load x =
      ((stores.reverse.findSome? (·.byteAt? x)).or (imageByte? words x)).getD 0) ∧
    ∀ a b v : UInt32, a &&& 3 = 0 → b &&& 3 = 0 →
      (m.storeWord a v).readWord? b = if a = b then some v else m.readWord? b := by
  intro m
  refine ⟨fun x => ?_, fun a b v ha hb => readWord?_storeWord m v ha hb⟩
  rw [load_stores, Machine.ofWords, load_ofWords h]
  cases stores.reverse.findSome? (·.byteAt? x) with
  | none => rfl
  | some b => rfl

/-- A word that lies across the end of the addresses and over the first bytes of the program, a half
word that lies across two pages, and a byte that is stored over it. -/
theorem flat_after_stores_across :
    let words : Array UInt32 := #[0x04030201, 0x08070605]
    let stores : List Store :=
      [.word 0xFFFFFFFE 0xDDCCBBAA, .half 0x0FFF 0x2211, .byte 0x1000 0x77]
    let m := stores.foldl Store.apply (Machine.ofWords words).memory
    words.size ≤ 2 ^ 30 ∧
    (m.load 0xFFFFFFFF = 0xBB ∧ m.load 1 = 0xDD ∧ m.load 2 = 0x03 ∧ m.load 7 = 0x08) ∧
    (m.load 0x0FFF = 0x11 ∧ m.load 0x1000 = 0x77 ∧ m.load 8 = 0) ∧
    ((m.storeWord 0xFFFFFFFC 5).readWord? 0xFFFFFFFC = some 5 ∧
      (m.storeWord 0xFFFFFFFC 5).readWord? 0 = m.readWord? 0) := by
  intro words stores m
  have hsize : words.size ≤ 2 ^ 30 := by decide
  obtain ⟨hload, hword⟩ := flat_after_stores hsize stores
  refine ⟨hsize, ⟨?_, ?_, ?_, ?_⟩, ⟨?_, ?_, ?_⟩, hword _ _ 5 (by decide) (by decide),
    hword _ _ 5 (by decide) (by decide)⟩
  all_goals exact (hload _).trans (by decide)

end StackCompiler.Memory
