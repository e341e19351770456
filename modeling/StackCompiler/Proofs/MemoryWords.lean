/-
**Words in memory.**

Addresses wrap around, but a program that keeps its words below the end of memory never notices.
Addresses are therefore taken as natural numbers here: a word that was stored is loaded, and
whatever does not overlap it is as before.

* `Memory.loadWord_storeWord` — **a word that was stored is loaded**;
* `Memory.load_storeWord_outside`, `Memory.loadWord_storeWord_outside` — **everything else is as
  before**.
-/

import StackCompiler.Machine.Memory
import StackCompiler.Proofs.Words

namespace StackCompiler

open UInt32 (ofNat)

namespace Word

/-! ### Addresses as natural numbers -/

theorem ofInt_natCast (n : Nat) : UInt32.ofInt n = ofNat n := by
  apply UInt32.toNat_inj.1
  rw [UInt32.ofInt, UInt32.toNat_ofNat', UInt32.toNat_ofNat']
  omega

/-- Adding a displacement that stays within the natural numbers. -/
theorem ofNat_add_ofInt {a b : Nat} {z : Int} (h : (a : Int) + z = b) :
    ofNat a + UInt32.ofInt z = ofNat b := by
  rw [← ofInt_natCast a, ← UInt32.ofInt_add, h, ofInt_natCast]

theorem ofNat_ne {x y : Nat} (hx : x < 2 ^ 32) (hy : y < 2 ^ 32) (h : x ≠ y) :
    ofNat x ≠ ofNat y := by
  intro heq
  have := congrArg UInt32.toNat heq
  rw [UInt32.toNat_ofNat', UInt32.toNat_ofNat', Nat.mod_eq_of_lt hx, Nat.mod_eq_of_lt hy] at this
  exact h this

theorem ofNat_aligned {n : Nat} (h : n % 4 = 0) : ofNat n &&& 3 = 0 := by
  apply UInt32.toNat_inj.1
  rw [and_mask_toNat _ 3 2 rfl, UInt32.toNat_ofNat']
  show n % 2 ^ 32 % 2 ^ 2 = 0
  omega

end Word

namespace Memory

/-! ### What is stored is loaded -/

theorem load_storeWord_of_ne {m : Memory} {a w b : UInt32} (h₀ : a ≠ b) (h₁ : a + 1 ≠ b)
    (h₂ : a + 2 ≠ b) (h₃ : a + 3 ≠ b) : (m.storeWord a w).load b = m.load b := by
  simp only [storeWord, load_store, if_neg h₀, if_neg h₁, if_neg h₂, if_neg h₃]

theorem loadWord_storeWord (m : Memory) (a w : UInt32) : (m.storeWord a w).loadWord a = w := by
  have hne : ∀ i j : UInt32, i ≠ j → a + i ≠ a + j :=
    fun i j hij h => hij ((UInt32.add_right_inj a).1 h)
  have h0 : a = a + 0 := (UInt32.add_zero a).symm
  have h10 : a + 1 ≠ a := fun h => hne 1 0 (by decide) (h.trans h0)
  have h20 : a + 2 ≠ a := fun h => hne 2 0 (by decide) (h.trans h0)
  have h30 : a + 3 ≠ a := fun h => hne 3 0 (by decide) (h.trans h0)
  have h21 := hne 2 1 (by decide)
  have h31 := hne 3 1 (by decide)
  have h32 := hne 3 2 (by decide)
  simp only [loadWord, storeWord, load_store, if_neg h10, if_neg h20, if_neg h30, if_neg h21,
    if_neg h31, if_neg h32, if_true]
  exact LittleEndian.word_bytes w

/-! ### What is not stored stays -/

/-- A byte outside a stored word is as before. -/
theorem load_storeWord_outside (m : Memory) (w : UInt32) {x y : Nat} (hx : x + 4 ≤ 2 ^ 32)
    (hy : y < 2 ^ 32) (h : y < x ∨ x + 4 ≤ y) :
    (m.storeWord (ofNat x) w).load (ofNat y) = m.load (ofNat y) := by
  have hne : ∀ i < 4, ofNat x + ofNat i ≠ ofNat y := by
    intro i hi
    rw [← UInt32.ofNat_add]
    exact Word.ofNat_ne (by omega) hy (by omega)
  refine load_storeWord_of_ne ?_ (hne 1 (by decide)) (hne 2 (by decide)) (hne 3 (by decide))
  simpa using hne 0 (by decide)

variable {m m' : Memory}

theorem loadWord_congr {y : Nat} (h : ∀ i < 4, m'.load (ofNat (y + i)) = m.load (ofNat (y + i))) :
    m'.loadWord (ofNat y) = m.loadWord (ofNat y) := by
  simp only [UInt32.ofNat_add] at h
  have h0 := h 0 (by decide)
  rw [show ofNat 0 = 0 from rfl, UInt32.add_zero] at h0
  have h1 : m'.load (ofNat y + 1) = m.load (ofNat y + 1) := h 1 (by decide)
  have h2 : m'.load (ofNat y + 2) = m.load (ofNat y + 2) := h 2 (by decide)
  have h3 : m'.load (ofNat y + 3) = m.load (ofNat y + 3) := h 3 (by decide)
  rw [loadWord, loadWord, h0, h1, h2, h3]

/-- **A word that does not overlap a stored word is as before.** -/
theorem loadWord_storeWord_outside (m : Memory) (w : UInt32) {x y : Nat} (hx : x + 4 ≤ 2 ^ 32)
    (hy : y + 4 ≤ 2 ^ 32) (h : y + 4 ≤ x ∨ x + 4 ≤ y) :
    (m.storeWord (ofNat x) w).loadWord (ofNat y) = m.loadWord (ofNat y) :=
  loadWord_congr fun i hi => load_storeWord_outside m w hx (by omega) (by omega)

/-! ### Ranges of memory -/

/-- Two memories agree on all bytes outside the range from `lo` up to `hi`. -/
def SameOutside (lo hi : Nat) (m m' : Memory) : Prop :=
  ∀ x < 2 ^ 32, x < lo ∨ hi ≤ x → m'.load (ofNat x) = m.load (ofNat x)

theorem SameOutside.refl (lo hi : Nat) (m : Memory) : SameOutside lo hi m m := fun _ _ _ => rfl

theorem SameOutside.trans {lo hi : Nat} {m₁ m₂ m₃ : Memory} (h₁ : SameOutside lo hi m₁ m₂)
    (h₂ : SameOutside lo hi m₂ m₃) : SameOutside lo hi m₁ m₃ :=
  fun x hx hout => (h₂ x hx hout).trans (h₁ x hx hout)

theorem SameOutside.widen {lo hi lo' hi' : Nat} (h : SameOutside lo hi m m') (hlo : lo' ≤ lo)
    (hhi : hi ≤ hi') : SameOutside lo' hi' m m' :=
  fun x hx hout => h x hx (by omega)

theorem sameOutside_storeWord (m : Memory) (w : UInt32) {x : Nat} (hx : x + 4 ≤ 2 ^ 32) :
    SameOutside x (x + 4) m (m.storeWord (ofNat x) w) :=
  fun _ hy hout => load_storeWord_outside m w hx hy hout

theorem SameOutside.storeWord {lo hi x : Nat} (h : SameOutside lo hi m m') (w : UInt32)
    (hx : x + 4 ≤ 2 ^ 32) (hlo : lo ≤ x) (hhi : x + 4 ≤ hi) :
    SameOutside lo hi m (m'.storeWord (ofNat x) w) :=
  h.trans ((sameOutside_storeWord m' w hx).widen hlo hhi)

theorem SameOutside.loadWord {lo hi y : Nat} (h : SameOutside lo hi m m') (hy : y + 4 ≤ 2 ^ 32)
    (hout : y + 4 ≤ lo ∨ hi ≤ y) :
    m'.loadWord (ofNat y) = m.loadWord (ofNat y) :=
  loadWord_congr fun i hi => h (y + i) (by omega) (by omega)

end Memory

end StackCompiler
