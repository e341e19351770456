/-
**Memory.**

Memory is a flat array of 2^32 bytes, all zero at the start.  It is kept in pages of 4096 bytes: the
upper bits of an address are the number of a page, the lower ones the place of a byte in it.  A page
is made when something is first stored in it, and what was never stored in is read as zero.  Halves
and words are stored byte by byte with their least significant byte first, so they may lie across
two pages, and their addresses wrap around at the end.
-/

import Std.Data.HashMap
import StackCompiler.Bytes.LittleEndian
import StackCompiler.Text.Basic

namespace StackCompiler

/-- A page of memory. -/
abbrev Memory.Page := Vector UInt8 4096

/-- Memory, as the pages in which something was stored. -/
structure Memory where
  pages : Std.HashMap UInt32 Memory.Page := {}

namespace Memory

/-! ### Pages -/

/-- A page of zeros. -/
def Page.blank : Page := Vector.replicate 4096 0

/-- The page of an address. -/
def pageOf (a : UInt32) : UInt32 := a >>> 12

/-- The place of an address in its page. -/
def placeIn (a : UInt32) : Fin 4096 :=
  ⟨(a &&& 4095).toNat, by
    rw [UInt32.toNat_and]
    exact Nat.lt_of_le_of_lt Nat.and_le_right (by decide)⟩

theorem pageOf_toNat (a : UInt32) : (pageOf a).toNat = a.toNat / 4096 := by
  rw [pageOf, UInt32.toNat_shiftRight, Nat.shiftRight_eq_div_pow]
  rfl

theorem placeIn_val (a : UInt32) : (placeIn a).val = a.toNat % 4096 := by
  show (a &&& 4095).toNat = a.toNat % 4096
  rw [UInt32.toNat_and]
  exact Nat.and_two_pow_sub_one_eq_mod a.toNat 12

/-- An address is a page and a place in it. -/
theorem eq_iff_page_place {a b : UInt32} :
    a = b ↔ pageOf a = pageOf b ∧ placeIn a = placeIn b := by
  constructor
  · rintro rfl
    exact ⟨rfl, rfl⟩
  · rintro ⟨hpage, hplace⟩
    have hpage := congrArg UInt32.toNat hpage
    have hplace := congrArg Fin.val hplace
    rw [pageOf_toNat, pageOf_toNat] at hpage
    rw [placeIn_val, placeIn_val] at hplace
    apply UInt32.toNat_inj.1
    rw [← Nat.div_add_mod a.toNat 4096, hpage, hplace, Nat.div_add_mod]

/-! ### Bytes -/

/-- The byte at an address. -/
def load (m : Memory) (a : UInt32) : UInt8 :=
  match m.pages[pageOf a]? with
  | none => 0
  | some page => page[placeIn a]

/-- Memory with one byte replaced.  The page is made if there is none. -/
def store (m : Memory) (a : UInt32) (b : UInt8) : Memory :=
  ⟨m.pages.alter (pageOf a) fun page => some ((page.getD Page.blank).set (placeIn a) b)⟩

/-- A place of a page that was made or changed by a store. -/
theorem getElem_set (page : Page) (i j : Fin 4096) (b : UInt8) :
    (page.set i b)[j] = if i = j then b else page[j] := by
  simp only [Fin.getElem_fin, Vector.getElem_set, Fin.ext_iff]

theorem load_store (m : Memory) (a a' : UInt32) (b : UInt8) :
    (m.store a b).load a' = if a = a' then b else m.load a' := by
  by_cases hpage : pageOf a = pageOf a'
  · -- one page, in which the two addresses have places
    have hplaces : a = a' ↔ placeIn a = placeIn a' := by simp [eq_iff_page_place, hpage]
    simp only [load, store, Std.HashMap.getElem?_alter, hpage, beq_self_eq_true, if_true,
      getElem_set, hplaces]
    cases m.pages[pageOf a']? with
    | none => simp [Page.blank]
    | some page => rfl
  · -- two pages, of which only one is changed
    have hne : a ≠ a' := fun h => hpage (congrArg pageOf h)
    simp [load, store, Std.HashMap.getElem?_alter, hpage, hne]

theorem load_empty (a : UInt32) : ({} : Memory).load a = 0 := by
  simp [load]

/-! ### Halves and words -/

/-- The half at an address. -/
def loadHalf (m : Memory) (a : UInt32) : UInt16 := LittleEndian.half (m.load a) (m.load (a + 1))

/-- The word at an address. -/
def loadWord (m : Memory) (a : UInt32) : UInt32 :=
  LittleEndian.word (m.load a) (m.load (a + 1)) (m.load (a + 2)) (m.load (a + 3))

/-- The word at an address that is a multiple of four. -/
def readWord? (m : Memory) (a : UInt32) : Option UInt32 :=
  if a &&& 3 = 0 then some (m.loadWord a) else none

/-- Stores a half. -/
def storeHalf (m : Memory) (a : UInt32) (h : UInt16) : Memory :=
  (m.store a h.toUInt8).store (a + 1) (h >>> 8).toUInt8

/-- Stores a word. -/
def storeWord (m : Memory) (a w : UInt32) : Memory :=
  (((m.store a w.toUInt8).store (a + 1) (w >>> 8).toUInt8).store (a + 2)
    (w >>> 16).toUInt8).store (a + 3) (w >>> 24).toUInt8

/-- Stores a word behind `i` others. -/
def storeNext (m : Memory × UInt32) (w : UInt32) : Memory × UInt32 :=
  (m.1.storeWord m.2 w, m.2 + 4)

/-- Memory that holds words from address zero on. -/
def ofWords (words : Array UInt32) : Memory := (words.foldl storeNext ({}, 0)).1

/-- Collects the bytes from an address on that come before a zero, at most `fuel` of them. -/
def stringFrom (m : Memory) : Nat → UInt32 → List UInt8 → List UInt8
  | 0, _, seen => seen.reverse
  | fuel + 1, a, seen =>
    if m.load a = 0 then seen.reverse else stringFrom m fuel (a + 1) (m.load a :: seen)

/-- The bytes from an address on that come before the next zero. -/
def string (m : Memory) (a : UInt32) : Text := stringFrom m (Nat.pow 2 32) a []

end Memory

end StackCompiler
