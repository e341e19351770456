/-
**Calls and returns fit together.**

The lines of a call and the lines of a return are written apart and never run together: a return has
to find the frame of the caller by the four words that the call left in the new frame.  A call saves
the pointers of the caller, copies the arguments into the local slots of the new frame and enters it
with an empty operand stack.  A return that finds the four words comes back behind the call, with
the arguments gone and with at most one result in their place.

* `Lowering.Mips.call_linkage` — **a call enters its target, and every return that finds the four
  words comes back behind the call**.
-/

import StackCompiler.Proofs.FlatMemory
import StackCompiler.Proofs.ListingAssembly
import StackCompiler.Proofs.LoweredLines

namespace StackCompiler.Lowering.Mips

open Listing Drafting
open UInt32 (ofNat)
open Register (zero v0 v1 s0 s1 sp fp ra)
open Assembly (Image Labels Laid addressOf)
open Machine (Ready)
open Listing.Core (get_set_other get_set_same get_store memory_set)
open Instruction (offsets target)

/-! ### The lines of a call -/

/-- The lines that write the first four words of a new frame.  Its address is left in register 8. -/
def headerLines (f : Frame) (offset count : Nat) : List Line :=
  [.immediate .addiu 8 sp (-f.size).toInt,
    .access .sw fp Frame.savedPointer.toInt 8,
    .access .sw s0 Frame.savedBase.toInt 8] ++
  (if count ≠ 0 then [.immediate .addiu s1 s1 (-Frame.cellSize * Int64.ofNat count).toInt]
   else []) ++
  [.access .sw s1 Frame.savedOffset.toInt 8,
    .code .la [.register 9, .label (.returned offset)],
    .access .sw 9 Frame.returnAddress.toInt 8]

/-- The lines that copy the arguments. -/
def argumentLines (count : Nat) : List Line :=
  if count = 0 then []
  else .registers3 .addu 10 s0 s1 :: (List.range count).flatMap (copyArgument 9 10 8)

/-- The lines of a call before its jump. -/
def callLines (f : Frame) (offset count : Nat) : List Line :=
  headerLines f offset count ++ (argumentLines count ++ ([.move sp 8, .move fp 8] ++ enterFrame f))

variable {offset n : Nat} {ins : Instruction} {pointer address : UInt32} {ls : List Line}

/-- **The lines of a call**, which is only accepted if its target exists and the arguments have
slots. -/
theorem call_lines {f : Frame} {fs : Functions} (h : (call f fs offset ins).lines = .ok ls) :
    Int64.ofNat (ins.half 1) ≤ f.localSlots ∧ ls = callLines f offset (ins.half 1) ++
      [.jump (.start ins.target.toNat), .label (.returned offset)] := by
  unfold call at h
  replace h := targetLabel_lines h
  by_cases hcount : f.localSlots < Int64.ofNat (ins.half 1)
  · simp only [if_pos hcount] at h
    cases h
  · refine ⟨by simpa using hcount, ?_⟩
    simp only [if_neg hcount, copyArguments] at h
    unfold callLines headerLines argumentLines
    by_cases h0 : ins.half 1 = 0
    · simp only [if_pos h0, if_neg (not_not.2 h0)] at h ⊢
      exact (Except.ok.inj h).symm
    · simp only [if_neg h0, if_pos (show ins.half 1 ≠ 0 from h0)] at h ⊢
      rw [← Except.ok.inj h]
      simp only [List.append_assoc, List.cons_append, List.nil_append]

/-! ### The header of a frame -/

/-- The four words that a call leaves at the start of the frame at `G`. -/
structure Header (m : Memory) (G : Nat) (pointer base offset address : UInt32) : Prop where
  pointer : m.loadWord (ofNat G) = pointer
  base : m.loadWord (ofNat (G + 4)) = base
  offset : m.loadWord (ofNat (G + 8)) = offset
  address : m.loadWord (ofNat (G + 12)) = address

theorem Header.congr {m m' : Memory} {G : Nat} {base offset : UInt32}
    (h : Header m G pointer base offset address)
    (hsame : ∀ x, G ≤ x → x < G + 16 → m'.load (ofNat x) = m.load (ofNat x)) :
    Header m' G pointer base offset address := by
  have hword : ∀ i ≤ 12, m'.loadWord (ofNat (G + i)) = m.loadWord (ofNat (G + i)) :=
    fun i hi => Memory.loadWord_congr fun n hn => hsame (G + i + n) (by omega) (by omega)
  exact ⟨(hword 0 (by omega)).trans h.pointer, (hword 4 (by omega)).trans h.base,
    (hword 8 (by omega)).trans h.offset, (hword 12 (by omega)).trans h.address⟩

theorem Header.sameOutside {m m' : Memory} {G lo hi : Nat} {base offset : UInt32}
    (h : Header m G pointer base offset address) (hG : G + 16 ≤ 2 ^ 32)
    (hsame : Memory.SameOutside lo hi m m') (hout : G + 16 ≤ lo) :
    Header m' G pointer base offset address :=
  h.congr fun x hlo hhi => hsame x (by omega) (by omega)

/-- Four stores make a header and touch nothing else. -/
theorem header_stores (m : Memory) {G : Nat} (hG : G + 16 ≤ 2 ^ 32)
    (pointer base offset address : UInt32) :
    let m' := (((m.storeWord (ofNat G) pointer).storeWord (ofNat (G + 4))
      base).storeWord (ofNat (G + 8)) offset).storeWord (ofNat (G + 12)) address
    Header m' G pointer base offset address ∧ Memory.SameOutside G (G + 16) m m' := by
  refine ⟨⟨?_, ?_, ?_, ?_⟩, ?_⟩
  iterate 4
    simp (disch := omega) only [Memory.loadWord_storeWord_outside, Memory.loadWord_storeWord]
  · exact ((((Memory.SameOutside.refl G (G + 16) m).storeWord pointer (by omega) (by omega)
      (by omega)).storeWord base (by omega) (by omega) (by omega)).storeWord offset (by omega)
      (by omega) (by omega)).storeWord address (by omega) (by omega) (by omega)

/-! ### What the lines of a call do -/

variable {labels : Labels} {c : Core} {f : Frame} {L D S F G : Nat} {count d : Nat}

/-- The arguments are taken off the stack of the caller. -/
theorem release_run (labels : Labels) (hcount : count ≤ d) (hsmall : count < 2 ^ 60)
    (hs1 : c.get s1 = ofNat (4 * d)) :
    ∃ c', straight labels
        (if count ≠ 0 then [.immediate .addiu s1 s1 (-Frame.cellSize * Int64.ofNat count).toInt]
         else []) c = some c' ∧
      c'.get s1 = ofNat (4 * (d - count)) ∧ (∀ r, r ≠ s1 → c'.get r = c.get r) ∧
      c'.memory = c.memory := by
  by_cases h0 : count = 0
  · subst h0
    exact ⟨c, rfl, hs1, fun _ _ => rfl, rfl⟩
  · rw [if_pos h0, straight_displace (y := 4 * (d - count)) hs1
      (by rw [Frame.cells_back_toInt hsmall]; omega)]
    exact ⟨_, rfl, get_set_same _ _ (by decide), fun r hr => get_set_other _ _ hr, rfl⟩

variable {a : UInt32}

/-- **The header of a new frame**, and the registers that the next lines use. -/
theorem headerLines_run (hsize : (-f.size).toInt = -S) (hF : F = G + S) (hG : G % 4 = 0)
    (hhigh : G + 16 ≤ 2 ^ 32) (hcount : count ≤ d) (hsmall : count < 2 ^ 60)
    (hlabel : labels[(Label.returned offset).render]? = some a) (hsp : c.get sp = ofNat F)
    (hs1 : c.get s1 = ofNat (4 * d)) :
    ∃ c', straight labels (headerLines f offset count) c = some c' ∧
      c'.get 8 = ofNat G ∧ c'.get s0 = c.get s0 ∧
      c'.get s1 = ofNat (4 * (d - count)) ∧
      Header c'.memory G (c.get fp) (c.get s0) (ofNat (4 * (d - count))) a ∧
      Memory.SameOutside G (G + 16) c.memory c'.memory := by
  -- the arguments are released between the second store and the third, so that what is saved is
  -- the offset without them
  let c₁ := ((c.set 8 (ofNat G)).store (ofNat G) (c.get fp)).store
    (ofNat (G + 4)) (c.get s0)
  have h8 : c₁.get 8 = ofNat G := by
    simp (disch := decide) only [c₁, get_store, get_set_same]
  have hfirst : straight labels [.immediate .addiu 8 sp (-f.size).toInt,
      .access .sw fp Frame.savedPointer.toInt 8, .access .sw s0 Frame.savedBase.toInt 8] c =
      some c₁ := by
    have h8' : (c.set 8 (ofNat G)).get 8 = ofNat G :=
      get_set_same _ _ (by decide)
    rw [straight_displace (y := G) hsp (by rw [hsize]; omega),
      straight_store (y := G) h8' (by rw [show Frame.savedPointer.toInt = 0 from rfl]; omega) hG,
      straight_store (y := G + 4) (by rw [get_store, h8'])
        (by rw [show Frame.savedBase.toInt = 4 from rfl]; omega) (by omega)]
    simp (disch := decide) only [get_store, get_set_other]
    rfl
  have hs1' : c₁.get s1 = ofNat (4 * d) := by
    simp (disch := decide) only [c₁, get_store, get_set_other, hs1]
  obtain ⟨c₂, hrelease, h₂s1, h₂, h₂memory⟩ := release_run labels hcount hsmall hs1'
  have h₂8 : c₂.get 8 = ofNat G := (h₂ 8 (by decide)).trans h8
  let c₃ := ((c₂.store (ofNat (G + 8)) (c₂.get s1)).set 9 a).store (ofNat (G + 12)) a
  have hlast : straight labels [.access .sw s1 Frame.savedOffset.toInt 8,
      .code .la [.register 9, .label (.returned offset)],
      .access .sw 9 Frame.returnAddress.toInt 8] c₂ = some c₃ := by
    rw [straight_store (y := G + 8) h₂8
        (by rw [show Frame.savedOffset.toInt = 8 from rfl]; omega) (by omega),
      straight_loadLabel hlabel,
      straight_store (x := G) (y := G + 12)
        (by simp (disch := decide) only [get_set_other, get_store, h₂8])
        (by rw [show Frame.returnAddress.toInt = 12 from rfl]; omega) (by omega),
      get_set_same _ _ (by decide)]
    rfl
  have hmemory : c₃.memory = (((c.memory.storeWord (ofNat G) (c.get fp)).storeWord
      (ofNat (G + 4)) (c.get s0)).storeWord (ofNat (G + 8))
      (ofNat (4 * (d - count)))).storeWord (ofNat (G + 12)) a := by
    simp only [c₃, c₁, Core.memory_store, memory_set, h₂memory, h₂s1]
  obtain ⟨hheader, hsame⟩ := header_stores c.memory hhigh (c.get fp) (c.get s0)
    (ofNat (4 * (d - count))) a
  have hrun := straight_two (straight_two hfirst hrelease) hlast
  refine ⟨c₃, hrun, ?_, ?_, ?_, ?_, ?_⟩
  · simp (disch := decide) only [c₃, get_store, get_set_other, h₂8]
  · simp (disch := decide) only [c₃, c₁, get_store, get_set_other, h₂]
  · simp (disch := decide) only [c₃, get_store, get_set_other, h₂s1]
  · rwa [hmemory]
  · rwa [hmemory]

/-- Arguments are copied in order.  The frame they are copied to ends before the place they come
from. -/
theorem copyArguments_run (labels : Labels) {A : Nat} (n : Nat) (hA : A % 4 = 0) (hG : G % 4 = 0)
    (hlow : G + 16 + 4 * n ≤ A) (hhigh : A + 4 * n ≤ 2 ^ 32)
    (h8 : c.get 8 = ofNat G) (h10 : c.get 10 = ofNat A) :
    ∃ c', straight labels ((List.range n).flatMap (copyArgument 9 10 8)) c = some c' ∧
      (∀ r, r ≠ 9 → c'.get r = c.get r) ∧
      (∀ k < n, c'.memory.loadWord (ofNat (G + 16 + 4 * k)) =
        c.memory.loadWord (ofNat (A + 4 * k))) ∧
      Memory.SameOutside (G + 16) (G + 16 + 4 * n) c.memory c'.memory := by
  induction n with
  | zero =>
      exact ⟨c, rfl, fun _ _ => rfl, fun k hk => absurd hk (Nat.not_lt_zero k),
        Memory.SameOutside.refl _ _ _⟩
  | succ n ih =>
      obtain ⟨c₁, hrun, hregs, hcopied, hsame⟩ := ih (by omega) (by omega)
      let v := c.memory.loadWord (ofNat (A + 4 * n))
      have hlast : straight labels (copyArgument 9 10 8 n) c₁ =
          some ((c₁.set 9 v).store (ofNat (G + 16 + 4 * n)) v) := by
        -- the slots written so far lie below `A`, so the argument is still as it was
        have hv : c₁.memory.loadWord (ofNat (A + 4 * n)) = v :=
          hsame.loadWord (by omega) (by omega)
        rw [copyArgument, straight_load (y := A + 4 * n) ((hregs 10 (by decide)).trans h10)
            (by rw [Frame.cells_toInt (by omega)]; omega) (by omega),
          straight_store (x := G) (y := G + 16 + 4 * n)
            (by rw [get_set_other _ _ (by decide), hregs 8 (by decide), h8])
            (by rw [Frame.localOffset_ofNat_toInt (by omega)]; omega) (by omega),
          get_set_same _ _ (by decide), hv]
        rfl
      refine ⟨(c₁.set 9 v).store (ofNat (G + 16 + 4 * n)) v, ?_, ?_, ?_, ?_⟩
      · rw [List.range_succ, List.flatMap_append, List.flatMap_singleton]
        exact straight_two hrun hlast
      · intro r hr
        rw [get_store, get_set_other _ _ hr, hregs r hr]
      · intro k hk
        rw [Core.memory_store, memory_set]
        rcases Nat.lt_succ_iff_lt_or_eq.1 hk with hk | rfl
        · rw [Memory.loadWord_storeWord_outside _ _ (by omega) (by omega) (by omega), hcopied k hk]
        · exact Memory.loadWord_storeWord _ _ _
      · exact (hsame.widen (Nat.le_refl _) (by omega)).storeWord v (by omega) (by omega) (by omega)

theorem argumentLines_run (labels : Labels) {A B : Nat} (hA : (A + B) % 4 = 0) (hG : G % 4 = 0)
    (hlow : G + 16 + 4 * n ≤ A + B) (hhigh : A + B + 4 * n ≤ 2 ^ 32) (h8 : c.get 8 = ofNat G)
    (hs0 : c.get s0 = ofNat A) (hs1 : c.get s1 = ofNat B) :
    ∃ c', straight labels (argumentLines n) c = some c' ∧
      (∀ r, r ≠ 9 → r ≠ 10 → c'.get r = c.get r) ∧
      (∀ k < n, c'.memory.loadWord (ofNat (G + 16 + 4 * k)) =
        c.memory.loadWord (ofNat (A + B + 4 * k))) ∧
      Memory.SameOutside (G + 16) (G + 16 + 4 * n) c.memory c'.memory := by
  unfold argumentLines
  by_cases h0 : n = 0
  · rw [if_pos h0, h0]
    exact ⟨c, rfl, fun _ _ _ => rfl, fun k hk => absurd hk (Nat.not_lt_zero k),
      Memory.SameOutside.refl _ _ _⟩
  · have h8' : (c.set 10 (ofNat (A + B))).get 8 = ofNat G := by
      rw [get_set_other _ _ (by decide), h8]
    obtain ⟨c', hrun, hregs, hcopied, hsame⟩ := copyArguments_run labels n hA hG hlow
      hhigh h8' (get_set_same c (ofNat (A + B)) (by decide))
    rw [if_neg h0, straight_sum hs0 hs1]
    refine ⟨c', hrun, fun r h9 h10 => ?_, hcopied, hsame⟩
    rw [hregs r h9, get_set_other _ _ h10]

theorem newFrame_run (labels : Labels) (hbase : f.base.toInt = 16 + 4 * L) (hzero : c.get 0 = 0)
    (h8 : c.get 8 = ofNat G) :
    ∃ c', straight labels ([.move sp 8, .move fp 8] ++ enterFrame f) c = some c' ∧
      c'.get sp = ofNat G ∧ c'.get fp = ofNat G ∧
      c'.get s0 = ofNat (G + 16 + 4 * L) ∧ c'.get s1 = 0 ∧ c'.memory = c.memory := by
  let c₁ := (c.set sp (ofNat G)).set fp (ofNat G)
  have hmoved : straight labels [.move sp 8, .move fp 8] c = some c₁ := by
    rw [straight_move, straight_move, get_set_other _ _ (by decide), h8]
    rfl
  obtain ⟨c', hrun, hs0, hs1, hregs, hmemory, -⟩ :=
    enterFrame_run labels hbase ((straight_zero hmoved).trans hzero)
      (get_set_same _ _ (by decide) : c₁.get fp = ofNat G)
  refine ⟨c', straight_two hmoved hrun, ?_, ?_, hs0, hs1, ?_⟩
  · rw [hregs sp (by decide) (by decide), get_set_other _ _ (by decide),
      get_set_same _ _ (by decide)]
  · rw [hregs fp (by decide) (by decide), get_set_same _ _ (by decide)]
  · rw [hmemory, memory_set, memory_set]

/-- What a call makes of the registers and the memory.  The frame of the callee is at `G`, right
below that of the caller at `F`. -/
structure FrameMade (L F G d count : Nat) (back : UInt32) (c c' : Core) : Prop where
  stackPointer : c'.get sp = ofNat G
  pointer : c'.get fp = ofNat G
  base : c'.get s0 = ofNat (G + 16 + 4 * L)
  offset : c'.get s1 = 0
  header : Header c'.memory G (c.get fp) (c.get s0) (ofNat (4 * (d - count))) back
  copied : ∀ k < count, c'.memory.loadWord (ofNat (G + 16 + 4 * k)) =
    c.memory.loadWord (ofNat (F + 16 + 4 * L + 4 * (d - count) + 4 * k))
  kept : Memory.SameOutside G F c.memory c'.memory

/-- **What the lines of a call do.** -/
theorem callLines_run (hf : f.Shape L D S) (hF : F = G + S) (haligned : F % 8 = 0)
    (hhigh : F + S + 4 < 2 ^ 32) (hcount : count ≤ d) (hslots : count ≤ L) (hd : d ≤ D)
    (hlabel : labels[(Label.returned offset).render]? = some a) (hzero : c.get 0 = 0)
    (hsp : c.get sp = ofNat F) (hs0 : c.get s0 = ofNat (F + 16 + 4 * L))
    (hs1 : c.get s1 = ofNat (4 * d)) :
    ∃ c', straight labels (callLines f offset count) c = some c' ∧
      FrameMade L F G d count a c c' := by
  have hfits := hf.fits
  have haligned' := hf.aligned
  have hsmall := hf.slots_le
  obtain ⟨c₁, hrun₁, h₁8, h₁s0, h₁s1, hheader, hsame₁⟩ :=
    headerLines_run hf.size_neg hF (by omega) (by omega) hcount (by omega) hlabel hsp hs1
  obtain ⟨c₂, hrun₂, h₂, hcopied, hsame₂⟩ :=
    argumentLines_run labels (n := count) (by omega) (by omega) (by omega) (by omega) h₁8
      (h₁s0.trans hs0) h₁s1
  have hzero₂ : c₂.get 0 = 0 := by
    rw [straight_zero hrun₂, straight_zero hrun₁, hzero]
  obtain ⟨c₃, hrun₃, h₃sp, h₃fp, h₃s0, h₃s1, hmemory⟩ :=
    newFrame_run labels hf.base hzero₂ ((h₂ 8 (by decide) (by decide)).trans h₁8)
  refine ⟨c₃, straight_two hrun₁ (straight_two hrun₂ hrun₃), h₃sp, h₃fp, h₃s0, h₃s1, ?_, ?_, ?_⟩
  · rw [hmemory]
    exact hheader.sameOutside (by omega) hsame₂ (Nat.le_refl _)
  · intro k hk
    rw [hmemory, hcopied k hk]
    exact hsame₁.loadWord (by omega) (by omega)
  · rw [hmemory]
    exact (hsame₁.widen (Nat.le_refl _) (by omega)).trans (hsame₂.widen (by omega) (by omega))

/-! ### The lines of a return -/

/-- The lines that restore the caller's registers. -/
def restoreLines (f : Frame) : List Line :=
  [.access .lw ra Frame.returnAddress.toInt fp, .access .lw s1 Frame.savedOffset.toInt fp,
    .access .lw s0 Frame.savedBase.toInt fp, .immediate .addiu sp fp f.size.toInt,
    .access .lw fp Frame.savedPointer.toInt fp]

/-- The lines that take the result, if there is one, and note that there is. -/
def resultLines : List Line := popLines v0 ++ [.loadNumber v1 1]

/-- The lines of a return. -/
def returnLines (f : Frame) (offset : Nat) : List Line :=
  [.move v1 zero] ++ .branch .beq s1 zero (.restore offset) :: (resultLines ++
    .label (.restore offset) :: (restoreLines f ++ .branch .beq v1 zero (.done offset) ::
      (pushLines 8 v0 ++ .label (.done offset) :: [.code (.operation .jr) [.register ra]])))

theorem returnToCaller_lines (f : Frame) (offset : Nat) :
    (returnToCaller f offset).lines = .ok (returnLines f offset) := rfl

/-! ### What the lines of a return do -/

theorem resultLines_run (labels : Labels) {B : Nat} (hB : B % 4 = 0) (hsmall : n < 2 ^ 30)
    (hs0 : c.get s0 = ofNat B) (hs1 : c.get s1 = ofNat (4 * n)) (hv1 : c.get v1 = 0) :
    ∃ c', (if c.get s1 = 0 then some c else straight labels resultLines c) = some c' ∧
      (c'.get v1 = 0 ↔ n = 0) ∧ c'.get fp = c.get fp ∧ c'.memory = c.memory ∧
      (n ≠ 0 → c'.get v0 = c.memory.loadWord (ofNat (B + 4 * (n - 1)))) := by
  by_cases h0 : n = 0
  · subst h0
    exact ⟨c, if_pos hs1, by simp [hv1], rfl, rfl, fun h => absurd rfl h⟩
  · obtain ⟨k, rfl⟩ := Nat.exists_eq_succ_of_ne_zero h0
    have hne : c.get s1 ≠ 0 := by
      rw [hs1]
      exact Word.ofNat_ne (y := 0) (by omega) (by omega) (by omega)
    obtain ⟨c₁, hrun, hv0, -, hregs, hmemory, -⟩ :=
      popLines_run labels (r := v0) (by decide) hB hs0 hs1
    refine ⟨c₁.set v1 1, ?_, ?_, ?_, ?_, ?_⟩
    · rw [if_neg hne]
      exact straight_two hrun rfl
    · rw [get_set_same _ _ (by decide)]
      simp
    · rw [get_set_other _ _ (by decide), hregs fp (by decide) (by decide)]
    · rw [memory_set, hmemory]
    · intro _
      rw [get_set_other _ _ (by decide), hv0]
      rfl

/-- **The header of the callee is the way back** to the frame of the caller. -/
theorem restoreLines_run (labels : Labels) (hf : f.Shape L D S) (hG : G % 4 = 0)
    (hfp : c.get fp = ofNat G) {base offset : UInt32}
    (hheader : Header c.memory G pointer base offset address) :
    ∃ c', straight labels (restoreLines f) c = some c' ∧ c'.get ra = address ∧
      c'.get s1 = offset ∧ c'.get s0 = base ∧ c'.get sp = ofNat (G + S) ∧
      c'.get fp = pointer ∧ c'.get v0 = c.get v0 ∧ c'.get v1 = c.get v1 ∧
      c'.memory = c.memory := by
  -- the pointer comes last: until then the header is read through it
  let c₁ := (((c.set ra address).set s1 offset).set s0 base).set sp (ofNat (G + S))
  refine ⟨c₁.set fp pointer, ?_, ?_, ?_, ?_, ?_, ?_, ?_, ?_, ?_⟩
  · rw [restoreLines,
      straight_load (y := G + 12) hfp (by rw [show Frame.returnAddress.toInt = 12 from rfl]; omega)
        (by omega), hheader.address,
      straight_load (x := G) (y := G + 8) (by rw [get_set_other _ _ (by decide), hfp])
        (by rw [show Frame.savedOffset.toInt = 8 from rfl]; omega) (by omega),
      memory_set, hheader.offset,
      straight_load (x := G) (y := G + 4)
        (by simp (disch := decide) only [get_set_other, hfp])
        (by rw [show Frame.savedBase.toInt = 4 from rfl]; omega) (by omega),
      memory_set, memory_set, hheader.base,
      straight_displace (x := G) (y := G + S)
        (by simp (disch := decide) only [get_set_other, hfp]) (by rw [hf.size]; omega),
      straight_load (x := G) (y := G) (by simp (disch := decide) only [get_set_other, hfp])
        (by rw [show Frame.savedPointer.toInt = 0 from rfl]; omega) (by omega),
      memory_set, memory_set, memory_set, memory_set, hheader.pointer]
    rfl
  all_goals simp (disch := decide) only [c₁, get_set_other, get_set_same, memory_set]

/-! ### Lines that can be read back -/

theorem headerLines_plain (f : Frame) (offset count : Nat) :
    ∀ l ∈ headerLines f offset count, l.Plain := by
  have hrelease : ∀ l ∈ (if count ≠ 0 then
      [Line.immediate .addiu s1 s1 (-Frame.cellSize * Int64.ofNat count).toInt] else []),
      l.Plain := by
    split
    · exact List.forall_mem_singleton.2 (Line.plain_immediate .addiu (by decide) _)
    · exact List.forall_mem_nil _
  simp only [headerLines, List.forall_mem_append, List.forall_mem_cons]
  refine ⟨⟨⟨Line.plain_immediate .addiu (by decide) _, by decide, by decide, List.forall_mem_nil _⟩,
    hrelease⟩, by decide, ?_, by decide, List.forall_mem_nil _⟩
  exact List.forall_mem_cons.2 ⟨by decide, List.forall_mem_singleton.2 rfl⟩

theorem argumentLines_plain (count : Nat) : ∀ l ∈ argumentLines count, l.Plain := by
  unfold argumentLines
  split
  · exact List.forall_mem_nil _
  · refine List.forall_mem_cons.2 ⟨by decide, fun l hl => ?_⟩
    obtain ⟨k, -, hk⟩ := List.mem_flatMap.1 hl
    rcases List.mem_cons.1 hk with rfl | hk
    · exact Line.plain_access .lw (by decide) _
    · obtain rfl := List.mem_singleton.1 hk
      exact Line.plain_access .sw (by decide) _

theorem callLines_plain (f : Frame) (offset count : Nat) :
    ∀ l ∈ callLines f offset count, l.Plain := by
  simp only [callLines, List.forall_mem_append]
  exact ⟨headerLines_plain f offset count, argumentLines_plain count, by decide, enterFrame_plain f⟩

theorem restoreLines_plain (f : Frame) : ∀ l ∈ restoreLines f, l.Plain := by
  simp only [restoreLines, List.forall_mem_cons]
  exact ⟨by decide, by decide, by decide, Line.plain_immediate .addiu (by decide) _, by decide,
    List.forall_mem_nil _⟩

/-! ### Calls and returns of the machine -/

variable {elide : Bool} {image : Image} {m : Machine} {k j : Nat}

/-- The machine runs the words of a program and is about to carry out those at a label. -/
structure AtLabel (image : Image) (l : Label) (m : Machine) : Prop where
  text : m.text = image.words
  running : m.halted = false
  address : image.labels[l.render]? = some m.pc

theorem AtLabel.ready {l : Label} (h : AtLabel image l m)
    (hl : image.labels[l.render]? = some (addressOf k)) : Ready image.words k m :=
  ⟨h.text, h.running, Option.some.inj (h.address.symm.trans hl)⟩

theorem AtLabel.of_resume {l : Label} {c : Core} (h : Ready image.words k m)
    (hl : image.labels[l.render]? = some a) : AtLabel image l (m.resume c a n) :=
  ⟨h.text, h.running, hl⟩

/-- **The lines of a call go to its target**, with whatever they make of the registers and the
memory, and the word behind them has the label that the return address is taken from. -/
theorem callLines_go (hm : Ready image.words k m) (himage : image.Addressable) {l : Label}
    (hl : l.isMade) (hlaid : Laid elide image k
      ((callLines f offset count ++ [Line.jump l, Line.label (.returned offset)]).map Line.render)
      j) (hzero : m.core.get 0 = 0) {P : UInt32 → Core → Prop}
    (hrun : ∀ b, image.labels[(Label.returned offset).render]? = some b →
      ∃ c, straight image.labels (callLines f offset count) m.core = some c ∧ P b c) :
    ∃ c n a, image.labels[l.render]? = some a ∧
      image.labels[(Label.returned offset).render]? = some (addressOf (k + n)) ∧ k + n ≤ j ∧
      m.Goes n (m.resume c a n) ∧ c.get 0 = 0 ∧ P (addressOf (k + n)) c := by
  rw [List.map_append] at hlaid
  -- the label behind the jump is known before its place is
  obtain ⟨b, hlabel⟩ : ∃ b, image.labels[(Label.returned offset).render]? = some b := by
    obtain ⟨i, -, hjump⟩ := Assembly.laid_append.1 hlaid
    obtain ⟨ws, -, hrest⟩ := laid_code hjump (List.forall_mem_singleton.2 hl)
    exact ⟨_, (laid_label rfl hrest).1⟩
  obtain ⟨c, hrun, hmade⟩ := hrun b hlabel
  obtain ⟨hzero', n, hjump, hgoes⟩ :=
    goes_straight hm himage hzero (callLines_plain f offset count) hlaid hrun
  obtain ⟨a, ha, hrest, hgoes'⟩ := goes_to (Machine.resume_ready hm c (k + n) n) himage hl hjump
  have hreturned := (laid_label rfl hrest).1
  obtain rfl := Option.some.inj (hlabel.symm.trans hreturned)
  exact ⟨c, n + 1, a, ha, hreturned, Assembly.laid_le hrest, goes_resume hgoes hgoes', hzero',
    hmade⟩

/-- **The lines of a return go where the header says**, with the registers it says; the top cell of
the callee, if there is one, becomes the next cell of the caller. -/
theorem returnLines_go (hm : Ready image.words k m) (himage : image.Addressable)
    (hf : f.Shape L D S) (hG : G % 4 = 0) {e B : Nat} (hB : B % 4 = 0) (he : e < 2 ^ 30)
    (hlaid : Laid elide image k ((returnLines f offset).map Line.render) j)
    (hzero : m.core.get 0 = 0) (hfp : m.core.get fp = ofNat G)
    (hs0 : m.core.get s0 = ofNat (G + 16 + 4 * L)) (hs1 : m.core.get s1 = ofNat (4 * e))
    (hheader : Header m.core.memory G pointer (ofNat B) (ofNat (4 * n)) address) :
    ∃ c steps, m.Goes steps (m.resume c address steps) ∧ c.get 0 = 0 ∧
      c.get sp = ofNat (G + S) ∧ c.get fp = pointer ∧ c.get s0 = ofNat B ∧
      c.get s1 = ofNat (4 * if e = 0 then n else n + 1) ∧
      c.memory = if e = 0 then m.core.memory else m.core.memory.storeWord (ofNat (B + 4 * n))
        (m.core.memory.loadWord (ofNat (G + 16 + 4 * L + 4 * (e - 1)))) := by
  have hstart : Reaches elide image m m.core (returnLines f offset) j :=
    Reaches.start hm hzero hlaid
  have h₁ := Reaches.straight [.move v1 zero] hm himage hstart (by decide) rfl
  have h₁v1 : (m.core.set v1 (m.core.get zero)).get v1 = 0 := by
    rw [get_set_same _ _ (by decide)]
    exact hzero
  have h₁s0 : (m.core.set v1 (m.core.get zero)).get s0 = ofNat (G + 16 + 4 * L) := by
    rw [get_set_other _ _ (by decide), hs0]
  have h₁s1 : (m.core.set v1 (m.core.get zero)).get s1 = ofNat (4 * e) := by
    rw [get_set_other _ _ (by decide), hs1]
  obtain ⟨c₂, hrun₂, h₂v1, h₂fp, h₂memory, h₂v0⟩ :=
    resultLines_run image.labels (by omega) he h₁s0 h₁s1 h₁v1
  have h₂ := Reaches.skip hm himage h₁ (by decide) rfl (by decide) hrun₂
  rw [memory_set] at h₂memory h₂v0
  rw [get_set_other _ _ (by decide), hfp] at h₂fp
  obtain ⟨c₃, hrun₃, h₃ra, h₃s1, h₃s0, h₃sp, h₃fp, h₃v0, h₃v1, h₃memory⟩ :=
    restoreLines_run image.labels hf hG h₂fp (by rwa [h₂memory])
  have h₃ := Reaches.straight (restoreLines f) hm himage h₂ (restoreLines_plain f) hrun₃
  rw [h₂memory] at h₃memory
  -- by now `s1` is the caller's, and only `v1` still tells whether there is a result
  by_cases h0 : e = 0
  · have h₄ := Reaches.skip hm himage h₃ (by decide) rfl (by decide)
      (if_pos (h₃v1.trans (h₂v1.2 h0)))
    obtain ⟨hzero', steps, hgoes⟩ := Reaches.leave hm himage h₄ (by decide) rfl
    rw [h₃ra] at hgoes
    refine ⟨c₃, steps, hgoes, hzero', h₃sp, h₃fp, h₃s0, ?_, ?_⟩
    · rw [if_pos h0, h₃s1]
    · rw [if_pos h0, h₃memory]
  · obtain ⟨c₄, hrun₄, h₄s1, h₄regs, h₄memory, -⟩ :=
      pushLines_run image.labels (a := 8) (r := v0) (by decide) (by decide) hB h₃s0 h₃s1
    have hne : c₃.get v1 ≠ 0 := fun h => h0 (h₂v1.1 (h₃v1.symm.trans h))
    have h₄ := Reaches.skip hm himage h₃ (by decide) rfl (by decide) ((if_neg hne).trans hrun₄)
    obtain ⟨hzero', steps, hgoes⟩ := Reaches.leave hm himage h₄ (by decide) rfl
    rw [h₄regs ra (by decide) (by decide), h₃ra] at hgoes
    refine ⟨c₄, steps, hgoes, hzero', ?_, ?_, ?_, ?_, ?_⟩
    · rw [h₄regs sp (by decide) (by decide), h₃sp]
    · rw [h₄regs fp (by decide) (by decide), h₃fp]
    · rw [h₄regs s0 (by decide) (by decide), h₃s0]
    · rw [if_neg h0, h₄s1]
    · rw [if_neg h0, h₄memory, h₃v0, h₂v0 h0, h₃memory]

/-! ### Call linkage -/

/-- The registers while the frame at `F` is in use, with `n` cells on its operand stack. -/
structure InFrame (f : Frame) (F n : Nat) (m : Machine) : Prop where
  zero : m.regs.get zero = 0
  pointer : m.regs.get fp = ofNat F
  base : m.regs.get s0 = UInt32.ofInt (F + f.base.toInt)
  offset : m.regs.get s1 = ofNat (4 * n)

/-- The address of local slot `k` of the frame at `F`. -/
def slotAddress (F k : Nat) : UInt32 := UInt32.ofInt (F + (Frame.localOffset (Int64.ofNat k)).toInt)

/-- The address of cell `i` of the frame at `F`, from the first that was pushed. -/
def cellAddress (f : Frame) (F i : Nat) : UInt32 := UInt32.ofInt (F + f.base.toInt + 4 * i)

/-- What a call with `count` arguments makes of a state with `d` cells in the frame at `F`: the
frame at `G` is in use and has no cells, its slots hold the arguments in the order in which they
were pushed, and nothing outside it has changed. -/
structure Entered (f : Frame) (F G d count : Nat) (m m' : Machine) : Prop where
  frame : InFrame f G 0 m'
  stackPointer : m'.regs.get sp = ofNat G
  arguments : ∀ k < count, m'.memory.loadWord (slotAddress G k) =
    m.memory.loadWord (cellAddress f F (d - count + k))
  kept : Memory.SameOutside G F m.memory m'.memory

/-- What a return from the frame at `G`, with `e` cells, makes of a state: the frame at `F` is in
use again with the `n` cells it had and, if there was one, with the top cell of the callee; that
cell is all that has changed. -/
structure Resumed (f : Frame) (F G n e : Nat) (r r' : Machine) : Prop where
  frame : InFrame f F (if e = 0 then n else n + 1) r'
  stackPointer : r'.regs.get sp = ofNat F
  memory : r'.memory = if e = 0 then r.memory else
    r.memory.storeWord (cellAddress f F n) (r.memory.loadWord (cellAddress f G (e - 1)))

theorem ofInt_eq_ofNat {i : Int} {n : Nat} (h : i = n) : UInt32.ofInt i = ofNat n := by
  rw [h, Word.ofInt_natCast]

theorem baseAddress_eq (hf : f.Shape L D S) (F : Nat) :
    UInt32.ofInt (F + f.base.toInt) = ofNat (F + 16 + 4 * L) :=
  ofInt_eq_ofNat (by rw [hf.base]; omega)

theorem cellAddress_eq (hf : f.Shape L D S) (F i : Nat) :
    cellAddress f F i = ofNat (F + 16 + 4 * L + 4 * i) :=
  ofInt_eq_ofNat (by rw [hf.base]; omega)

theorem slotAddress_eq (F : Nat) {k : Nat} (hk : k < 2 ^ 60) :
    slotAddress F k = ofNat (F + 16 + 4 * k) :=
  ofInt_eq_ofNat (by rw [Frame.localOffset_ofNat_toInt hk]; omega)

/-- The number of words between two labels. -/
theorem words_between {k : Nat} (h : n < 2 ^ 30) :
    (addressOf (k + n) - addressOf k).toNat / 4 = n := by
  have hsub : addressOf (k + n) - addressOf k = addressOf n := by
    rw [Assembly.addressOf_add, UInt32.add_comm, UInt32.add_sub_cancel]
    rfl
  rw [hsub, Assembly.addressOf_toNat h]
  omega

variable {p : Program} {s : Settings} {out : Output}

theorem draft_invoke {ctx : Context} (hop : ins.op = .invoke) (h : draft ctx offset ins = .ok ls) :
    Int64.ofNat (ins.half 1) ≤ ctx.frame.localSlots ∧
      ls = .place offset ins :: (callLines ctx.frame offset (ins.half 1) ++
        [.jump (.start (ins.half 0)), .label (.returned offset)]) := by
  obtain ⟨ls', hls', rfl⟩ := map_ok_iff.1 h
  simp only [operation, hop] at hls'
  obtain ⟨hslots, rfl⟩ := call_lines hls'
  have htarget : ins.target.toNat = ins.half 0 := by
    rw [target, if_pos hop, Int.toNat_natCast]
  rw [htarget]
  exact ⟨hslots, rfl⟩

theorem draft_ret {ctx : Context} (hop : ins.op = .ret)
    (hentry : ctx.functions.inEntry offset = false) (h : draft ctx offset ins = .ok ls) :
    ls = .place offset ins :: returnLines ctx.frame offset := by
  obtain ⟨ls', hls', rfl⟩ := map_ok_iff.1 h
  simp only [operation, hop, hentry, Bool.false_eq_true, if_false, returnToCaller_lines] at hls'
  rw [← Except.ok.inj hls']

section Linkage

variable (hlower : lower p s = .ok out)
  (himage : Assembly.assemble elide (out.lines.map Line.render) = .ok image)
  (haddressable : image.Addressable)

include hlower himage haddressable

/-- The words of a call go to its target. -/
theorem call_goes (hmem : (ins, offset) ∈ p.instructions.zip (offsets p.instructions))
    (hop : ins.op = .invoke) (hm : AtLabel image (.start offset) m) (hzero : m.regs.get zero = 0)
    {P : UInt32 → Core → Prop}
    (hrun : Int64.ofNat (ins.half 1) ≤ out.frame.localSlots →
      ∀ b, image.labels[(Label.returned offset).render]? = some b →
      ∃ c, straight image.labels (callLines out.frame offset (ins.half 1)) m.core = some c ∧
        P b c) :
    ∃ c a n back, image.labels[(Label.returned offset).render]? = some back ∧
      Machine.stepUpTo ((back - m.pc).toNat / 4) m = (m.resume c a n, none) ∧
      AtLabel image (.start (ins.half 0)) (m.resume c a n) ∧ c.get 0 = 0 ∧ P back c := by
  rw [frame_of_lower hlower] at hrun
  obtain ⟨fs, ls, k, j, hfs, hdraft, hlaid, hj⟩ :=
    instruction_lines hlower himage hmem (ordinary_of_op hop)
  obtain ⟨hslots, rfl⟩ := draft_invoke hop hdraft
  obtain ⟨hplace, hlaid⟩ := laid_place hlaid
  have hready := hm.ready hplace
  obtain ⟨c, n, a, htarget, hback, hn, hgoes, hczero, hmade⟩ :=
    callLines_go hready haddressable rfl hlaid hzero (hrun hslots)
  have hsize := haddressable.size
  have hsteps : (addressOf (k + n) - m.pc).toNat / 4 = n := by
    rw [hready.pc]
    exact words_between (by omega)
  exact ⟨c, a, n, addressOf (k + n), hback, by rw [hsteps]; exact hgoes,
    AtLabel.of_resume hready htarget, hczero, hmade⟩

variable (hf : out.frame.Shape L D S)

include hf

/-- A call enters its target, and leaves a header that tells the way back. -/
theorem call_enters (hmem : (ins, offset) ∈ p.instructions.zip (offsets p.instructions))
    (hop : ins.op = .invoke) (hm : AtLabel image (.start offset) m) {d : Nat}
    (hframe : InFrame out.frame F d m) (hsp : m.regs.get sp = ofNat F) (hcount : ins.half 1 ≤ d)
    (hd : d ≤ D) (haligned : F % 8 = 0) (hF : F = G + S) (hhigh : F + S + 4 < 2 ^ 32) :
    ∃ m' back, image.labels[(Label.returned offset).render]? = some back ∧
      Machine.stepUpTo ((back - m.pc).toNat / 4) m = (m', none) ∧
      AtLabel image (.start (ins.half 0)) m' ∧ Entered out.frame F G d (ins.half 1) m m' ∧
      Header m'.memory G (ofNat F) (ofNat (F + 16 + 4 * L))
        (ofNat (4 * (d - ins.half 1))) back := by
  have hbase := hframe.base
  rw [baseAddress_eq hf] at hbase
  have hhalf : ins.half 1 < 2 ^ 16 := UInt16.toNat_lt _
  have hslots : Int64.ofNat (ins.half 1) ≤ out.frame.localSlots → ins.half 1 ≤ L := by
    rw [Int64.le_iff_toInt_le, Int64.toInt_ofNat_of_lt (by omega), hf.slots]
    omega
  obtain ⟨c, a, n, back, hback, hsteps, htarget, hczero, hmade⟩ :=
    call_goes hlower himage haddressable hmem hop hm hframe.zero fun hle _ hb =>
      callLines_run hf hF haligned hhigh hcount (hslots hle) hd hb hframe.zero hsp hbase
        hframe.offset
  refine ⟨m.resume c a n, back, hback, hsteps, htarget,
    ⟨⟨hczero, hmade.pointer, ?_, hmade.offset⟩, hmade.stackPointer, ?_, hmade.kept⟩, ?_⟩
  · rw [baseAddress_eq hf]
    exact hmade.base
  · intro i hi
    rw [slotAddress_eq G (by omega), cellAddress_eq hf, Nat.mul_add,
      ← Nat.add_assoc]
    exact hmade.copied i hi
  · have hpointer : m.core.get fp = ofNat F := hframe.pointer
    have hbase' : m.core.get s0 = ofNat (F + 16 + 4 * L) := hbase
    have hheader := hmade.header
    rwa [hpointer, hbase'] at hheader

/-- A return that finds a header goes back where the header says. -/
theorem return_resumes {fs : Functions}
    (hfs : Functions.ofList p.instructions s.features.implicitEntry = .ok fs)
    (hmem : (ins, offset) ∈ p.instructions.zip (offsets p.instructions))
    (hop : ins.op = .ret) (hentry : fs.inEntry offset = false)
    (hm : AtLabel image (.start offset) m) {e : Nat} (hframe : InFrame out.frame G e m) (he : e ≤ D)
    (haligned : F % 8 = 0) (hF : F = G + S) {l : Label} {back : UInt32}
    (hback : image.labels[l.render]? = some back)
    (hheader : Header m.memory G (ofNat F) (ofNat (F + 16 + 4 * L))
      (ofNat (4 * n)) back) :
    ∃ steps m', Machine.stepUpTo steps m = (m', none) ∧ AtLabel image l m' ∧
      Resumed out.frame F G n e m m' := by
  have hshape := frame_of_lower hlower ▸ hf
  obtain ⟨fs', ls, k, j, hfs', hdraft, hlaid, -⟩ :=
    instruction_lines hlower himage hmem (ordinary_of_op hop)
  obtain rfl : fs = fs' := Except.ok.inj (hfs.symm.trans hfs')
  obtain rfl := draft_ret hop hentry hdraft
  obtain ⟨hplace, hlaid⟩ := laid_place hlaid
  have hready := hm.ready hplace
  have hbase := hframe.base
  rw [baseAddress_eq hf] at hbase
  have hfits := hf.fits
  have hsmall := hf.small
  have haligned' := hf.aligned
  obtain ⟨c, steps, hgoes, hczero, hcsp, hcfp, hcs0, hcs1, hmemory⟩ :=
    returnLines_go hready haddressable hshape (by omega) (by omega) (by omega) hlaid hframe.zero
      hframe.pointer hbase hframe.offset hheader
  refine ⟨steps, m.resume c back steps, hgoes, AtLabel.of_resume hready hback,
    ⟨⟨hczero, hcfp, ?_, hcs1⟩, ?_, ?_⟩⟩
  · rw [baseAddress_eq hf]
    exact hcs0
  · rw [hF]
    exact hcsp
  · rw [cellAddress_eq hf, cellAddress_eq hf]
    exact hmemory

end Linkage

/-- **Call linkage.**  A call enters its target in as many steps as it has words.  Whatever happens
then, every return of a function other than the entry function that finds the four words which the
call left comes back behind the call.  Where the settings leave the depth open it is the program's,
for which compiling takes an estimate that is far below the bound. -/
theorem call_linkage (hs : s.validate = .ok ()) (hdepth : s.stackDepth.toInt < 2 ^ 60)
    (hmax : s.stackDepth = 0 → p.maxDepth.toInt < 2 ^ 60) (hlower : lower p s = .ok out)
    (himage : Assembly.assemble elide (out.lines.map Line.render) = .ok image)
    (hsize : image.words.size < 2 ^ 26) {ins : Instruction} {offset : Nat}
    (hmem : (ins, offset) ∈ p.instructions.zip (offsets p.instructions))
    (hop : ins.op = .invoke) (hm : AtLabel image (.start offset) m) {F G d : Nat}
    (hframe : InFrame out.frame F d m) (hsp : m.regs.get sp = ofNat F)
    (hcount : ins.half 1 ≤ d) (hd : (d : Int) ≤ out.frame.depth.toInt) (haligned : F % 8 = 0)
    (hF : (F : Int) = G + out.frame.size.toInt) (hhigh : F + out.frame.size.toInt + 4 < 2 ^ 32) :
    ∃ m' back, image.labels[(Label.returned offset).render]? = some back ∧
      Machine.stepUpTo ((back - m.pc).toNat / 4) m = (m', none) ∧
      AtLabel image (.start (ins.half 0)) m' ∧ Entered out.frame F G d (ins.half 1) m m' ∧
      ∀ fs ins' offset' r e,
        Functions.ofList p.instructions s.features.implicitEntry = .ok fs →
        (ins', offset') ∈ p.instructions.zip (offsets p.instructions) →
        ins'.op = .ret → fs.inEntry offset' = false →
        AtLabel image (.start offset') r → InFrame out.frame G e r →
        (e : Int) ≤ out.frame.depth.toInt →
        (∀ x, G ≤ x → x < G + 16 →
          r.memory.load (ofNat x) = m'.memory.load (ofNat x)) →
        ∃ n r', Machine.stepUpTo n r = (r', none) ∧ AtLabel image (.returned offset) r' ∧
          Resumed out.frame F G (d - ins.half 1) e r r' := by
  have haddressable : image.Addressable := ⟨hsize, Assembly.label_address himage⟩
  obtain ⟨-, -, hcheck, -, -, hout, -⟩ := lower_ok hlower
  -- a frame that can hold `d` cells has a depth that is not negative, so nothing wrapped in it
  obtain ⟨L, D, S, hf⟩ : ∃ L D S, out.frame.Shape L D S := by
    rw [hout] at hd ⊢
    exact Frame.shape_ofProgram hs (Int.le_trans (Int.natCast_nonneg d) hd)
      (Frame.depthFor_lt hdepth hmax) hcheck
  rw [hf.size] at hF hhigh
  rw [hf.depth] at hd
  have hFG : F = G + S := by omega
  obtain ⟨m', back, hback, hsteps, htarget, hentered, hheader⟩ :=
    call_enters hlower himage haddressable hf hmem hop hm hframe hsp hcount (by omega) haligned
      hFG (by omega)
  refine ⟨m', back, hback, hsteps, htarget, hentered, ?_⟩
  intro fs ins' offset' r e hfs hmem' hop' hentry hr hframe' he hsame
  rw [hf.depth] at he
  exact return_resumes hlower himage haddressable hf hfs hmem' hop' hentry hr hframe' (by omega)
    haligned hFG hback (hheader.congr hsame)

/-! ### A call and its return -/

/-- Calls the function at offset 11, which hands its argument back. -/
def linkSample : Program :=
  ⟨[⟨.iconst, [41], []⟩, ⟨.invoke, [11, 1], []⟩, ⟨.ret, [], []⟩, ⟨.load, [0], []⟩,
    ⟨.ret, [], []⟩], 1⟩

/-- The frame of the sample. -/
def linkFrame : Frame := ⟨16, 80, 1, 88⟩

/-- The functions of the sample. -/
def linkFunctions : Functions where
  functions := [⟨0, 11, 0, 3, true⟩, ⟨11, 15, 3, 5, false⟩]
  entry := 0
  boundaries := Functions.boundariesOf
    (linkSample.instructions.zip (offsets linkSample.instructions))

/-- The lines of its instructions. -/
def linkParts (f : Frame) : List (List Line) :=
  [[Line.place 0 ⟨.iconst, [41], []⟩, Line.loadNumber 8 41] ++ pushLines 9 8,
    .place 5 ⟨.invoke, [11, 1], []⟩ ::
      (callLines f 5 1 ++ [Line.jump (.start 11), Line.label (.returned 5)]),
    .place 10 ⟨.ret, [], []⟩ :: exitLines (.status 10),
    [Line.place 11 ⟨.load, [0], []⟩, Line.access .lw 8 16 fp] ++ pushLines 9 8,
    .place 14 ⟨.ret, [], []⟩ :: returnLines f 14]

/-- All its lines. -/
def linkLines (f : Frame) : List Line :=
  [Line.textSection, Line.visible .main, Line.label .main,
    Line.code .la [.register sp, .address 0x7fffeff8],
    Line.immediate .addiu sp sp (-f.size).toInt, Line.move fp sp] ++ enterFrame f ++
    [Line.jump (.start 0)] ++ (linkParts f).flatten

theorem functions_linkSample :
    Functions.ofList linkSample.instructions true = .ok linkFunctions := by
  have hcall : Functions.badCall? linkFunctions.boundaries
      (linkSample.instructions.zip (offsets linkSample.instructions)) = none :=
    Functions.badCall?_eq_none (by decide)
  have hstarts : Functions.startsIn
      (linkSample.instructions.zip (offsets linkSample.instructions)) = [0, 11] := by
    show ([0, 11] : List Nat).mergeSort.eraseReps = [0, 11]
    rw [List.mergeSort_of_pairwise (by decide)]
    rfl
  unfold Functions.ofList
  simp only [hstarts]
  rw [show Functions.badCall? (Functions.boundariesOf _) _ = none from hcall]
  rfl

theorem call_linkSample : ((⟨.invoke, [11, 1], []⟩ : Instruction), 5) ∈
    linkSample.instructions.zip (offsets linkSample.instructions) := by
  decide

/-- The sample is lowered and assembled with any depth for which its frame is accepted. -/
theorem assemble_linkSample (hp : p.instructions = linkSample.instructions)
    (hframe : Frame.ofProgram p {} = f) (hslots : f.localSlots = 16) (hcheck : f.check = .ok ())
    (hformed : WellFormed (linkLines f)) (hlength : (linkLines f).length < 100) :
    ∃ out image pc, lower p {} = .ok out ∧ out.frame = f ∧
      Assembly.assemble true (out.lines.map Line.render) = .ok image ∧ image.words.size < 200 ∧
      image.labels[(Label.start 5).render]? = some pc := by
  obtain ⟨slots, base, depth, size⟩ := f
  obtain rfl : slots = 16 := hslots
  let f : Frame := ⟨16, base, depth, size⟩
  have hcall : draft ⟨f, linkFunctions⟩ 5 ⟨.invoke, [11, 1], []⟩ =
      .ok (.place 5 ⟨.invoke, [11, 1], []⟩ ::
        (callLines f 5 1 ++ [.jump (.start 11), .label (.returned 5)])) := by
    have htarget : linkFunctions.startsAt (target ⟨.invoke, [11, 1], []⟩) = true :=
      Functions.startsAt_of_any (n := 11) functions_linkSample rfl
    simp only [draft, operation, call, targetLabel, if_pos htarget, pure_bind]
    rfl
  have hdrafts : List.Forall₂ (fun x ls => draft ⟨f, linkFunctions⟩ x.2 x.1 = .ok ls)
      (linkSample.instructions.zip (offsets linkSample.instructions)) (linkParts f) :=
    .cons rfl (.cons hcall (.cons rfl (.cons rfl (.cons rfl .nil))))
  have hordinary : ∀ ins ∈ linkSample.instructions, Ordinary ins := by
    simp [linkSample, Ordinary, Op.isMarker]
  obtain ⟨out, hlower, hout, hlines⟩ :=
    lower_of_drafts (s := {}) (hframe ▸ hcheck) (hp ▸ functions_linkSample)
      (hp ▸ hordinary) (by rwa [hframe, hp])
  have hentry : entryLabel linkFunctions = .start 0 :=
    if_pos (Functions.startsAt_of_any (n := 0) functions_linkSample rfl)
  have hneeds : needsExit linkFunctions linkSample.instructions = false := by
    rw [needsExit, hentry]
    rfl
  rw [hp, hneeds, prologue, hframe, hentry] at hlines
  obtain ⟨image, himage, hsize⟩ := hformed.assembles true
  rw [show linkLines f = out.lines from hlines.symm] at himage
  obtain ⟨pc, hpc⟩ := start_known hlower himage (hp ▸ call_linkSample) (ordinary_of_op rfl)
  exact ⟨out, image, pc, hlower, hout.trans hframe, himage, by omega, hpc⟩

/-- The machine about to make the call of the sample in the frame at 65536. -/
def linkState (image : Image) (pc offset : UInt32) : Machine :=
  { Machine.ofWords image.words with
    pc
    regs := ((((({} : Registers).put sp 65536).put fp 65536).put s0 65616).put s1 offset) }

/-- The call of the sample and, when a cell has been pushed, the return from it. -/
theorem call_linkage_linkSample :
    ∃ out image m m' r r' n, lower linkSample {} = .ok out ∧
      Assembly.assemble true (out.lines.map Line.render) = .ok image ∧
      AtLabel image (.start 5) m ∧ InFrame out.frame 65536 1 m ∧
      AtLabel image (.start 11) m' ∧ Entered out.frame 65536 65448 1 1 m m' ∧
      AtLabel image (.start 14) r ∧ InFrame out.frame 65448 1 r ∧ r.memory = m'.memory ∧
      Machine.stepUpTo n r = (r', none) ∧ AtLabel image (.returned 5) r' ∧
      Resumed out.frame 65536 65448 0 1 r r' := by
  obtain ⟨out, image, a, hlower, hframe, himage, hsize, ha⟩ :=
    assemble_linkSample (p := linkSample) (f := linkFrame) rfl (by decide) rfl rfl
      ⟨by decide, by decide, by decide, by decide, by decide⟩ (by decide)
  have hret : ((⟨.ret, [], []⟩ : Instruction), 14) ∈
      linkSample.instructions.zip (offsets linkSample.instructions) := by decide
  obtain ⟨b, hb⟩ := start_known hlower himage hret (ordinary_of_op rfl)
  have hm : AtLabel image (.start 5) (linkState image a 4) := ⟨rfl, rfl, ha⟩
  have hmframe : InFrame out.frame 65536 1 (linkState image a 4) := by
    rw [hframe]
    exact ⟨rfl, rfl, rfl, rfl⟩
  obtain ⟨m', back, -, -, hm', hentered, hreturns⟩ := call_linkage rfl (by decide)
    (fun _ => by decide) hlower himage (by omega) call_linkSample rfl hm hmframe
    (G := 65448) rfl (by decide) (by rw [hframe]; decide) (by decide) (by rw [hframe]; decide)
    (by rw [hframe]; decide)
  -- the callee is stepped over: it has pushed a cell and stands at its return
  let r : Machine := { m' with pc := b, regs := m'.regs.put s1 4 }
  have hr : AtLabel image (.start 14) r := ⟨hm'.text, hm'.running, hb⟩
  have hrframe : InFrame out.frame 65448 1 r := by
    have hother : ∀ x, x ≠ s1 → r.regs.get x = m'.regs.get x := by
      intro x hx
      exact (Registers.get_put m'.regs s1 x 4).trans (if_neg fun h => hx h.1)
    obtain ⟨hzero, hpointer, hbase, -⟩ := hentered.frame
    refine ⟨(hother _ (by decide)).trans hzero, (hother _ (by decide)).trans hpointer,
      (hother _ (by decide)).trans hbase, ?_⟩
    exact (Registers.get_put m'.regs s1 s1 4).trans (if_pos ⟨rfl, by decide⟩)
  obtain ⟨n, r', hsteps, hr', hresumed⟩ := hreturns linkFunctions _ _ r 1 functions_linkSample hret
    rfl rfl hr hrframe (by rw [hframe]; decide) fun _ _ _ => rfl
  exact ⟨out, image, _, m', r, r', n, hlower, himage, hm, hmframe, hm', hentered, hr, hrframe, rfl,
    hsteps, hr', hresumed⟩

/-- **A depth that wraps.**  With 2⁶² - 18 for its depth, the sample has frames of eight bytes, so
that the header of the callee reaches into the frame of the caller. -/
theorem caller_overwritten :
    ∃ out image m m' back, ({} : Settings).validate = .ok () ∧
      lower { linkSample with maxDepth := 4611686018427387886 } {} = .ok out ∧
      out.frame = ⟨16, 80, 4611686018427387886, 8⟩ ∧
      Assembly.assemble true (out.lines.map Line.render) = .ok image ∧ image.words.size < 2 ^ 26 ∧
      AtLabel image (.start 5) m ∧ InFrame out.frame 65536 2 m ∧ m.regs.get sp = ofNat 65536 ∧
      image.labels[(Label.returned 5).render]? = some back ∧
      Machine.stepUpTo ((back - m.pc).toNat / 4) m = (m', none) ∧ AtLabel image (.start 11) m' ∧
      m.memory.loadWord (ofNat 65536) = 0 ∧ m'.memory.loadWord (ofNat 65536) = 4 := by
  obtain ⟨out, image, a, hlower, hframe, himage, hsize, ha⟩ := assemble_linkSample
    (p := { linkSample with maxDepth := 4611686018427387886 })
    (f := ⟨16, 80, 4611686018427387886, 8⟩) rfl (by decide) rfl rfl
    ⟨by decide, by decide, by decide, by decide, by decide⟩ (by decide)
  have hm : AtLabel image (.start 5) (linkState image a 8) := ⟨rfl, rfl, ha⟩
  obtain ⟨c, _, _, back, hback, hsteps, hm', -, hword⟩ := call_goes
    (P := fun _ c => c.memory.loadWord (ofNat 65536) = 4) hlower himage
    ⟨by omega, Assembly.label_address himage⟩ call_linkSample rfl hm rfl fun _ b hb => by
      obtain ⟨c₁, hrun₁, h₁8, h₁s0, h₁s1, hheader, -⟩ := headerLines_run (f := out.frame)
        (c := (linkState image a 8).core) (F := 65536) (G := 65528) (S := 8) (d := 2)
        (by rw [hframe]; decide) rfl rfl (by decide) (show 1 ≤ 2 by decide) (by decide) hb rfl rfl
      obtain ⟨c₂, hrun₂, h₂, -, hsame⟩ := argumentLines_run image.labels (n := 1) (A := 65616)
        (by decide) (by decide) (by decide) (by decide) h₁8 h₁s0 h₁s1
      obtain ⟨c₃, hrun₃, -, -, -, -, hmemory⟩ := newFrame_run image.labels (f := out.frame)
        (L := 16) (by rw [hframe]; decide) ((straight_zero hrun₂).trans (straight_zero hrun₁))
        ((h₂ 8 (by decide) (by decide)).trans h₁8)
      refine ⟨c₃, straight_two hrun₁ (straight_two hrun₂ hrun₃), ?_⟩
      rw [hmemory]
      exact (hheader.sameOutside (by decide) hsame (Nat.le_refl _)).offset
  refine ⟨out, image, _, _, back, rfl, hlower, hframe, himage, by omega, hm, ?_, rfl, hback, hsteps,
    hm', Memory.loadWord_ofWords_above (by omega) (by decide), hword⟩
  rw [hframe]
  exact ⟨rfl, rfl, rfl, rfl⟩

end StackCompiler.Lowering.Mips
