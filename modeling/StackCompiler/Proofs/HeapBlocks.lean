/-
**The blocks of the heap.**

An allocation takes a number of elements off the operand stack, turns it into a number of bytes,
asks for so many bytes of heap and pushes the address that it gets.  The heap grows by what is asked
for, in whole words, and the address is its former end.  So each block lies between the ends of the
heap before and behind the allocation, and two blocks of a run are disjoint.

All this is done in words.  The number of bytes of an array is cut to a word, and behind the last
address the heap goes on at the first.  Blocks are disjoint as long as neither happens; an array of
2^30 elements has no room at all.

* `Machine.heapEnd_step`, `Machine.heapEnd_after` — **where the heap ends** after a step and after
  any number of them;
* `Machine.blocks_disjoint` — **the blocks of a run are disjoint**.
-/

import Mathlib.Algebra.Order.BigOperators.Group.Finset
import Mathlib.Order.CompletePartialOrder
import Mathlib.Order.Interval.Set.Disjoint
import StackCompiler.Proofs.MachineInvariants
import StackCompiler.Proofs.VisibleSymbols

namespace StackCompiler

open Register (zero v0 a0 s0 s1)
open Operation (ofFields?)
open Fields (ofWord)

/-! ### Whole words -/

theorem Word.rounded_toNat (w : UInt32) : (w &&& 0xFFFFFFFC).toNat = w.toNat / 4 * 4 := by
  rw [UInt32.toNat_and]
  exact and_upper (n := 30) (k := 2) w.toNat_lt

theorem Word.rounded_eq (a : UInt32) :
    (a + 3) &&& 0xFFFFFFFC = UInt32.ofNat ((a.toNat + 3) / 4 * 4) := by
  apply UInt32.toNat_inj.1
  rw [rounded_toNat, UInt32.toNat_add, UInt32.toNat_ofNat']
  show (a.toNat + 3) % 2 ^ 32 / 4 * 4 = (a.toNat + 3) / 4 * 4 % 2 ^ 32
  omega

namespace Machine

/-! ### The end of the heap -/

/-- The bytes by which the next step extends the heap, before they are cut to a word. -/
def grown (m : Machine) : Nat :=
  match m.next? with
  | none => 0
  | some w =>
    if ofFields? (ofWord w) = some .syscall ∧ m.asked = some .extendHeap then
      ((m.regs.get a0).toNat + 3) / 4 * 4
    else 0

/-- The bytes by which the first `k` steps extend the heap. -/
def requested (m : Machine) (k : Nat) : Nat := ∑ i ∈ Finset.range k, (m.after i).grown

theorem heapEnd_serve (m : Machine) (s : Service) :
    (m.serve s).heapEnd = m.heapEnd +
      if s = .extendHeap then (m.regs.get a0 + 3) &&& 0xFFFFFFFC else 0 := by
  cases s with
  | extendHeap => rfl
  | _ => exact (UInt32.add_zero _).symm

theorem heapEnd_perform (m : Machine) (pc : UInt32) (f : Fields) {o : Operation}
    (ho : o ≠ .syscall) : (m.perform pc f o).heapEnd = m.heapEnd := by
  have hgoIf : ∀ condition target, (m.goIf condition target).heapEnd = m.heapEnd := by
    intro condition target
    unfold goIf
    split
    · rfl
    · rfl
  have hset : ∀ r v, (m.setReg r v).heapEnd = m.heapEnd := fun _ _ => rfl
  have hmemory : ∀ memory, { m with memory }.heapEnd = m.heapEnd := fun _ => rfl
  cases o with
  | syscall => exact absurd rfl ho
  | beq | bne | blez | bgtz => exact hgoIf _ _
  | sb | sh | sw => exact hmemory _
  | j | jr | jal | jalr | mult | multu | div | divu => rfl
  | _ => exact hset _ _

variable {m : Machine}

theorem perform_syscall {s : Service} (h : m.asked = some s) (pc : UInt32)
    (f : Fields) : m.advance.perform pc f .syscall = m.advance.serve s := by
  have hadvance : m.advance.asked = some s := h
  simp only [perform, hadvance]

theorem next?_of_running (h : m.halted = false) : m.next? = m.fetch? := by
  rw [next?, h, if_neg Bool.false_ne_true]

/-- **A step extends the heap by what is asked for**, cut to a word. -/
theorem heapEnd_step (m : Machine) : m.step.1.heapEnd = m.heapEnd + UInt32.ofNat m.grown := by
  have hstep := m.makes_step
  generalize m.step = made at hstep ⊢
  have hzero : ∀ h : UInt32, h = h + UInt32.ofNat 0 := fun h => (UInt32.add_zero h).symm
  cases hstep with
  | rest h =>
      rw [grown, next?, if_pos h]
      exact hzero _
  | stray h hfetch =>
      rw [grown, next?_of_running h, hfetch]
      exact hzero _
  | @refusal w stop h hfetch hstop =>
      rw [grown, next?_of_running h, hfetch]
      dsimp only
      split
      · next hask =>
        -- a service that exists is not refused
        rw [wordFailure?] at hstop
        simp only [hask.1, failure?, hask.2] at hstop
        cases hstop
      · exact hzero _
  | @work w o h hfetch ho hstop =>
      rw [grown, next?_of_running h, hfetch]
      dsimp only
      by_cases hsys : o = .syscall
      · subst hsys
        cases hs : m.asked with
        | none => simp [failure?, hs] at hstop
        | some s =>
            have hend : m.advance.heapEnd = m.heapEnd := rfl
            have hargument : m.advance.regs.get a0 = m.regs.get a0 := rfl
            rw [perform_syscall hs, heapEnd_serve, hend, hargument, ho, Word.rounded_eq]
            by_cases hext : s = .extendHeap
            · simp [hext]
            · simp [hext]
      · rw [heapEnd_perform _ _ _ hsys, ho]
        rw [if_neg fun hask => hsys (Option.some.inj hask.1)]
        exact hzero _

/-- **Where the heap ends** after any number of steps. -/
theorem heapEnd_after (m : Machine) (k : Nat) :
    (m.after k).heapEnd = UInt32.ofNat (m.heapEnd.toNat + m.requested k) := by
  induction k with
  | zero => exact (UInt32.ofNat_toNat).symm
  | succ k ih =>
      rw [after_succ, heapEnd_step, ih, ← UInt32.ofNat_add, Nat.add_assoc, requested, requested,
        Finset.sum_range_succ]

theorem requested_add (m : Machine) (j k : Nat) :
    m.requested (j + k) = m.requested j + (m.after j).requested k := by
  rw [requested, Finset.sum_range_add]
  simp only [requested, after_add]

theorem requested_mono (m : Machine) {j k : Nat} (h : j ≤ k) : m.requested j ≤ m.requested k :=
  Finset.sum_le_sum_of_subset (Finset.range_mono h)

/-! ### Words that are carried out -/

/-- Words are fetched one after the other, and none of them is refused. -/
def CarriesOut : Machine → List UInt32 → Prop
  | _, [] => True
  | m, w :: ws => m.next? = some w ∧ m.step.2 = none ∧ CarriesOut m.step.1 ws

instance decidableCarriesOut : (m : Machine) → (ws : List UInt32) → Decidable (m.CarriesOut ws)
  | _, [] => inferInstanceAs (Decidable True)
  | m, w :: ws =>
    have := decidableCarriesOut m.step.1 ws
    inferInstanceAs (Decidable (m.next? = some w ∧ m.step.2 = none ∧ CarriesOut m.step.1 ws))

theorem carriesOut_append {ws ws' : List UInt32} :
    m.CarriesOut (ws ++ ws') ↔ m.CarriesOut ws ∧ (m.after ws.length).CarriesOut ws' := by
  induction ws generalizing m with
  | nil => simp [CarriesOut, after]
  | cons w ws ih =>
      have hafter : m.after (w :: ws).length = m.step.1.after ws.length :=
        Function.iterate_succ_apply _ _ _
      rw [List.cons_append, CarriesOut, CarriesOut, ih, hafter]
      simp only [and_assoc]

/-- What a word does that is fetched and not refused. -/
theorem step_of_next {w : UInt32} {o : Operation} (hnext : m.next? = some w) (hok : m.step.2 = none)
    (ho : ofFields? (ofWord w) = some o) :
    m.step.1 = m.advance.perform m.pc (ofWord w) o := by
  have hstep := m.makes_step
  generalize m.step = made at hstep hok ⊢
  cases hstep with
  | rest h => rw [next?, if_pos h] at hnext; cases hnext
  | stray | refusal => cases hok
  | @work w' o' h hfetch ho' hstop =>
      rw [next?_of_running h, hfetch] at hnext
      obtain rfl := Option.some.inj hnext
      obtain rfl := Option.some.inj (ho.symm.trans ho')
      rfl

end Machine

/-! ### Allocations -/

/-- What takes memory off the heap. -/
inductive Allocation where
  | array
  | string
deriving DecidableEq, Repr

namespace Allocation

/-- The instruction of an allocation. -/
def op : Allocation → Op
  | array => .newarray
  | string => .newstr

/-- The number of bytes of an element. -/
def unit : Allocation → Nat
  | array => 4
  | string => 1

/-- The words that turn a number of elements into a number of bytes. -/
def scaleWords : Allocation → List UInt32
  | array => [Operation.sll.registerWord zero a0 a0 2]
  | string => []

/-- The words that pop the count. -/
def popWords : List UInt32 :=
  [Operation.addiu.immediateWord s1 s1 0xFFFC, Operation.addu.registerWord s0 s1 a0 0,
    Operation.lw.immediateWord a0 a0 0]

/-- The words before the service. -/
def requestWords (a : Allocation) : List UInt32 :=
  popWords ++ (a.scaleWords ++ [Operation.ori.immediateWord zero v0 9])

/-- The words that push the address. -/
def pushWords : List UInt32 :=
  [Operation.addu.registerWord s0 s1 8 0, Operation.sw.immediateWord 8 v0 0,
    Operation.addiu.immediateWord s1 s1 4]

/-- The word that asks for the service. -/
def serveWord : UInt32 := Operation.syscall.registerWord zero zero zero 0

/-- **The words of an allocation.** -/
def words (a : Allocation) : List UInt32 := a.requestWords ++ serveWord :: pushWords

end Allocation

namespace Machine

/-- The topmost cell. -/
def topCell (m : Machine) : UInt32 := m.memory.loadWord (m.regs.get s0 + m.regs.get s1 - 4)

/-- A step that replaces a register, and leaves memory as it is. -/
structure Sets (m : Machine) (r : Register) (v : UInt32) : Prop where
  regs : m.step.1.regs = m.regs.set r v
  memory : m.step.1.memory = m.memory

section Steps

variable {m : Machine} {v : UInt32}

theorem Sets.get_same {r : Register} (h : m.Sets r v) (hr : r ≠ 0 ∧ r < 32) :
    m.step.1.regs.get r = v := by
  rw [h.regs, Registers.get_set, if_pos ⟨rfl, hr⟩]

theorem Sets.get_other {r r' : Register} (h : m.Sets r v) (hr : r' ≠ r) :
    m.step.1.regs.get r' = m.regs.get r' := by
  rw [h.regs, Registers.get_set, if_neg fun hsame => hr hsame.1]

theorem sets_of_next {w : UInt32} {o : Operation} {r : Register} (hnext : m.next? = some w)
    (hok : m.step.2 = none) (ho : ofFields? (ofWord w) = some o)
    (hv : m.advance.perform m.pc (ofWord w) o = m.advance.setReg r v) : m.Sets r v := by
  have hstep := (step_of_next hnext hok ho).trans hv
  constructor
  · rw [hstep]; rfl
  · rw [hstep]; rfl

end Steps

/-! ### What an allocation does -/

open Allocation (popWords pushWords serveWord)

section Parts

variable {m : Machine}

/-- The top cell is popped into the register of arguments. -/
theorem carriesOut_popWords (h : m.CarriesOut popWords) :
    (m.after popWords.length).regs.get a0 = m.topCell ∧
      (m.after popWords.length).regs.get zero = m.regs.get zero := by
  obtain ⟨hnext₁, hok₁, hnext₂, hok₂, hnext₃, hok₃, -⟩ := h
  have h₁ : m.Sets s1 (m.regs.get s1 + Word.signExtend 0xFFFC) :=
    sets_of_next hnext₁ hok₁ (o := .addiu) (by decide) rfl
  have h₂ : m.step.1.Sets a0 (m.step.1.regs.get s0 + m.step.1.regs.get s1) :=
    sets_of_next hnext₂ hok₂ (o := .addu) (by decide) rfl
  have h₃ : m.step.1.step.1.Sets a0 (m.step.1.step.1.memory.loadWord
      (m.step.1.step.1.regs.get a0 + Word.signExtend 0)) :=
    sets_of_next hnext₃ hok₃ (o := .lw) (by decide) rfl
  show m.step.1.step.1.step.1.regs.get a0 = m.topCell ∧ m.step.1.step.1.step.1.regs.get zero = _
  refine ⟨?_, ?_⟩
  · rw [h₃.get_same (by decide), h₂.get_same (by decide), h₂.memory, h₁.memory,
      h₁.get_same (by decide), h₁.get_other (by decide), topCell, UInt32.sub_eq_add_neg,
      ← UInt32.add_assoc]
    exact congrArg _ (UInt32.add_zero _)
  · rw [h₃.get_other (by decide), h₂.get_other (by decide), h₁.get_other (by decide)]

theorem carriesOut_pushWords (h : m.CarriesOut pushWords) :
    (m.after pushWords.length).topCell = m.regs.get v0 := by
  obtain ⟨hnext₁, hok₁, hnext₂, hok₂, hnext₃, hok₃, -⟩ := h
  have h₁ : m.Sets 8 (m.regs.get s0 + m.regs.get s1) :=
    sets_of_next hnext₁ hok₁ (o := .addu) (by decide) rfl
  have hstore := step_of_next hnext₂ hok₂ (o := .sw) (by decide)
  have hregs : m.step.1.step.1.regs = m.step.1.regs := by rw [hstore]; rfl
  have hmemory : m.step.1.step.1.memory = m.step.1.memory.storeWord
      (m.step.1.regs.get 8 + Word.signExtend 0) (m.step.1.regs.get v0) := by rw [hstore]; rfl
  have h₃ : m.step.1.step.1.Sets s1 (m.step.1.step.1.regs.get s1 + Word.signExtend 4) :=
    sets_of_next hnext₃ hok₃ (o := .addiu) (by decide) rfl
  show m.step.1.step.1.step.1.topCell = _
  have hplace : m.step.1.step.1.step.1.regs.get s0 + m.step.1.step.1.step.1.regs.get s1 - 4 =
      m.step.1.regs.get 8 + Word.signExtend 0 := by
    rw [h₃.get_other (by decide), h₃.get_same (by decide), hregs, h₁.get_other (by decide),
      h₁.get_other (by decide), h₁.get_same (by decide), ← UInt32.add_assoc]
    exact (UInt32.add_sub_cancel _ _).trans (UInt32.add_zero _).symm
  rw [topCell, hplace, h₃.memory, hmemory, Memory.loadWord_storeWord, h₁.get_other (by decide)]

/-- The bytes of the elements whose number is on top are asked for. -/
theorem carriesOut_requestWords {a : Allocation} (hzero : m.regs.get zero = 0)
    (h : m.CarriesOut a.requestWords) :
    (m.after a.requestWords.length).regs.get v0 = 9 ∧
      (m.after a.requestWords.length).regs.get a0 = UInt32.ofNat (a.unit * m.topCell.toNat) := by
  obtain ⟨hpop, hrest⟩ := carriesOut_append.1 h
  obtain ⟨hcount, hkeeps⟩ := carriesOut_popWords hpop
  rw [hzero] at hkeeps
  rw [Allocation.requestWords, List.length_append, after_add]
  generalize m.after popWords.length = m' at *
  have hnine : (0 : UInt32) ||| UInt16.toUInt32 9 = 9 := rfl
  cases a with
  | array =>
      obtain ⟨hnext₁, hok₁, hnext₂, hok₂, -⟩ := hrest
      have h₁ : m'.Sets a0 (m'.regs.get a0 <<< 2) :=
        sets_of_next hnext₁ hok₁ (o := .sll) (by decide) rfl
      have h₂ : m'.step.1.Sets v0 (m'.step.1.regs.get zero ||| UInt16.toUInt32 9) :=
        sets_of_next hnext₂ hok₂ (o := .ori) (by decide) rfl
      show m'.step.1.step.1.regs.get v0 = 9 ∧ m'.step.1.step.1.regs.get a0 = _
      refine ⟨?_, ?_⟩
      · rw [h₂.get_same (by decide), h₁.get_other (by decide), hkeeps, hnine]
      · rw [h₂.get_other (by decide), h₁.get_same (by decide), hcount]
        apply UInt32.toNat_inj.1
        rw [UInt32.toNat_shiftLeft, UInt32.toNat_ofNat', Nat.shiftLeft_eq, Nat.mul_comm]
        rfl
  | string =>
      obtain ⟨hnext, hok, -⟩ := hrest
      have h : m'.Sets v0 (m'.regs.get zero ||| UInt16.toUInt32 9) :=
        sets_of_next hnext hok (o := .ori) (by decide) rfl
      show m'.step.1.regs.get v0 = 9 ∧ m'.step.1.regs.get a0 = _
      refine ⟨?_, ?_⟩
      · rw [h.get_same (by decide), hkeeps, hnine]
      · rw [h.get_other (by decide), hcount, Allocation.unit, Nat.one_mul, UInt32.ofNat_toNat]

/-- The heap is extended, and its former end is the result. -/
theorem step_serveWord (hv0 : m.regs.get v0 = 9) (hnext : m.next? = some serveWord)
    (hok : m.step.2 = none) :
    m.step.1.regs.get v0 = m.heapEnd ∧ m.grown = ((m.regs.get a0).toNat + 3) / 4 * 4 := by
  have hasked : m.asked = some .extendHeap := by rw [asked, hv0]; rfl
  have ho : ofFields? (ofWord serveWord) = some .syscall := by decide
  refine ⟨?_, ?_⟩
  · rw [step_of_next hnext hok ho, perform_syscall hasked]
    exact (Registers.get_put _ _ _ _).trans (if_pos ⟨rfl, by decide⟩)
  · simp only [grown, hnext, ho, hasked, and_self, if_true]

end Parts

theorem requested_of_silent {m : Machine} {ws : List UInt32} (h : m.CarriesOut ws)
    (hws : ∀ w ∈ ws, ofFields? (ofWord w) ≠ some .syscall) : m.requested ws.length = 0 := by
  induction ws generalizing m with
  | nil => rfl
  | cons w ws ih =>
      obtain ⟨hnext, -, hrest⟩ := h
      have hgrown : m.requested 1 = 0 := by
        have := hws w List.mem_cons_self
        simp [requested, after, grown, hnext, this]
      rw [List.length_cons, Nat.add_comm, requested_add, hgrown]
      exact (Nat.zero_add _).trans (ih hrest fun w' hw' => hws w' (List.mem_cons_of_mem w hw'))

theorem words_silent (a : Allocation) : ∀ w ∈ a.requestWords ++ pushWords,
    ofFields? (ofWord w) ≠ some .syscall := by
  have hall : ((a.requestWords ++ pushWords).all fun w =>
      ofFields? (ofWord w) != some .syscall) = true := by
    cases a <;> decide
  exact fun w hw => bne_iff_ne.1 (List.all_eq_true.1 hall w hw)

/-- **What an allocation does**: it takes a number of elements off the stack and pushes the former
end of the heap, which is then extended by the bytes of the elements in whole words. -/
theorem carriesOut_words {m : Machine} {a : Allocation} (hzero : m.regs.get zero = 0)
    (h : m.CarriesOut a.words) :
    (m.after a.words.length).topCell = m.heapEnd ∧
      m.requested a.words.length = (a.unit * m.topCell.toNat % 2 ^ 32 + 3) / 4 * 4 := by
  obtain ⟨hrequest, hserve, hok, hpush⟩ := carriesOut_append.1 h
  obtain ⟨hv0, ha0⟩ := carriesOut_requestWords hzero hrequest
  obtain ⟨hresult, hgrown⟩ := step_serveWord hv0 hserve hok
  have hsilent := words_silent a
  have hbefore := requested_of_silent hrequest fun w hw => hsilent w (List.mem_append_left _ hw)
  have hbehind := requested_of_silent hpush fun w hw => hsilent w (List.mem_append_right _ hw)
  have hlength : a.words.length = a.requestWords.length + 1 + pushWords.length := by
    rw [Allocation.words, List.length_append, List.length_cons]
    omega
  rw [hlength, after_add, after_add]
  refine ⟨?_, ?_⟩
  · have hend := m.heapEnd_after a.requestWords.length
    rw [hbefore, Nat.add_zero, UInt32.ofNat_toNat] at hend
    exact (carriesOut_pushWords hpush).trans (hresult.trans hend)
  · rw [requested_add, requested_add, hbefore, after_add]
    show 0 + (m.after a.requestWords.length).requested 1 + (m.after _).step.1.requested _ = _
    rw [hbehind, requested, Finset.sum_range_one, after, Function.iterate_zero, id, hgrown, ha0,
      UInt32.toNat_ofNat', Nat.zero_add]
    rfl

end Machine

/-! ### Lines of one word -/

theorem Assembly.Image.Holds.append {image : Assembly.Image} {k : Nat} {ws ws' : List UInt32}
    (h : image.Holds k ws) (h' : image.Holds (k + ws.length) ws') : image.Holds k (ws ++ ws') := by
  obtain ⟨before, behind, hsplit, rfl⟩ := h
  obtain ⟨before', behind', hsplit', hlength⟩ := h'
  have hbefore : before ++ ws = before' := by
    have := hsplit.symm.trans hsplit'
    rw [List.append_assoc before' ] at this
    exact (List.append_inj this (by rw [List.length_append, hlength])).1
  refine ⟨before, behind', ?_, rfl⟩
  rw [hsplit', ← hbefore, List.append_assoc before ws ws']

namespace Listing

open Assembly (Laid)

/-- A line of one word, wherever it stands and whatever the labels are. -/
def OneWord (line : Line) (w : UInt32) : Prop :=
  ∃ mn os, line = .code mn os ∧ (∀ o ∈ os, o.Plain) ∧
    (∀ elide known, mn.size elide known (os.flatMap Operand.words) = .ok 1) ∧
    ∀ labels pc, mn.encode labels pc 1 (os.flatMap Operand.words) = .ok [w]

/-- Lines of one word, one behind the other, have these words in an image. -/
theorem laid_words {elide : Bool} {image : Assembly.Image} {lines : List Line} {ws : List UInt32}
    (h : List.Forall₂ OneWord lines ws) {k j : Nat}
    (hlaid : Laid elide image k (lines.map Line.render) j) (hj : j ≤ image.words.size) :
    image.Holds k ws := by
  induction h generalizing k with
  | nil =>
      obtain rfl : k = j := hlaid
      exact ⟨image.words.toList.take k, image.words.toList.drop k, by simp,
        List.length_take_of_le hj⟩
  | @cons line w lines ws hline _ ih =>
      obtain ⟨mn, os, rfl, hplain, hsize, hencode⟩ := hline
      obtain ⟨ws', hcode, hrest⟩ := laid_code hlaid hplain
      obtain ⟨known, hsized⟩ := hcode.sized
      have hone : ws'.length = 1 := Except.ok.inj (hsized.symm.trans (hsize _ _))
      have hencoded := hcode.encoded
      rw [hone, hencode] at hencoded
      obtain rfl := Except.ok.inj hencoded
      exact hcode.holds.append (ih hrest)

end Listing

/-! ### The words of allocations in an image -/

namespace Allocation

open Listing Lowering.Mips

/-- The lines of an allocation. -/
def lines (a : Allocation) : List Line :=
  popLines a0 ++ (match a with | array => byFour a0 | string => []) ++
    [.loadNumber v0 Service.extendHeap.number, .serve] ++ pushLines 8 v0

/-- **The lines of an allocation have its words.** -/
theorem lines_words (a : Allocation) : List.Forall₂ OneWord a.lines a.words := by
  have hpop : List.Forall₂ OneWord (popLines a0) popWords := by
    iterate 3 refine .cons ⟨_, _, rfl, by decide, fun _ _ => rfl, fun _ _ => rfl⟩ ?_
    exact .nil
  have hrest : List.Forall₂ OneWord
      ([Line.loadNumber v0 Service.extendHeap.number, Line.serve] ++ pushLines 8 v0)
      (Operation.ori.immediateWord zero v0 9 :: serveWord :: pushWords) := by
    iterate 5 refine .cons ⟨_, _, rfl, by decide, fun _ _ => rfl, fun _ _ => rfl⟩ ?_
    exact .nil
  cases a with
  | array =>
      have hscale : OneWord (Line.immediate .sll a0 a0 2)
          (Operation.sll.registerWord zero a0 a0 2) :=
        ⟨_, _, rfl, by decide, fun _ _ => rfl, fun _ _ => rfl⟩
      exact List.rel_append hpop (.cons hscale hrest)
  | string => exact List.rel_append hpop hrest

theorem operation_lines (a : Allocation) (c : Context) (offset : Nat) {ins : Instruction}
    (hop : ins.op = a.op) : (operation c offset ins).lines = .ok a.lines := by
  cases a with
  | array => rw [operation, hop]; rfl
  | string => rw [operation, hop]; rfl

/-- **An instruction that allocates has the words of the allocation**, under its label. -/
theorem holds_words {p : Program} {s : Settings} {out : Output} {elide : Bool}
    {image : Assembly.Image} (hlower : lower p s = .ok out)
    (himage : Assembly.assemble elide (out.lines.map Line.render) = .ok image) {a : Allocation}
    {ins : Instruction} {offset : Nat}
    (hmem : (ins, offset) ∈ p.instructions.zip (Instruction.offsets p.instructions))
    (hop : ins.op = a.op) :
    ∃ k, image.labels[(Label.start offset).render]? = some (Assembly.addressOf k) ∧
      image.Holds k a.words := by
  have hordinary : Ordinary ins := ordinary_of_op hop (by cases a <;> decide)
  obtain ⟨fs, ls, k, j, -, hdraft, hlaid, hj⟩ := instruction_lines hlower himage hmem hordinary
  rw [draft, operation_lines a _ _ hop] at hdraft
  obtain rfl := Except.ok.inj hdraft
  obtain ⟨hlabel, hlaid⟩ := laid_place hlaid
  exact ⟨k, hlabel, laid_words a.lines_words hlaid hj⟩

end Allocation

namespace Machine

/-- The words of an allocation are carried out from step `t` on, and all of them before step `T`. -/
def Allocates (m : Machine) (T : Nat) (a : Allocation) (t : Nat) : Prop :=
  (m.after t).CarriesOut a.words ∧ t + a.words.length ≤ T

/-- The number of elements that an allocation at step `t` takes off the stack. -/
def countAt (m : Machine) (t : Nat) : Nat := (m.after t).topCell.toNat

/-- The address that an allocation gives. -/
def addressAt (m : Machine) (a : Allocation) (t : Nat) : Nat :=
  (m.after (t + a.words.length)).topCell.toNat

/-- The addresses of its block. -/
def block (m : Machine) (a : Allocation) (t : Nat) : Set Nat :=
  Set.Ico (m.addressAt a t) (m.addressAt a t + a.unit * m.countAt t)

variable {m : Machine} {w : UInt32}

theorem next?_of_carriesOut {ws : List UInt32} (h : m.CarriesOut ws) {i : Nat}
    (hw : ws[i]? = some w) : (m.after i).next? = some w := by
  induction ws generalizing m i with
  | nil => cases hw
  | cons w' ws ih =>
      cases i with
      | zero => exact h.1.trans hw
      | succ i => exact ih h.2.2 hw

/-- An allocation begins with a word that it has nowhere else. -/
theorem words_first (a a' : Allocation) {i : Nat} (hw : a.words[i + 1]? = some w) :
    a'.words[0]? ≠ some w := by
  have hfirst : (a.words.tail.all fun w => a'.words[0]? != some w) = true := by
    cases a <;> cases a' <;> decide
  rw [← List.getElem?_tail] at hw
  exact bne_iff_ne.1 (List.all_eq_true.1 hfirst w (List.mem_of_getElem? hw))

/-- Of two allocations one is over when the other begins. -/
theorem Allocates.apart {T t t' : Nat} {a a' : Allocation} (h : m.Allocates T a t)
    (h' : m.Allocates T a' t') (hlt : t < t') : t + a.words.length ≤ t' := by
  by_contra hgt
  obtain ⟨i, rfl⟩ : ∃ i, t' = t + (i + 1) := ⟨t' - t - 1, by omega⟩
  have hi : i + 1 < a.words.length := by omega
  have hnext := next?_of_carriesOut h.1 (List.getElem?_eq_getElem hi)
  have hfirst : 0 < a'.words.length := by cases a' <;> decide
  have hnext' := next?_of_carriesOut h'.1 (List.getElem?_eq_getElem hfirst)
  rw [after_add] at hnext'
  exact words_first a a' (List.getElem?_eq_getElem hi)
    ((List.getElem?_eq_getElem hfirst).trans (hnext'.symm.trans hnext))

/-- Where the block of an allocation lies: behind all that was asked for before it, and before all
that is asked for after it. -/
theorem Allocates.place {T t : Nat} {a : Allocation} (h : m.Allocates T a t)
    (hzero : m.regs.get zero = 0) (hroom : m.heapEnd.toNat + m.requested T < 2 ^ 32)
    (hcount : a.unit * m.countAt t < 2 ^ 32) :
    m.addressAt a t = m.heapEnd.toNat + m.requested t ∧
      m.addressAt a t + a.unit * m.countAt t ≤
        m.heapEnd.toNat + m.requested (t + a.words.length) := by
  have hzero' : (m.after t).regs.get zero = 0 := (m.keeps_after t).zero.trans hzero
  obtain ⟨hpushed, hgrown⟩ := carriesOut_words hzero' h.1
  have hmono := m.requested_mono (Nat.le_trans (Nat.le_add_right t a.words.length) h.2)
  have haddress : m.addressAt a t = m.heapEnd.toNat + m.requested t := by
    rw [addressAt, after_add, hpushed, heapEnd_after, UInt32.toNat_ofNat',
      Nat.mod_eq_of_lt (show _ < 2 ^ 32 by omega)]
  refine ⟨haddress, ?_⟩
  rw [requested_add, hgrown, haddress]
  change a.unit * (m.after t).topCell.toNat < 2 ^ 32 at hcount
  rw [Nat.mod_eq_of_lt hcount, countAt]
  omega

/-- **The blocks of a run are disjoint.**  The instructions that allocate have the words of
allocations, under their labels.  In a run of any words that does not extend the heap over the last
address, each allocation whose bytes can be counted in a word gets a block in the heap, and the
blocks of two such allocations have no byte in common. -/
theorem blocks_disjoint (a : Allocation) :
    (∀ (p : Program) (s : Settings) (elide : Bool) (out : Lowering.Mips.Output)
      (image : Assembly.Image), Lowering.Mips.lower p s = .ok out →
      Assembly.assemble elide (out.lines.map Listing.Line.render) = .ok image →
      ∀ (ins : Instruction) (offset : Nat),
        (ins, offset) ∈ p.instructions.zip (Instruction.offsets p.instructions) → ins.op = a.op →
        ∃ k, image.labels[(Listing.Label.start offset).render]? = some (Assembly.addressOf k) ∧
          image.Holds k a.words) ∧
    ∀ (words : Array UInt32) (trap : Bool) (T : Nat),
      let m := { ofWords words with trapOverflow := trap }
      heapBase.toNat + m.requested T < 2 ^ 32 →
      ∀ t : Nat, m.Allocates T a t → a.unit * m.countAt t < 2 ^ 32 →
        heapBase.toNat ≤ m.addressAt a t ∧
        ∀ (a' : Allocation) (t' : Nat), m.Allocates T a' t' → a'.unit * m.countAt t' < 2 ^ 32 →
          t ≠ t' → Disjoint (m.block a t) (m.block a' t') := by
  refine ⟨fun p s elide out image hlower himage ins offset hmem hop =>
    Allocation.holds_words hlower himage hmem hop, ?_⟩
  intro words trap T m hroom t h hcount
  have hplace := h.place rfl hroom hcount
  refine ⟨hplace.1 ▸ Nat.le_add_right _ _, ?_⟩
  intro a' t' h' hcount' hne
  have hplace' := h'.place rfl hroom hcount'
  -- the earlier block ends where the heap ended when the later allocation began, or before
  rcases Nat.lt_or_gt_of_ne hne with hlt | hgt
  · have hmono := m.requested_mono (h.apart h' hlt)
    exact Set.Ico_disjoint_Ico.2 (by omega)
  · have hmono := m.requested_mono (h'.apart h hgt)
    exact Set.Ico_disjoint_Ico.2 (by omega)

/-! ### Two arrays -/

/-- Words that push a number, which the first of them puts into a register, and allocate an array of
so many elements. -/
def arrayWords (w : UInt32) : List UInt32 := w :: Allocation.pushWords ++ Allocation.array.words

theorem carriesOut_arrayWords (hzero : m.regs.get zero = 0)
    (hw : ofFields? (ofWord w) ≠ some .syscall) (h : m.CarriesOut (arrayWords w)) :
    (m.after 4).CarriesOut Allocation.array.words ∧ (m.after 4).topCell = m.step.1.regs.get v0 ∧
      m.requested 4 = 0 ∧
      m.requested 13 = (4 * (m.step.1.regs.get v0).toNat % 2 ^ 32 + 3) / 4 * 4 := by
  obtain ⟨hpush, harray⟩ := carriesOut_append.1 h
  have hcount : (m.after 4).topCell = m.step.1.regs.get v0 := carriesOut_pushWords hpush.2.2
  have hsilent : m.requested 4 = 0 := by
    refine requested_of_silent hpush fun w' hw' => ?_
    rcases List.mem_cons.1 hw' with rfl | hw'
    · exact hw
    · exact words_silent .array w' (List.mem_append_right _ hw')
  have hgrown := (carriesOut_words ((m.keeps_after 4).zero.trans hzero) harray).2
  rw [hcount] at hgrown
  refine ⟨harray, hcount, hsilent, ?_⟩
  calc m.requested (4 + 9)
      = m.requested 4 + (m.after 4).requested 9 := m.requested_add 4 9
    _ = (m.after 4).requested 9 := by rw [hsilent, Nat.zero_add]
    _ = (4 * (m.step.1.regs.get v0).toNat % 2 ^ 32 + 3) / 4 * 4 := hgrown

/-- Two allocations of arrays. -/
def twoArrays (w w' : UInt32) : Machine := ofWords (arrayWords w ++ arrayWords w').toArray

theorem twoArrays_allocates (w w' n n' : UInt32) (hw : ofFields? (ofWord w) ≠ some .syscall)
    (hw' : ofFields? (ofWord w') ≠ some .syscall)
    (h : (twoArrays w w').CarriesOut (arrayWords w ++ arrayWords w'))
    (hn : (twoArrays w w').step.1.regs.get v0 = n)
    (hn' : ((twoArrays w w').after 13).step.1.regs.get v0 = n') :
    (twoArrays w w').Allocates 26 .array 4 ∧ (twoArrays w w').countAt 4 = n.toNat ∧
      (twoArrays w w').Allocates 26 .array 17 ∧ (twoArrays w w').countAt 17 = n'.toNat ∧
      (twoArrays w w').requested 4 = 0 ∧
      (twoArrays w w').requested 17 = (4 * n.toNat % 2 ^ 32 + 3) / 4 * 4 ∧
      (twoArrays w w').requested 26 =
        (4 * n.toNat % 2 ^ 32 + 3) / 4 * 4 + (4 * n'.toNat % 2 ^ 32 + 3) / 4 * 4 := by
  obtain ⟨h₁, h₂⟩ := carriesOut_append.1 h
  obtain ⟨harray, hcount, hfour, hrequested⟩ := carriesOut_arrayWords rfl hw h₁
  obtain ⟨harray', hcount', hfour', hrequested'⟩ :=
    carriesOut_arrayWords (((twoArrays w w').keeps_after 13).zero.trans rfl) hw' h₂
  rw [← hn, ← hn']
  refine ⟨⟨harray, by decide⟩, congrArg UInt32.toNat hcount, ⟨harray', by decide⟩,
    congrArg UInt32.toNat hcount', hfour, ?_, ?_⟩
  · exact ((twoArrays w w').requested_add 13 4).trans (by rw [hrequested, hfour', Nat.add_zero])
  · exact ((twoArrays w w').requested_add 13 13).trans (by rw [hrequested, hrequested'])

/-- A program with one allocation. -/
def arraySample : Program := ⟨[⟨.newarray, [], []⟩], 1⟩

theorem arraySample_assembled :
    ∃ out image, Lowering.Mips.lower arraySample {} = .ok out ∧
      Assembly.assemble true (out.lines.map Listing.Line.render) = .ok image := by
  obtain ⟨fs, hfs⟩ := isOk_iff.1 (show
    (Lowering.Functions.ofList arraySample.instructions true).isOk = true by decide +kernel)
  have hdraft : Lowering.Mips.draft ⟨Lowering.Frame.ofProgram arraySample {}, fs⟩ 0
      ⟨.newarray, [], []⟩ = .ok (.place 0 ⟨.newarray, [], []⟩ :: Allocation.array.lines) := by
    rw [Lowering.Mips.draft, Allocation.operation_lines .array _ _ rfl]
    rfl
  obtain ⟨out, hlower, hshort⟩ := lower_short (p := arraySample) rfl hfs
    (List.forall_mem_singleton.2 ⟨_, hdraft, by decide⟩) (by decide)
  obtain ⟨image, himage⟩ :=
    assembles_short (by decide) (by unfold Lowering.Mips.Placeable; decide) hlower hshort
  exact ⟨out, image, hlower, himage⟩

/-- Arrays of three and of five elements lie apart. -/
theorem blocks_disjoint_pair :
    let m := twoArrays (Operation.ori.immediateWord zero v0 3)
      (Operation.ori.immediateWord zero v0 5)
    (∃ out image k, Lowering.Mips.lower arraySample {} = .ok out ∧
      Assembly.assemble true (out.lines.map Listing.Line.render) = .ok image ∧
      image.labels[(Listing.Label.start 0).render]? = some (Assembly.addressOf k) ∧
      image.Holds k Allocation.array.words) ∧
    (heapBase.toNat + m.requested 26 < 2 ^ 32 ∧ m.Allocates 26 .array 4 ∧ m.countAt 4 = 3 ∧
      m.Allocates 26 .array 17 ∧ m.countAt 17 = 5) ∧
    heapBase.toNat ≤ m.addressAt .array 4 ∧ Disjoint (m.block .array 4) (m.block .array 17) := by
  intro m
  obtain ⟨hgenerated, hruns⟩ := blocks_disjoint .array
  obtain ⟨out, image, hlower, himage⟩ := arraySample_assembled
  obtain ⟨k, hlabel, hholds⟩ :=
    hgenerated arraySample {} true out image hlower himage ⟨.newarray, [], []⟩ 0 (by decide) rfl
  obtain ⟨h, hcount, h', hcount', -, -, hrequested⟩ :=
    twoArrays_allocates (Operation.ori.immediateWord zero v0 3)
      (Operation.ori.immediateWord zero v0 5) 3 5 (by decide) (by decide) (by decide +kernel)
      (by decide +kernel) (by decide +kernel)
  have hroom : heapBase.toNat + m.requested 26 < 2 ^ 32 := by
    rw [hrequested]
    decide
  have hsmall : Allocation.array.unit * m.countAt 4 < 2 ^ 32 := by rw [hcount]; decide
  have hsmall' : Allocation.array.unit * m.countAt 17 < 2 ^ 32 := by rw [hcount']; decide
  obtain ⟨hbase, hdisjoint⟩ := hruns _ false 26 hroom 4 h hsmall
  exact ⟨⟨out, image, k, hlower, himage, hlabel, hholds⟩, ⟨hroom, h, hcount, h', hcount'⟩, hbase,
    hdisjoint .array 17 h' hsmall' (by decide)⟩

/-- **An array of 2^30 elements has no room of its own.**  The number of its bytes does not fit into
a word, so nothing is asked for, and the next array has the same address. -/
theorem blocks_overlap :
    let m := twoArrays (Operation.lui.immediateWord zero v0 0x4000)
      (Operation.ori.immediateWord zero v0 1)
    (m.Allocates 26 .array 4 ∧ m.countAt 4 = 2 ^ 30 ∧ m.Allocates 26 .array 17 ∧
      m.countAt 17 = 1) ∧
    m.addressAt .array 4 = heapBase.toNat ∧ m.addressAt .array 17 = heapBase.toNat ∧
      ¬ Disjoint (m.block .array 4) (m.block .array 17) := by
  intro m
  obtain ⟨h, hcount, h', hcount', hstart, hnone, -⟩ :=
    twoArrays_allocates (Operation.lui.immediateWord zero v0 0x4000)
      (Operation.ori.immediateWord zero v0 1) 0x40000000 1 (by decide) (by decide)
      (by decide +kernel) (by decide +kernel) (by decide +kernel)
  have hat : ∀ {t}, m.Allocates 26 .array t → m.requested t = 0 →
      m.addressAt .array t = heapBase.toNat := by
    intro t ht hzero
    have hpushed := (carriesOut_words ((m.keeps_after t).zero.trans rfl) ht.1).1
    rw [addressAt, after_add, hpushed, heapEnd_after, hzero, Nat.add_zero, UInt32.ofNat_toNat]
    rfl
  have haddress := hat h hstart
  have haddress' := hat h' hnone
  refine ⟨⟨h, hcount, h', hcount'⟩, haddress, haddress', Set.not_disjoint_iff.2 ?_⟩
  refine ⟨heapBase.toNat, ?_, ?_⟩
  · rw [block, haddress, hcount]
    exact ⟨Nat.le_refl _, by decide⟩
  · rw [block, haddress', hcount']
    exact ⟨Nat.le_refl _, by decide⟩

end Machine

end StackCompiler
