/-
**The lines of instructions without calls.**

A state of the plain stack machine is kept in a frame: the cells of its stack in the operand stack,
its local variables in the slots, what it printed in the output.  The lines of an instruction turn a
frame that holds a state into one that holds the next.

* `PlainMachine.actLines_run` — **the lines of an instruction do what it does**.
-/

import StackCompiler.Proofs.LoweredLines
import StackCompiler.Proofs.PlainMachine

namespace StackCompiler.PlainMachine

open Listing Lowering
open Assembly (Labels)
open UInt32 (ofNat)
open Lowering.Mips (popLines pushLines popLines_run pushLines_run Free draft Context operation)
open Register (zero v0 a0 s0 s1 fp)
open Listing.Core (get_set_other get_set_same get_store memory_set memory_store output_set
  output_store)

/-! ### A state in a frame -/

/-- The cells of a stack are in memory, the lowest one at `B`. -/
def Cells (B : Nat) (m : Memory) : List Int32 → Prop
  | [] => True
  | v :: rest => m.loadWord (ofNat (B + 4 * rest.length)) = v.toUInt32 ∧ Cells B m rest

theorem Cells.sameOutside {B lo hi : Nat} {m m' : Memory} {stack : List Int32} (h : Cells B m stack)
    (hsame : Memory.SameOutside lo hi m m') (hhigh : B + 4 * stack.length ≤ 2 ^ 32)
    (hout : B + 4 * stack.length ≤ lo ∨ hi ≤ B) : Cells B m' stack := by
  induction stack with
  | nil => trivial
  | cons v rest ih =>
      rw [List.length_cons] at hhigh hout
      exact ⟨(hsame.loadWord (by omega) (by omega)).trans h.1, ih h.2 (by omega) (by omega)⟩

/-- What is put out for printed numbers. -/
def printedLines (printed : List Int32) : Text :=
  printed.flatMap fun v => Numeral.signed v.toInt ++ [10]

/-- **The frame at `F`, with `L` slots, holds a state.** -/
structure Holds (L F : Nat) (s : State) (c : Core) : Prop where
  zero : c.get 0 = 0
  pointer : c.get fp = ofNat F
  base : c.get s0 = ofNat (F + 16 + 4 * L)
  offset : c.get s1 = ofNat (4 * s.stack.length)
  cells : Cells (F + 16 + 4 * L) c.memory s.stack
  slots : ∀ n < L, c.memory.loadWord (ofNat (F + 16 + 4 * n)) = (s.locals n).toUInt32
  output : c.output.toList = printedLines s.printed

/-- A register that holds nothing between instructions. -/
def Scratch (r : Register) : Prop := Free r ∧ r ≠ fp

instance (r : Register) : Decidable (Scratch r) := inferInstanceAs (Decidable (_ ∧ _))

variable {L F D : Nat} {s : State} {c : Core} {labels : Labels}

namespace Holds

/-- Only four registers, memory and the output matter. -/
theorem of_same {c' : Core} (h : Holds L F s c) (hregs : ∀ r ∈ [0, fp, s0, s1], c'.get r = c.get r)
    (hmemory : c'.memory = c.memory) (houtput : c'.output = c.output) : Holds L F s c' := by
  simp only [List.forall_mem_cons] at hregs
  obtain ⟨hzero, hfp, hs0, hs1, -⟩ := hregs
  exact ⟨hzero.trans h.zero, hfp.trans h.pointer, hs0.trans h.base, hs1.trans h.offset,
    by rw [hmemory]; exact h.cells, by rw [hmemory]; exact h.slots, by rw [houtput]; exact h.output⟩

theorem set (h : Holds L F s c) {r : Register} (hr : Scratch r) (v : UInt32) :
    Holds L F s (c.set r v) := by
  obtain ⟨⟨⟨hzero, -⟩, hs0, hs1⟩, hfp⟩ := hr
  refine h.of_same ?_ rfl rfl
  simp only [List.forall_mem_cons]
  exact ⟨get_set_other _ _ hzero.symm, get_set_other _ _ hfp.symm,
    get_set_other _ _ hs0.symm, get_set_other _ _ hs1.symm, List.forall_mem_nil _⟩

/-- **Popping** into a register. -/
theorem pop (h : Holds L F s c) (hF : F % 4 = 0) (labels : Labels) {r : Register}
    (hr : Scratch r) {a : Int32} {rest : List Int32} (hstack : s.stack = a :: rest) :
    ∃ c', straight labels (popLines r) c = some c' ∧ Holds L F { s with stack := rest } c' ∧
      c'.get r = a.toUInt32 ∧ ∀ r', r' ≠ r → r' ≠ s1 → c'.get r' = c.get r' := by
  have hoffset := h.offset
  have hcells := h.cells
  rw [hstack] at hoffset hcells
  obtain ⟨c', hrun, hvalue, hs1, hregs, hmemory, houtput⟩ :=
    popLines_run labels hr.1 (by omega) h.base hoffset
  obtain ⟨⟨⟨hzero, -⟩, hs0, -⟩, hfp⟩ := hr
  refine ⟨c', hrun, ⟨?_, ?_, ?_, hs1, ?_, ?_, ?_⟩, hvalue.trans hcells.1, hregs⟩
  · rw [hregs 0 hzero.symm (by decide), h.zero]
  · rw [hregs fp hfp.symm (by decide), h.pointer]
  · rw [hregs s0 hs0.symm (by decide), h.base]
  · rw [hmemory]
    exact hcells.2
  · rw [hmemory]
    exact h.slots
  · rw [houtput]
    exact h.output

/-- A word behind the last cell, which becomes a cell. -/
theorem stored (h : Holds L F s c) (hhigh : F + 16 + 4 * L + 4 * D ≤ 2 ^ 32)
    (hroom : s.stack.length < D) {v : Int32} {c' : Core}
    (hregs : ∀ r ∈ [0, fp, s0], c'.get r = c.get r)
    (hs1 : c'.get s1 = ofNat (4 * (s.stack.length + 1)))
    (hmemory : c'.memory = c.memory.storeWord
      (ofNat (F + 16 + 4 * L + 4 * s.stack.length)) v.toUInt32)
    (houtput : c'.output = c.output) : Holds L F { s with stack := v :: s.stack } c' := by
  simp only [List.forall_mem_cons] at hregs
  obtain ⟨hzero, hfp, hs0, -⟩ := hregs
  have hsame := Memory.sameOutside_storeWord c.memory v.toUInt32
    (x := F + 16 + 4 * L + 4 * s.stack.length) (by omega)
  rw [← hmemory] at hsame
  refine ⟨hzero.trans h.zero, hfp.trans h.pointer, hs0.trans h.base, hs1, ⟨?_, ?_⟩, ?_, ?_⟩
  · rw [hmemory, Memory.loadWord_storeWord]
  · exact h.cells.sameOutside hsame (by omega) (Or.inl (Nat.le_refl _))
  · exact fun n hn => (hsame.loadWord (by omega) (by omega)).trans (h.slots n hn)
  · rw [houtput]
    exact h.output

/-- **Pushing** a register. -/
theorem push (h : Holds L F s c) (hF : F % 4 = 0) (hhigh : F + 16 + 4 * L + 4 * D ≤ 2 ^ 32)
    (hroom : s.stack.length < D) (labels : Labels) {a r : Register} (ha : Scratch a)
    (har : r ≠ a) {v : Int32} (hv : c.get r = v.toUInt32) :
    ∃ c', straight labels (pushLines a r) c = some c' ∧
      Holds L F { s with stack := v :: s.stack } c' := by
  obtain ⟨c', hrun, hs1, hregs, hmemory, houtput⟩ :=
    pushLines_run labels ha.1 har (by omega) h.base h.offset
  obtain ⟨⟨⟨hzero, -⟩, hs0, -⟩, hfp⟩ := ha
  refine ⟨c', hrun, h.stored hhigh hroom ?_ hs1 (by rw [hmemory, hv]) houtput⟩
  simp only [List.forall_mem_cons]
  exact ⟨hregs 0 hzero.symm (by decide), hregs fp hfp.symm (by decide),
    hregs s0 hs0.symm (by decide), List.forall_mem_nil _⟩

end Holds

/-! ### The lines of instructions -/

/-- The lines that compute with two cells, the lower one in register 9. -/
def middleLines : Op → List Line
  | .iadd => [.registers3 .addu 9 9 8]
  | .isub => [.registers3 .subu 9 9 8]
  | .imul => [.registers2 .mult 9 8, .code (.operation .mflo) [.register 9]]
  | .idiv => [.registers2 .div 9 8, .code (.operation .mflo) [.register 9]]
  | .ilt => [.registers3 .slt 9 9 8]
  | .igt => [.registers3 .slt 9 8 9]
  | .ieq => [.code .seq [.register 9, .register 9, .register 8]]
  | .and => [.registers3 .and 9 9 8]
  | .or => [.registers3 .or 9 9 8]
  | .xor => [.registers3 .xor 9 9 8]
  | .shl => [.registers3 .sllv 9 9 8]
  | .shr => [.registers3 .srav 9 9 8]
  | _ => []

/-- Where the slot of an instruction is. -/
def slotOf (ins : Instruction) : Int := (Frame.localOffset (Int64.ofNat (ins.half 0))).toInt

/-- **The lines of an instruction** that neither jumps nor returns. -/
def actLines (ins : Instruction) : List Line :=
  match ins.op with
  | .iconst => .loadNumber 8 (ins.operand 0).toInt :: pushLines 9 8
  | .not => popLines 8 ++ .immediate .sltiu 8 8 1 :: pushLines 9 8
  | .dup => [.registers3 .addu 8 s0 s1, .access .lw 9 (-4) 8, .access .sw 9 0 8,
      .immediate .addiu s1 s1 4]
  | .swap => [.registers3 .addu 8 s0 s1, .access .lw 9 (-4) 8, .access .lw 10 (-8) 8,
      .access .sw 9 (-8) 8, .access .sw 10 (-4) 8]
  | .pop => [.immediate .addiu s1 s1 (-4)]
  | .load => .access .lw 8 (slotOf ins) fp :: pushLines 9 8
  | .store => popLines 8 ++ [.access .sw 8 (slotOf ins) fp]
  | .print => popLines a0 ++ [.loadNumber v0 Service.printNumber.number, .serve, .loadNumber a0 10,
      .loadNumber v0 Service.printCharacter.number, .serve]
  | o => popLines 8 ++ (popLines 9 ++ (middleLines o ++ pushLines 10 9))

variable {ins : Instruction}

theorem actLines_binary {f : Int32 → Int32 → Int32} (hf : binary? ins.op = some f) :
    actLines ins = popLines 8 ++ (popLines 9 ++ (middleLines ins.op ++ pushLines 10 9)) := by
  unfold actLines
  cases hop : ins.op <;> rw [hop] at hf <;> first | rfl | cases hf

/-- The slot of an instruction exists. -/
def HasSlot (L : Nat) (ins : Instruction) : Prop :=
  ins.op = .load ∨ ins.op = .store → ins.half 0 < L

/-! ### What the lines do -/

theorem middle_set {o : Operation} {d t : Register} {v : UInt32} {w : Int32} (h : Holds L F s c)
    (hrun : Listing.binary? o (c.get d) (c.get t) = some v) (hv : v = w.toUInt32) :
    ∃ c', straight labels [.registers3 o 9 d t] c = some c' ∧ Holds L F s c' ∧
      c'.get 9 = w.toUInt32 := by
  refine ⟨c.set 9 v, ?_, h.set (by decide) v, ?_⟩
  · simp only [Line.registers3, straight, Line.run, runCode, runOperation, hrun, Option.map_some]
  · rw [get_set_same _ _ (by decide), hv]

theorem middle_double {o : Operation} {v : UInt32 × UInt32} {w : Int32} (h : Holds L F s c)
    (hrun : double? o (c.get 9) (c.get 8) = some v) (hv : v.2 = w.toUInt32) :
    ∃ c', straight labels [.registers2 o 9 8, .code (.operation .mflo) [.register 9]] c = some c' ∧
      Holds L F s c' ∧ c'.get 9 = w.toUInt32 := by
  have h' : Holds L F s (c.setHalves v) := h.of_same (fun _ _ => rfl) rfl rfl
  refine ⟨(c.setHalves v).set 9 v.2, ?_, h'.set (by decide) v.2, ?_⟩
  · simp only [Line.registers2, straight, Line.run, runCode, runOperation, hrun, Option.map_some,
      single?, Core.lo_setHalves]
  · rw [get_set_same _ _ (by decide), hv]

theorem middleLines_run (labels : Labels) {o : Op} {f : Int32 → Int32 → Int32}
    {a b : Int32} (hf : binary? o = some f) (h : Holds L F s c) (h9 : c.get 9 = a.toUInt32)
    (h8 : c.get 8 = b.toUInt32) :
    ∃ c', straight labels (middleLines o) c = some c' ∧ Holds L F s c' ∧
      c'.get 9 = (f a b).toUInt32 := by
  cases o with
  | iadd =>
      cases hf
      exact middle_set h rfl (by rw [h9, h8, sum_word])
  | isub =>
      cases hf
      exact middle_set h rfl (by rw [h9, h8, difference_word])
  | imul =>
      cases hf
      exact middle_double h rfl (by rw [h9, h8]; exact product_word a b)
  | idiv =>
      cases hf
      exact middle_double h rfl (by rw [h9, h8]; exact quotient_word a b)
  | ilt | igt =>
      cases hf
      exact middle_set h rfl (by rw [h9, h8, less_word])
  | ieq =>
      cases hf
      refine ⟨_, rfl, h.set (by decide) _, ?_⟩
      rw [get_set_same _ _ (by decide), h9, h8, equal_word]
  | and | or | xor =>
      cases hf
      exact middle_set h rfl (by rw [h9, h8]; rfl)
  | shl =>
      cases hf
      exact middle_set h rfl (by rw [h9, h8, shiftLeft_word])
  | shr =>
      cases hf
      exact middle_set h rfl (by rw [h9, h8, shiftRight_word])
  | _ => cases hf

theorem serve_number {c : Core} (h : c.get v0 = 1) :
    serve? c = some (c.write (Numeral.signed (c.get a0).toInt32.toInt), .on) := by
  rw [serve?, h]
  rfl

theorem serve_character {c : Core} (h : c.get v0 = 11) :
    serve? c = some (c.write [(c.get a0).toUInt8], .on) := by
  rw [serve?, h]
  rfl

theorem straight_serve {c c' : Core} {ls : List Line} (h : serve? c = some (c', .on)) :
    straight labels (.serve :: ls) c = straight labels ls c' := by
  simp only [Line.serve, straight, Line.run, runCode, runOperation, if_true, h]

section Actions

variable (hF : F % 4 = 0) (hhigh : F + 16 + 4 * L + 4 * D ≤ 2 ^ 32)

include hF hhigh

theorem constLines_run (h : Holds L F s c) (hroom : s.stack.length < D) (labels : Labels)
    (v : Int32) : ∃ c', straight labels (.loadNumber 8 v.toInt :: pushLines 9 8) c = some c' ∧
      Holds L F { s with stack := v :: s.stack } c' := by
  rw [straight_loadNumber]
  exact (h.set (by decide) _).push hF hhigh hroom labels (by decide) (by decide)
    (by rw [get_set_same _ _ (by decide), Word.toUInt32_of_toInt])

variable {a : Int32} {rest : List Int32}

theorem notLines_run (h : Holds L F s c) (labels : Labels) (hstack : s.stack = a :: rest)
    (hroom : rest.length < D) :
    ∃ c', straight labels (popLines 8 ++ .immediate .sltiu 8 8 1 :: pushLines 9 8) c = some c' ∧
      Holds L F { s with stack := truth (a = 0) :: rest } c' := by
  obtain ⟨c₁, hrun₁, h₁, h₁8, -⟩ := h.pop hF labels (r := 8) (by decide) hstack
  obtain ⟨c₂, hrun₂, h₂⟩ := (h₁.set (r := 8) (by decide) _).push hF hhigh hroom labels (a := 9)
    (r := 8) (by decide) (by decide)
    (by rw [get_set_same _ _ (by decide), ← negated_word a, ← h₁8])
  exact ⟨c₂, straight_two hrun₁ hrun₂, h₂⟩

theorem binaryLines_run (h : Holds L F s c) (labels : Labels) {o : Op}
    {f : Int32 → Int32 → Int32} {b : Int32} (hf : binary? o = some f)
    (hstack : s.stack = b :: a :: rest) (hroom : rest.length < D) :
    ∃ c', straight labels (popLines 8 ++ (popLines 9 ++ (middleLines o ++ pushLines 10 9))) c =
        some c' ∧ Holds L F { s with stack := f a b :: rest } c' := by
  -- the upper operand is popped first and has to outlive the second pop
  obtain ⟨c₁, hrun₁, h₁, h₁8, -⟩ := h.pop hF labels (r := 8) (by decide) hstack
  obtain ⟨c₂, hrun₂, h₂, h₂9, h₂regs⟩ := h₁.pop hF labels (r := 9) (by decide) rfl
  have h₂8 : c₂.get 8 = b.toUInt32 := (h₂regs 8 (by decide) (by decide)).trans h₁8
  obtain ⟨c₃, hrun₃, h₃, h₃9⟩ := middleLines_run labels hf h₂ h₂9 h₂8
  obtain ⟨c₄, hrun₄, h₄⟩ := h₃.push hF hhigh hroom labels (a := 10) (by decide) (by decide) h₃9
  exact ⟨c₄, straight_two hrun₁ (straight_two hrun₂ (straight_two hrun₃ hrun₄)), h₄⟩

theorem dupLines_run (h : Holds L F s c) (labels : Labels) (hstack : s.stack = a :: rest)
    (hroom : s.stack.length < D) :
    ∃ c', straight labels [.registers3 .addu 8 s0 s1, .access .lw 9 (-4) 8, .access .sw 9 0 8,
        .immediate .addiu s1 s1 4] c = some c' ∧
      Holds L F { s with stack := a :: a :: rest } c' := by
  have hcells := h.cells
  rw [hstack] at hcells
  have hlength : s.stack.length = rest.length + 1 := by rw [hstack]; rfl
  let x := F + 16 + 4 * L + 4 * s.stack.length
  let c₁ := (c.set 8 (ofNat x)).set 9 a.toUInt32
  have h8 : c₁.get 8 = ofNat x := by
    rw [get_set_other _ _ (by decide), get_set_same _ _ (by decide)]
  have hs1 : (c₁.store (ofNat x) a.toUInt32).get s1 = ofNat (4 * s.stack.length) := by
    rw [get_store, get_set_other _ _ (by decide), get_set_other _ _ (by decide), h.offset]
  have hrun : straight labels [.registers3 .addu 8 s0 s1, .access .lw 9 (-4) 8, .access .sw 9 0 8,
      .immediate .addiu s1 s1 4] c = some ((c₁.store (ofNat x) a.toUInt32).set s1
        (ofNat (4 * (s.stack.length + 1)))) := by
    rw [straight_sum h.base h.offset,
      straight_load (y := F + 16 + 4 * L + 4 * rest.length) (get_set_same _ _ (by decide))
        (by omega) (by omega),
      memory_set, hcells.1, straight_store (y := x) h8 (by omega) (by omega),
      get_set_same _ _ (by decide),
      straight_displace (y := 4 * (s.stack.length + 1)) hs1 (by omega)]
    rfl
  refine ⟨_, hrun, ?_⟩
  rw [← hstack]
  refine h.stored hhigh hroom ?_ (get_set_same _ _ (by decide)) ?_ ?_
  · simp (disch := decide) [c₁, get_set_other]
  · rw [memory_set, memory_store, memory_set, memory_set]
  · rw [output_set, output_store, output_set, output_set]

theorem swapLines_run (h : Holds L F s c) (labels : Labels) {b : Int32}
    (hstack : s.stack = b :: a :: rest) (hroom : s.stack.length ≤ D) :
    ∃ c', straight labels [.registers3 .addu 8 s0 s1, .access .lw 9 (-4) 8, .access .lw 10 (-8) 8,
        .access .sw 9 (-8) 8, .access .sw 10 (-4) 8] c = some c' ∧
      Holds L F { s with stack := a :: b :: rest } c' := by
  have hcells := h.cells
  have hoffset := h.offset
  rw [hstack] at hcells hoffset hroom
  obtain ⟨htop, hsecond, hrest⟩ := hcells
  rw [List.length_cons] at htop
  simp only [List.length_cons] at hroom
  -- both cells are loaded before either is stored
  let n := rest.length
  let B := F + 16 + 4 * L
  let c₁ := ((c.set 8 (ofNat (B + 4 * (n + 2)))).set 9 b.toUInt32).set 10 a.toUInt32
  let c₂ := (c₁.store (ofNat (B + 4 * n)) b.toUInt32).store (ofNat (B + 4 * (n + 1)))
    a.toUInt32
  have h8 : c₁.get 8 = ofNat (B + 4 * (n + 2)) := by
    simp (disch := decide) only [c₁, get_set_other, get_set_same]
  have h9 : c₁.get 9 = b.toUInt32 := by
    simp (disch := decide) only [c₁, get_set_other, get_set_same]
  have hrun : straight labels [.registers3 .addu 8 s0 s1, .access .lw 9 (-4) 8,
      .access .lw 10 (-8) 8, .access .sw 9 (-8) 8, .access .sw 10 (-4) 8] c = some c₂ := by
    rw [straight_sum (y := 4 * (n + 2)) h.base hoffset,
      straight_load (y := B + 4 * (n + 1)) (get_set_same _ _ (by decide)) (by omega)
        (by omega),
      memory_set, htop,
      straight_load (x := B + 4 * (n + 2)) (y := B + 4 * n)
        (by simp (disch := decide) only [get_set_other, get_set_same, B]) (by omega)
        (by omega),
      memory_set, memory_set, hsecond,
      straight_store (y := B + 4 * n) h8 (by omega) (by omega), h9,
      straight_store (y := B + 4 * (n + 1)) ((get_store _ _ _ _).trans h8) (by omega)
        (by omega),
      get_store, get_set_same _ _ (by decide)]
    rfl
  have hmemory : c₂.memory = (c.memory.storeWord (ofNat (B + 4 * n)) b.toUInt32).storeWord
      (ofNat (B + 4 * (n + 1))) a.toUInt32 := by
    simp only [c₂, c₁, memory_store, memory_set]
  have hsame : Memory.SameOutside (B + 4 * n) (B + 4 * (n + 2)) c.memory c₂.memory := by
    rw [hmemory]
    exact ((Memory.SameOutside.refl _ _ c.memory).storeWord _ (by omega) (by omega)
      (by omega)).storeWord _ (by omega) (by omega) (by omega)
  have hregs : ∀ r ∈ [0, fp, s0, s1], c₂.get r = c.get r := by
    simp (disch := decide) [c₂, c₁, get_set_other]
  simp only [List.forall_mem_cons] at hregs
  obtain ⟨hzero, hfp, hs0, hs1, -⟩ := hregs
  refine ⟨c₂, hrun, ⟨hzero.trans h.zero, hfp.trans h.pointer, hs0.trans h.base, hs1.trans hoffset,
    ⟨?_, ?_, ?_⟩, ?_, ?_⟩⟩
  · rw [hmemory]
    exact Memory.loadWord_storeWord _ _ _
  · rw [hmemory, Memory.loadWord_storeWord_outside _ _ (by omega) (by omega) (by omega)]
    exact Memory.loadWord_storeWord _ _ _
  · exact hrest.sameOutside hsame (by omega) (Or.inl (Nat.le_refl _))
  · exact fun k hk => (hsame.loadWord (by omega) (by omega)).trans (h.slots k hk)
  · simp only [c₂, c₁, output_store, output_set]
    exact h.output

theorem loadLines_run (h : Holds L F s c) (labels : Labels) {ins : Instruction}
    (hslot : ins.half 0 < L) (hroom : s.stack.length < D) :
    ∃ c', straight labels (.access .lw 8 (slotOf ins) fp :: pushLines 9 8) c = some c' ∧
      Holds L F { s with stack := s.locals (ins.half 0) :: s.stack } c' := by
  rw [straight_load (y := F + 16 + 4 * ins.half 0) h.pointer
    (by rw [slotOf, Frame.localOffset_ofNat_toInt (by omega)]; omega) (by omega), h.slots _ hslot]
  exact (h.set (by decide) _).push hF hhigh hroom labels (by decide) (by decide)
    (get_set_same _ _ (by decide))

theorem storeLines_run (h : Holds L F s c) (labels : Labels) {ins : Instruction}
    (hslot : ins.half 0 < L) (hstack : s.stack = a :: rest) (hroom : rest.length ≤ D) :
    ∃ c', straight labels (popLines 8 ++ [.access .sw 8 (slotOf ins) fp]) c = some c' ∧
      Holds L F ({ s with stack := rest }.setLocal (ins.half 0) a) c' := by
  obtain ⟨c₁, hrun, h₁, h8, -⟩ := h.pop hF labels (r := 8) (by decide) hstack
  let x := F + 16 + 4 * ins.half 0
  have hstore : straight labels [.access .sw 8 (slotOf ins) fp] c₁ =
      some (c₁.store (ofNat x) a.toUInt32) := by
    rw [straight_store (y := x) h₁.pointer
      (by rw [slotOf, Frame.localOffset_ofNat_toInt (by omega)]; omega) (by omega), h8]
    rfl
  have hsame := Memory.sameOutside_storeWord c₁.memory a.toUInt32 (x := x) (by omega)
  refine ⟨_, straight_two hrun hstore, ⟨?_, ?_, ?_, ?_, ?_, ?_, ?_⟩⟩
  · rw [get_store, h₁.zero]
  · rw [get_store, h₁.pointer]
  · rw [get_store, h₁.base]
  · rw [get_store]
    exact h₁.offset
  · -- slots lie before the operand stack
    exact h₁.cells.sameOutside hsame (by simp only; omega) (Or.inr (by omega))
  · intro n hn
    rw [memory_store, State.setLocal_locals]
    by_cases heq : n = ins.half 0
    · rw [if_pos heq, heq, Memory.loadWord_storeWord]
    · rw [if_neg heq, Memory.loadWord_storeWord_outside _ _ (by omega) (by omega) (by omega)]
      exact h₁.slots n hn
  · rw [output_store]
    exact h₁.output

omit hF hhigh in
theorem popLine_run (h : Holds L F s c) (labels : Labels) (hstack : s.stack = a :: rest) :
    ∃ c', straight labels [.immediate .addiu s1 s1 (-4)] c = some c' ∧
      Holds L F { s with stack := rest } c' := by
  have hoffset := h.offset
  have hcells := h.cells
  rw [hstack] at hoffset hcells
  rw [straight_displace (y := 4 * rest.length) hoffset (by rw [List.length_cons]; omega)]
  refine ⟨_, rfl, ⟨?_, ?_, ?_, get_set_same _ _ (by decide), hcells.2, h.slots, h.output⟩⟩
  · rw [Core.get_zero_set, h.zero]
  · rw [get_set_other _ _ (by decide), h.pointer]
  · rw [get_set_other _ _ (by decide), h.base]

omit hhigh in
theorem printLines_run (h : Holds L F s c) (labels : Labels) {a : Int32}
    {rest : List Int32} (hstack : s.stack = a :: rest) :
    ∃ c', straight labels (popLines a0 ++ [Line.loadNumber v0 Service.printNumber.number,
        Line.serve, Line.loadNumber a0 10, Line.loadNumber v0 Service.printCharacter.number,
        Line.serve]) c = some c' ∧
      Holds L F ({ s with stack := rest }.print a) c' := by
  obtain ⟨c₁, hrun, h₁, ha0, -⟩ := h.pop hF labels (r := a0) (by decide) hstack
  let c₂ := (c₁.set v0 1).write (Numeral.signed a.toInt)
  let c₃ := ((c₂.set a0 10).set v0 11).write [10]
  have hserve : serve? (c₁.set v0 1) = some (c₂, .on) := by
    rw [serve_number (get_set_same _ _ (by decide)), get_set_other _ _ (by decide), ha0]
    rfl
  have hserve' : serve? ((c₂.set a0 10).set v0 11) = some (c₃, .on) := by
    rw [serve_character (get_set_same _ _ (by decide)), get_set_other _ _ (by decide),
      get_set_same _ _ (by decide)]
    rfl
  have hprint : straight labels [.loadNumber v0 Service.printNumber.number, .serve,
      .loadNumber a0 10, .loadNumber v0 Service.printCharacter.number, .serve] c₁ = some c₃ := by
    rw [straight_loadNumber]
    refine (straight_serve hserve).trans ?_
    rw [straight_loadNumber, straight_loadNumber]
    exact straight_serve hserve'
  have hregs : ∀ r ∈ [0, fp, s0, s1], c₃.get r = c₁.get r := by
    simp (disch := decide) [c₃, c₂, get_set_other]
  simp only [List.forall_mem_cons] at hregs
  obtain ⟨hzero, hfp, hs0, hs1, -⟩ := hregs
  refine ⟨c₃, straight_two hrun hprint, ⟨hzero.trans h₁.zero, hfp.trans h₁.pointer,
    hs0.trans h₁.base, hs1.trans h₁.offset, h₁.cells, h₁.slots, ?_⟩⟩
  have houtput := h₁.output
  simp only [c₃, c₂, Core.output_write, output_set, Array.toList_appendList, houtput,
    State.print, printedLines, List.flatMap_append, List.flatMap_singleton, List.append_assoc]

end Actions

/-- **The lines of an instruction do what it does.** -/
theorem actLines_run (h : Holds L F s c) (hF : F % 4 = 0) (hhigh : F + 16 + 4 * L + 4 * D ≤ 2 ^ 32)
    (labels : Labels) {s' : State} (hacts : Acts ins s s') (hslot : HasSlot L ins)
    (hroom : s'.stack.length ≤ D) :
    ∃ c', straight labels (actLines ins) c = some c' ∧ Holds L F s' c' := by
  cases hacts with
  | iconst hop =>
      simp only [actLines, hop]
      exact constLines_run hF hhigh h hroom labels (ins.operand 0)
  | not hop hstack =>
      simp only [actLines, hop]
      exact notLines_run hF hhigh h labels hstack hroom
  | dup hop hstack =>
      simp only [actLines, hop]
      exact dupLines_run hF hhigh h labels hstack (by rw [hstack]; exact hroom)
  | swap hop hstack =>
      simp only [actLines, hop]
      exact swapLines_run hF hhigh h labels hstack (by rw [hstack]; exact hroom)
  | pop hop hstack =>
      simp only [actLines, hop]
      exact popLine_run h labels hstack
  | load hop =>
      simp only [actLines, hop]
      exact loadLines_run hF hhigh h labels (hslot (Or.inl hop)) hroom
  | store hop hstack =>
      simp only [actLines, hop]
      exact storeLines_run hF hhigh h labels (hslot (Or.inr hop)) hstack hroom
  | print hop hstack =>
      simp only [actLines, hop]
      exact printLines_run hF h labels hstack
  | @binary f a b rest hf hstack =>
      obtain ⟨c', hrun, h'⟩ := binaryLines_run hF hhigh h labels hf hstack hroom
      refine ⟨c', ?_, h'⟩
      rwa [actLines_binary hf]

/-! ### What lowering writes -/

theorem slot_lt {ctx : Context} {L D S : Nat} (hf : ctx.frame.Shape L D S)
    (h : Int64.ofNat (ins.half 0) < ctx.frame.localSlots) : ins.half 0 < L := by
  have hhalf : ins.half 0 < 2 ^ 16 := UInt16.toNat_lt _
  rw [Int64.lt_iff_toInt_lt, Int64.toInt_ofNat_of_lt (by omega), hf.slots] at h
  omega

/-- The lines of an operation that depend on nothing but the instruction. -/
theorem operation_lines {o : Op} (ctx : Context) (offset : Nat) (hop : ins.op = o)
    (ho : o ∈ [.iconst, .not, .dup, .swap, .pop, .print] ∨ (binary? o).isSome) :
    (operation ctx offset ins).lines = .ok (actLines ins) := by
  unfold operation actLines
  rw [hop]
  cases o <;> first | rfl | simp [binary?] at ho

/-- **Lowering writes these lines**, and refuses instructions that name a slot the frame lacks. -/
theorem draft_act {ctx : Context} {offset : Nat} {ls : List Line} {s s' : State} {L D S : Nat}
    (hf : ctx.frame.Shape L D S) (hacts : Acts ins s s') (h : draft ctx offset ins = .ok ls) :
    ls = .place offset ins :: actLines ins ∧ HasSlot L ins := by
  obtain ⟨ls', hls', rfl⟩ := map_ok_iff.1 h
  have hplain : ∀ {o : Op}, ins.op = o →
      o ∈ [.iconst, .not, .dup, .swap, .pop, .print] ∨ (binary? o).isSome →
      Line.place offset ins :: ls' = .place offset ins :: actLines ins ∧ HasSlot L ins := by
    intro o hop ho
    rw [operation_lines ctx offset hop ho] at hls'
    rw [Except.ok.inj hls']
    refine ⟨rfl, ?_⟩
    rintro (hslot | hslot)
    all_goals
      rw [← hop, hslot] at ho
      exact absurd ho (by decide)
  cases hacts with
  | iconst hop | not hop | dup hop | swap hop | pop hop | print hop => exact hplain hop (by decide)
  | binary hbinary => exact hplain rfl (Or.inr (by rw [hbinary]; rfl))
  | load hop =>
      simp only [operation, hop, Mips.loadLocal] at hls'
      obtain ⟨hslot, hls'⟩ := Mips.slot_lines hls'
      rw [← Except.ok.inj hls', actLines, hop]
      exact ⟨rfl, fun _ => slot_lt hf hslot⟩
  | store hop =>
      simp only [operation, hop, Mips.storeLocal] at hls'
      obtain ⟨hslot, hls'⟩ := Mips.slot_lines hls'
      rw [← Except.ok.inj hls', actLines, hop]
      exact ⟨rfl, fun _ => slot_lt hf hslot⟩

theorem number_plain (v : Int32) : (Listing.Operand.number v.toInt).Plain := by
  have hlo := Int32.le_toInt v
  have hhi := Int32.toInt_lt v
  exact ⟨by omega, by omega⟩

theorem middleLines_plain (o : Op) : ∀ l ∈ middleLines o, l.Plain := by
  cases o with
  | unknown code => exact List.forall_mem_nil _
  | _ => decide

theorem actLines_plain (ins : Instruction) : ∀ l ∈ actLines ins, l.Plain := by
  unfold actLines
  split
  · exact List.forall_mem_cons.2
      ⟨List.forall_mem_cons.2 ⟨by decide, List.forall_mem_singleton.2 (number_plain _)⟩, by decide⟩
  · decide
  · decide
  · decide
  · decide
  · exact List.forall_mem_cons.2 ⟨Line.plain_access .lw (by decide) _, by decide⟩
  · exact List.forall_mem_append.2
      ⟨by decide, List.forall_mem_singleton.2 (Line.plain_access .sw (by decide) _)⟩
  · decide
  · simp only [List.forall_mem_append]
    exact ⟨by decide, by decide, middleLines_plain _, by decide⟩

end StackCompiler.PlainMachine
