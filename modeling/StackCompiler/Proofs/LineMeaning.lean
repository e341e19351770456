/-
**What lines do.**

Lowering thinks in lines, not in words: a line adds two registers, stores a cell, goes to a label.
This module gives the lines that lowering writes such a meaning, on the registers, the memory and
the output alone.  Nothing in it knows how a line is encoded or how many words it takes.
-/

import StackCompiler.Proofs.ListingText
import StackCompiler.Proofs.WordExecution

namespace StackCompiler.Listing

open Assembly (Labels Mnemonic)
open Machine (ofBool shiftArithmetic halves divide)

/-! ### What lines act on -/

/-- The part of the state that lines act on. -/
structure Core where
  regs : Registers
  /-- The upper half of a product, or a remainder. -/
  hi : UInt32
  /-- The lower half of a product, or a quotient. -/
  lo : UInt32
  memory : Memory
  /-- What was written so far. -/
  output : Array UInt8

namespace Core

/-- The value of a register. -/
def get (c : Core) (r : Register) : UInt32 := c.regs.get r

/-- Replaces a register other than zero. -/
def set (c : Core) (r : Register) (v : UInt32) : Core := { c with regs := c.regs.set r v }

/-- Gives both halves of a product values. -/
def setHalves (c : Core) (v : UInt32 × UInt32) : Core := { c with hi := v.1, lo := v.2 }

/-- Stores a word. -/
def store (c : Core) (address w : UInt32) : Core :=
  { c with memory := c.memory.storeWord address w }

/-- Puts bytes out. -/
def write (c : Core) (t : Text) : Core := { c with output := c.output ++ t }

section

variable (c : Core)

include c

theorem get_set (r r' : Register) (v : UInt32) :
    (c.set r v).get r' = if r' = r ∧ r ≠ 0 ∧ r < 32 then v else c.get r' :=
  Registers.get_set c.regs r r' v

@[simp] theorem get_setHalves (v : UInt32 × UInt32) (r : Register) :
    (c.setHalves v).get r = c.get r := rfl

@[simp] theorem get_store (a w : UInt32) (r : Register) : (c.store a w).get r = c.get r := by
  simp only [get, store]

@[simp] theorem get_write (t : Text) (r : Register) : (c.write t).get r = c.get r := rfl

@[simp] theorem memory_set (r : Register) (v : UInt32) : (c.set r v).memory = c.memory := rfl

@[simp] theorem memory_store (a w : UInt32) : (c.store a w).memory = c.memory.storeWord a w := rfl

@[simp] theorem memory_write (t : Text) : (c.write t).memory = c.memory := rfl

@[simp] theorem output_set (r : Register) (v : UInt32) : (c.set r v).output = c.output := rfl

@[simp] theorem output_store (a w : UInt32) : (c.store a w).output = c.output := by
  simp only [store]

@[simp] theorem output_write (t : Text) : (c.write t).output = c.output ++ t := rfl

@[simp] theorem lo_set (r : Register) (v : UInt32) : (c.set r v).lo = c.lo := rfl

@[simp] theorem lo_setHalves (v : UInt32 × UInt32) : (c.setHalves v).lo = v.2 := rfl

end

end Core

/-- Where the machine goes on behind a line. -/
inductive Next where
  | on
  | to (address : UInt32)
  /-- Nowhere: the program has ended. -/
  | stop (status : Int32)

/-! ### What lines do -/

/-- The value that an operation computes from two registers. -/
def binary? (o : Operation) (a b : UInt32) : Option UInt32 :=
  match o with
  | .addu => some (a + b)
  | .subu => some (a - b)
  | .and => some (a &&& b)
  | .or => some (a ||| b)
  | .xor => some (a ^^^ b)
  | .slt => some (ofBool (a.toInt32 < b.toInt32))
  | .sllv => some (a <<< (b &&& 31))
  | .srav => some (shiftArithmetic a (b &&& 31))
  | _ => none

/-- The two halves that an operation computes from two registers. -/
def double? (o : Operation) (a b : UInt32) : Option (UInt32 × UInt32) :=
  match o with
  | .mult => some (halves (a.toInt32.toInt64 * b.toInt32.toInt64).toUInt64)
  | .div => some (divide a b)
  | _ => none

/-- The value that an operation computes from a register and a number. -/
def withNumber? (o : Operation) (a : UInt32) (n : Int) : Option UInt32 :=
  match o with
  | .addiu => some (a + UInt32.ofInt n)
  | .sltiu => some (ofBool (a < UInt32.ofInt n))
  | .sll => some (a <<< (UInt32.ofInt n &&& 31))
  | _ => none

/-- What a load or store does at an address, which has to be that of a word. -/
def access? (c : Core) (o : Operation) (t : Register) (a : UInt32) : Option Core :=
  if a &&& 3 = 0 then
    match o with
    | .lw => some (c.set t (c.memory.loadWord a))
    | .sw => some (c.store a (c.get t))
    | _ => none
  else none

/-- Whether a branch is taken. -/
def taken? (o : Operation) (a b : UInt32) : Option Bool :=
  match o with
  | .beq => some (a == b)
  | .bne => some (a != b)
  | _ => none

/-- What the services do that lowering asks for. -/
def serve? (c : Core) : Option (Core × Next) :=
  let argument := c.get Register.a0
  match Service.ofNumber? (c.get Register.v0).toNat with
  | some .printNumber => some (c.write (Numeral.signed argument.toInt32.toInt), .on)
  | some .printCharacter => some (c.write [argument.toUInt8], .on)
  | some .exitStatus => some (c, .stop argument.toInt32)
  | _ => none

/-- What an operation does with one register: it takes the lower half of a product, or goes where
the register says. -/
def single? (c : Core) (o : Operation) (r : Register) : Option (Core × Next) :=
  match o with
  | .mflo => some (c.set r c.lo, .on)
  | .jr => some (c, .to (c.get r))
  | _ => none

/-- What an operation does. -/
def runOperation (labels : Labels) (c : Core) (o : Operation) :
    List Operand → Option (Core × Next)
  | [] => if o = .syscall then serve? c else none
  | [.register d, .register s, .register t] =>
    (binary? o (c.get s) (c.get t)).map fun v => (c.set d v, .on)
  | [.register t, .register s, .number n] =>
    (withNumber? o (c.get s) n).map fun v => (c.set t v, .on)
  | [.register s, .register t, .label l] =>
    match taken? o (c.get s) (c.get t) with
    | some true => labels[l.render]?.map fun a => (c, .to a)
    | some false => some (c, .on)
    | none => none
  | [.register s, .register t] =>
    (double? o (c.get s) (c.get t)).map fun v => (c.setHalves v, .on)
  | [.register t, .memory n b] =>
    (access? c o t (c.get b + UInt32.ofInt n)).map fun c => (c, .on)
  | [.register r] => single? c o r
  | [.label l] => if o = .j then labels[l.render]?.map fun a => (c, .to a) else none
  | _ => none

/-- What loading an address does. -/
def runLoad (labels : Labels) (c : Core) : List Operand → Option (Core × Next)
  | [.register d, .label l] => labels[l.render]?.map fun a => (c.set d a, .on)
  | [.register d, .address a] => some (c.set d a, .on)
  | _ => none

/-- What the code of a line does. -/
def runCode (labels : Labels) (c : Core) (m : Mnemonic) (os : List Operand) :
    Option (Core × Next) :=
  match m with
  | .operation o => runOperation labels c o os
  | .move =>
    match os with
    | [.register d, .register s] => some (c.set d (c.get s), .on)
    | _ => none
  | .li =>
    match os with
    | [.register d, .number n] => some (c.set d (UInt32.ofInt n), .on)
    | _ => none
  | .la => runLoad labels c os
  | .seq =>
    match os with
    | [.register d, .register s, .register t] =>
      some (c.set d (ofBool (c.get s == c.get t)), .on)
    | _ => none
  | _ => none

namespace Line

/-- **What a line does**, and where it goes on.  Nothing is said of lines that lowering writes for
other purposes. -/
def run (labels : Labels) (c : Core) : Line → Option (Core × Next)
  | code m os => runCode labels c m os
  | nothingFor _ => none
  | comment _ => none
  | _ => some (c, .on)

end Line

/-! ### Register zero -/

theorem Core.get_zero_set (c : Core) (r : Register) (v : UInt32) : (c.set r v).get 0 = c.get 0 :=
  Registers.get_zero_set c.regs r v

variable {labels : Labels} {c c' : Core}

theorem runOperation_zero {o : Operation} {os : List Operand} {next : Next}
    (h : runOperation labels c o os = some (c', next)) : c'.get 0 = c.get 0 := by
  unfold runOperation at h
  split at h
  · split at h
    · unfold serve? at h
      dsimp only at h
      split at h
      iterate 3
        · cases h
          rfl
      · cases h
    · cases h
  iterate 2
    · obtain ⟨v, -, ⟨⟩⟩ := Option.map_eq_some_iff.1 h
      exact c.get_zero_set _ _
  · split at h
    · obtain ⟨a, -, ⟨⟩⟩ := Option.map_eq_some_iff.1 h
      rfl
    · cases h
      rfl
    · cases h
  · obtain ⟨v, -, ⟨⟩⟩ := Option.map_eq_some_iff.1 h
    rfl
  · obtain ⟨v, hv, ⟨⟩⟩ := Option.map_eq_some_iff.1 h
    unfold access? at hv
    split at hv
    · split at hv
      · rw [← Option.some.inj hv, Core.get_zero_set]
      · rw [← Option.some.inj hv, Core.get_store]
      · cases hv
    · cases hv
  · unfold single? at h
    split at h
    · cases h
      exact c.get_zero_set _ _
    · cases h
      rfl
    · cases h
  · split at h
    · obtain ⟨a, -, ⟨⟩⟩ := Option.map_eq_some_iff.1 h
      rfl
    · cases h
  · cases h

/-- **No line changes register zero.** -/
theorem Line.run_zero {line : Line} {next : Next}
    (h : line.run labels c = some (c', next)) : c'.get 0 = c.get 0 := by
  cases line with
  | code m os =>
      unfold Line.run runCode at h
      dsimp only at h
      split at h
      · exact runOperation_zero h
      iterate 2
        · split at h
          · cases h
            exact c.get_zero_set _ _
          · cases h
      · unfold runLoad at h
        split at h
        · obtain ⟨a, -, ⟨⟩⟩ := Option.map_eq_some_iff.1 h
          exact c.get_zero_set _ _
        · cases h
          exact c.get_zero_set _ _
        · cases h
      · split at h
        · cases h
          exact c.get_zero_set _ _
        · cases h
      · cases h
  | nothingFor ins | comment body => cases h
  | textSection | visible l | label l | place offset ins =>
      cases h
      rfl

/-- What lines without a jump do. -/
def straight (labels : Labels) : List Line → Core → Option Core
  | [], c => some c
  | l :: ls, c =>
    match l.run labels c with
    | some (c', .on) => straight labels ls c'
    | _ => none

theorem straight_append (labels : Labels) (xs ys : List Line) (c : Core) :
    straight labels (xs ++ ys) c = (straight labels xs c).bind (straight labels ys) := by
  induction xs generalizing c with
  | nil => rfl
  | cons l xs ih =>
      rw [List.cons_append, straight, straight]
      split
      · exact ih _
      · rfl

theorem straight_zero {ls : List Line}
    (h : straight labels ls c = some c') : c'.get 0 = c.get 0 := by
  induction ls generalizing c with
  | nil => rw [← Option.some.inj h]
  | cons l ls ih =>
      unfold straight at h
      split at h
      · next c₁ hl => rw [ih h, Line.run_zero hl]
      · cases h

/-! ### The lines that can be read back -/

/-- An operand that the assembler reads as what it is. -/
def Operand.Plain : Operand → Prop
  | register r => r < 32
  | number n => -2 ^ 63 ≤ n ∧ n < 2 ^ 63
  | address _ => True
  | memory n b => (-2 ^ 63 ≤ n ∧ n < 2 ^ 63) ∧ b < 32
  | label l => l.isMade

/-- A line without names of the program. -/
def Line.Plain : Line → Prop
  | textSection => True
  | visible l => l = .main
  | label l => l.isMade
  | place _ _ => True
  | comment _ => False
  | code _ os => ∀ o ∈ os, o.Plain
  | nothingFor _ => False

instance : (o : Operand) → Decidable o.Plain
  | .register r => inferInstanceAs (Decidable (r < 32))
  | .number n => inferInstanceAs (Decidable (-2 ^ 63 ≤ n ∧ n < 2 ^ 63))
  | .address _ => inferInstanceAs (Decidable True)
  | .memory n b => inferInstanceAs (Decidable ((-2 ^ 63 ≤ n ∧ n < 2 ^ 63) ∧ b < 32))
  | .label l => inferInstanceAs (Decidable (l.isMade = true))

instance : (l : Line) → Decidable l.Plain
  | .textSection => inferInstanceAs (Decidable True)
  | .visible l => inferInstanceAs (Decidable (l = .main))
  | .label l => inferInstanceAs (Decidable (l.isMade = true))
  | .place _ _ => inferInstanceAs (Decidable True)
  | .comment _ => inferInstanceAs (Decidable False)
  | .code _ os => inferInstanceAs (Decidable (∀ o ∈ os, o.Plain))
  | .nothingFor _ => inferInstanceAs (Decidable False)

theorem Operand.plain_number (n : Int64) : (Operand.number n.toInt).Plain :=
  ⟨Int64.le_toInt n, Int64.toInt_lt n⟩

theorem Line.plain_immediate (o : Operation) {t s : Register} (h : t < 32 ∧ s < 32) (n : Int64) :
    (Line.immediate o t s n.toInt).Plain :=
  List.forall_mem_cons.2 ⟨h.1, List.forall_mem_cons.2
    ⟨h.2, List.forall_mem_singleton.2 (Operand.plain_number n)⟩⟩

theorem Line.plain_access (o : Operation) {t b : Register} (h : t < 32 ∧ b < 32) (n : Int64) :
    (Line.access o t n.toInt b).Plain :=
  List.forall_mem_cons.2 ⟨h.1, List.forall_mem_singleton.2 ⟨Operand.plain_number n, h.2⟩⟩

theorem Operand.Plain.isMade {o : Operand} (h : o.Plain) : o.isMade := by
  cases o with
  | label l => exact h
  | _ => rfl

end StackCompiler.Listing
