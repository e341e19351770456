/-
**Steps that fail.**

A step can fail in many places: when a word is fetched, when it is taken apart, when an address, a
sum or the number of a service is looked at.  This module says when it does, in terms of numbers: an
address is no multiple of the size of what is accessed, a sum or difference of signed numbers does
not fit a word, no service has the number that was asked for, no operation has the code of the word.
Whichever it is, the step has looked before it has changed anything.  A step that has fetched no
word leaves the state as it is, and any other step that fails has only been counted and has moved
the counter on.

* `Machine.wordFailure?_eq_some_iff` — **when a word is refused**;
* `Machine.faulting_step` — **a step that fails changes nothing but the counters**.
-/

import StackCompiler.Proofs.ImplementedWords

namespace StackCompiler

/-! ### Tests of bits -/

namespace Word

theorem signBit_eq_msb (w : UInt32) : (w &&& 0x80000000 != 0) = w.toBitVec.msb := by
  have hmask : (w &&& 0x80000000).toNat = (w.toNat.testBit 31).toNat * 2 ^ 31 := by
    rw [UInt32.toNat_and]
    exact Nat.and_two_pow _ 31
  have hmsb : w.toBitVec.msb = w.toNat.testBit 31 := by
    rw [BitVec.msb_eq_getLsbD_last]
    rfl
  rw [Bool.eq_iff_iff, bne_iff_ne, ne_eq, ← UInt32.toNat_inj, hmask, hmsb]
  cases w.toNat.testBit 31 <;> decide

theorem and_one_eq_zero_iff (a : UInt32) : a &&& 1 = 0 ↔ a.toNat % 2 = 0 := by
  rw [← UInt32.toNat_inj, and_mask_toNat a 1 1 rfl]
  rfl

/-- A number that a word holds as a signed number. -/
def Fits (z : Int) : Prop := -2 ^ 31 ≤ z ∧ z < 2 ^ 31

theorem outside_iff (z : Int) : (decide (z ≥ 2 ^ 31) || decide (z < -2 ^ 31)) = true ↔ ¬Fits z := by
  rw [Bool.or_eq_true, decide_eq_true_iff, decide_eq_true_iff, Fits]
  omega

theorem toInt_signExtend (h : UInt16) : (signExtend h).toInt32.toInt = h.toInt16.toInt := by
  simp [signExtend]

end Word

theorem Service.number_of_ofNumber? {n : Nat} {s : Service} (h : Service.ofNumber? n = some s) :
    s.number = n := by
  unfold Service.ofNumber? at h
  split at h <;> cases h <;> rfl

namespace Machine

/-- **The sum of two words overflows if it does not fit a word**, as a sum of signed numbers. -/
theorem addOverflows_iff (a b : UInt32) :
    addOverflows a b = true ↔ ¬Word.Fits (a.toInt32.toInt + b.toInt32.toInt) := by
  -- both words have the same sign, and the sum has the other one
  have hbits : addOverflows a b = a.toBitVec.saddOverflow b.toBitVec := by
    rw [addOverflows, Word.signBit_eq_msb, BitVec.saddOverflow_eq, UInt32.toBitVec_and,
      UInt32.toBitVec_xor, UInt32.toBitVec_xor, UInt32.toBitVec_add, BitVec.msb_and,
      BitVec.msb_xor, BitVec.msb_xor]
    cases a.toBitVec.msb <;> cases b.toBitVec.msb <;>
      cases (a.toBitVec + b.toBitVec).msb <;> rfl
  rw [hbits, BitVec.saddOverflow]
  exact Word.outside_iff _

/-- **The difference of two words overflows if it does not fit a word.** -/
theorem subOverflows_iff (a b : UInt32) :
    subOverflows a b = true ↔ ¬Word.Fits (a.toInt32.toInt - b.toInt32.toInt) := by
  -- the words differ in sign, and so do the first one and the difference
  have hbits : subOverflows a b = a.toBitVec.ssubOverflow b.toBitVec := by
    rw [subOverflows, Word.signBit_eq_msb, BitVec.ssubOverflow_eq, UInt32.toBitVec_and,
      UInt32.toBitVec_xor, UInt32.toBitVec_xor, UInt32.toBitVec_sub, BitVec.msb_and,
      BitVec.msb_xor, BitVec.msb_xor]
    cases a.toBitVec.msb <;> cases b.toBitVec.msb <;>
      cases (a.toBitVec - b.toBitVec).msb <;> rfl
  rw [hbits, BitVec.ssubOverflow]
  exact Word.outside_iff _

end Machine

/-! ### Words that are refused -/

/-- The size of what an operation accesses in memory, and one for an operation that accesses
nothing. -/
def Operation.accessSize : Operation → Nat
  | lh | lhu | sh => 2
  | lw | sw => 4
  | _ => 1

namespace Machine

/-- The sum or difference that an operation checks for overflow, as a number. -/
def checked? (m : Machine) (f : Fields) : Operation → Option Int
  | .add => some ((m.regs.get f.rs).toInt32.toInt + (m.regs.get f.rt).toInt32.toInt)
  | .addi => some ((m.regs.get f.rs).toInt32.toInt + f.imm.toInt16.toInt)
  | .sub => some ((m.regs.get f.rs).toInt32.toInt - (m.regs.get f.rt).toInt32.toInt)
  | _ => none

/-- **Why the machine refuses a word** with the given fields. -/
inductive Refuses (m : Machine) (f : Fields) : Stop → Prop where
  /-- No operation has its primary opcode. -/
  | opcode (hcode : ∀ o : Operation, f.code ≠ o.code) (hop : f.op ≠ 0) :
      Refuses m f (.reservedOpcode f.op)
  /-- Its primary opcode is zero, and no operation has its function code. -/
  | function (hcode : ∀ o : Operation, f.code ≠ o.code) (hop : f.op = 0) :
      Refuses m f (.reservedFunction f.funct)
  /-- The address is no multiple of the size of what is accessed. -/
  | access {o : Operation} (hcode : f.code = o.code)
      (haddress : (m.accessed f).toNat % o.accessSize ≠ 0) : Refuses m f .unaligned
  /-- Overflow is trapped, and a sum or difference does not fit a word. -/
  | overflow {o : Operation} {z : Int} (hcode : f.code = o.code) (htrap : m.trapOverflow = true)
      (hchecked : m.checked? f o = some z) (hfits : ¬Word.Fits z) : Refuses m f .overflow
  /-- No service has the number that was asked for. -/
  | service (hcode : f.code = Operation.syscall.code)
      (hnumber : ∀ s : Service, s.number ≠ (m.regs.get Register.v0).toNat) :
      Refuses m f (.badService (m.regs.get Register.v0))

theorem asked_isSome_iff (m : Machine) :
    m.asked.isSome = true ↔ ∃ s : Service, s.number = (m.regs.get Register.v0).toNat := by
  rw [asked, Option.isSome_iff_exists]
  constructor
  · rintro ⟨s, hs⟩
    exact ⟨s, Service.number_of_ofNumber? hs⟩
  · rintro ⟨s, hs⟩
    exact ⟨s, hs ▸ Service.ofNumber?_number s⟩

section Failures

variable {m : Machine} {f : Fields} {o : Operation} {stop : Stop}

/-- An operation that checks a sum or difference fails if it is trapped and does not fit. -/
theorem failure?_checked_iff {z : Int} (hchecked : m.checked? f o = some z) :
    m.failure? f o = some stop ↔ m.trapOverflow = true ∧ ¬Word.Fits z ∧ stop = .overflow := by
  have htrapped : ∀ {b : Bool}, (b = true ↔ ¬Word.Fits z) →
      ((if m.trapOverflow && b then some Stop.overflow else none) = some stop ↔
        m.trapOverflow = true ∧ ¬Word.Fits z ∧ stop = .overflow) := by
    intro b hb
    rw [Option.ite_none_right_eq_some, Bool.and_eq_true_iff, hb, and_assoc, Option.some_inj,
      eq_comm (b := stop)]
  cases o with
  | add =>
      obtain rfl := Option.some.inj hchecked
      exact htrapped (addOverflows_iff _ _)
  | addi =>
      obtain rfl := Option.some.inj hchecked
      rw [← Word.toInt_signExtend] at htrapped ⊢
      exact htrapped (addOverflows_iff _ _)
  | sub =>
      obtain rfl := Option.some.inj hchecked
      exact htrapped (subOverflows_iff _ _)
  | _ => cases hchecked

/-- An operation fails only for one of these reasons. -/
theorem refuses_of_failure? (hcode : f.code = o.code) (h : m.failure? f o = some stop) :
    m.Refuses f stop := by
  cases o with
  | lh | lhu | sh =>
      obtain ⟨haddress, hstop⟩ := Option.ite_none_left_eq_some.1 h
      cases hstop
      exact .access hcode (mt (Word.and_one_eq_zero_iff _).2 haddress)
  | lw | sw =>
      obtain ⟨haddress, hstop⟩ := Option.ite_none_left_eq_some.1 h
      cases hstop
      exact .access hcode (mt (Word.and_three_eq_zero_iff _).2 haddress)
  | add | addi | sub =>
      obtain ⟨htrap, hfits, rfl⟩ := (failure?_checked_iff rfl).1 h
      exact .overflow hcode htrap rfl hfits
  | syscall =>
      obtain ⟨hasked, hstop⟩ := Option.ite_none_left_eq_some.1 h
      cases hstop
      exact .service hcode fun s hs => hasked (m.asked_isSome_iff.2 ⟨s, hs⟩)
  | _ => cases h

theorem failure?_of_access (h : (m.accessed f).toNat % o.accessSize ≠ 0) :
    m.failure? f o = some .unaligned := by
  cases o with
  | lh | lhu | sh => exact if_neg (mt (Word.and_one_eq_zero_iff _).1 h)
  | lw | sw => exact if_neg (mt (Word.and_three_eq_zero_iff _).1 h)
  | _ => exact absurd (Nat.mod_one _) h

end Failures

variable {m : Machine}

/-- **When a word is refused**, and why. -/
theorem wordFailure?_eq_some_iff {w : UInt32} {stop : Stop} :
    m.wordFailure? w = some stop ↔ m.Refuses (Fields.ofWord w) stop := by
  -- a code determines its operation, so a word has at most one
  have hknown : ∀ {o : Operation}, (Fields.ofWord w).code = o.code →
      m.wordFailure? w = m.failure? (Fields.ofWord w) o := by
    intro o ho
    rw [wordFailure?, Operation.ofFields?_eq_some_iff.2 ho]
  have hunknown : (∀ o : Operation, (Fields.ofWord w).code ≠ o.code) →
      m.wordFailure? w = some (reserved (Fields.ofWord w)) := by
    intro hcode
    rw [wordFailure?, Option.eq_none_iff_forall_ne_some.2
      fun o ho => hcode o (Operation.ofFields?_eq_some_iff.1 ho)]
  constructor
  · intro h
    by_cases hcode : ∃ o : Operation, (Fields.ofWord w).code = o.code
    · obtain ⟨o, ho⟩ := hcode
      rw [hknown ho] at h
      exact refuses_of_failure? ho h
    · have hnone : ∀ o : Operation, (Fields.ofWord w).code ≠ o.code := not_exists.1 hcode
      obtain rfl := Option.some.inj ((hunknown hnone).symm.trans h)
      unfold reserved
      split
      · next hop => exact .function hnone hop
      · next hop => exact .opcode hnone hop
  · intro h
    cases h with
    | opcode hcode hop => rw [hunknown hcode, reserved, if_neg hop]
    | function hcode hop => rw [hunknown hcode, reserved, if_pos hop]
    | access hcode haddress => rw [hknown hcode, failure?_of_access haddress]
    | overflow hcode htrap hchecked hfits =>
        exact (hknown hcode).trans ((failure?_checked_iff hchecked).2 ⟨htrap, hfits, rfl⟩)
    | service hcode hnumber =>
        rw [hknown hcode, failure?, if_neg]
        rw [asked_isSome_iff]
        rintro ⟨s, hs⟩
        exact hnumber s hs

/-! ### Steps -/

/-- **Why a step fails**: there is no word at the counter, or the word there is refused. -/
inductive Faults (m : Machine) : Fault → Prop where
  /-- The counter is no multiple of four, or stands behind the last word. -/
  | stray (h : m.halted = false) (hpc : ¬(m.pc.toNat % 4 = 0 ∧ m.pc.toNat / 4 < m.text.size)) :
      Faults m ⟨m.pc, 0, .pcOutOfRange⟩
  /-- The word at the counter is refused. -/
  | refusal {w : UInt32} {stop : Stop} (h : m.halted = false) (hpc : m.pc.toNat % 4 = 0)
      (hw : m.text[m.pc.toNat / 4]? = some w) (hstop : m.Refuses (Fields.ofWord w) stop) :
      Faults m ⟨m.pc, w, stop⟩

/-- A word is refused for no reason that a step or a run has apart from words. -/
theorem Refuses.stop_ne {f : Fields} {stop : Stop} (h : m.Refuses f stop) :
    stop ≠ .pcOutOfRange ∧ stop ≠ .stepLimit := by
  cases h <;> exact ⟨nofun, nofun⟩

/-- What a step that fails has found and done. -/
theorem step_failed {fault : Fault} (h : m.step.2 = some fault) :
    (m.halted = false ∧ m.fetch? = none ∧ fault = ⟨m.pc, 0, .pcOutOfRange⟩ ∧ m.step.1 = m) ∨
    (m.halted = false ∧ m.fetch? = some fault.word ∧ fault.pc = m.pc ∧
      m.Refuses (Fields.ofWord fault.word) fault.stop ∧ m.step.1 = m.advance) := by
  have hstep := m.makes_step
  generalize m.step = made at h hstep ⊢
  cases hstep with
  | rest | work => cases h
  | stray hrunning hfetch => exact .inl ⟨hrunning, hfetch, (Option.some.inj h).symm, rfl⟩
  | refusal hrunning hfetch hstop =>
      obtain rfl := Option.some.inj h
      exact .inr ⟨hrunning, hfetch, rfl, wordFailure?_eq_some_iff.1 hstop, rfl⟩

/-- **When a step fails**, and why. -/
theorem step_eq_some_iff (m : Machine) (fault : Fault) :
    m.step.2 = some fault ↔ m.Faults fault := by
  constructor
  · intro h
    obtain ⟨hrunning, hfetch, rfl, -⟩ | ⟨hrunning, hfetch, hpc, hrefuses, -⟩ := step_failed h
    · exact .stray hrunning (m.fetch?_eq_none_iff.1 hfetch)
    · obtain ⟨haligned, hw⟩ := fetch?_eq_some_iff.1 hfetch
      obtain ⟨pc, w, stop⟩ := fault
      obtain rfl : pc = m.pc := hpc
      exact .refusal hrunning haligned hw hrefuses
  · intro h
    cases h with
    | stray hrunning hpc =>
        rw [(Makes.stray hrunning (m.fetch?_eq_none_iff.2 hpc)).step_eq]
    | refusal hrunning haligned hw hrefuses =>
        rw [(Makes.refusal hrunning (fetch?_eq_some_iff.2 ⟨haligned, hw⟩)
          (wordFailure?_eq_some_iff.2 hrefuses)).step_eq]

/-- **A step that fails changes nothing but the counters.**  No service, no operation and no word
that fails has changed the state that it was given.  A step fails exactly if there is no word at the
counter or the word there is refused.  Without a word, the state stays as it is.  Otherwise the
counter stands behind the word, the step has been counted, and everything else is as before; the
failure names the word and its place. -/
theorem faulting_step (m : Machine) (fault : Fault) :
    (∀ stop, m.syscall.2 = some stop → m.syscall.1 = m) ∧
    (∀ f stop, (m.special f (m.regs.get f.rs) (m.regs.get f.rt)).2 = some stop →
      (m.special f (m.regs.get f.rs) (m.regs.get f.rt)).1 = m) ∧
    (∀ pc w stop, (m.execute pc w).2 = some stop → (m.execute pc w).1 = m) ∧
    (m.step.2 = some fault ↔ m.Faults fault) ∧
    (m.step.2 = some fault → fault.stop = .pcOutOfRange → m.step.1 = m) ∧
    (m.step.2 = some fault → fault.stop ≠ .pcOutOfRange →
      m.step.1 = { m with pc := m.pc + 4, steps := m.steps + 1 } ∧ fault.pc = m.pc ∧
        m.pc.toNat % 4 = 0 ∧ m.text[m.pc.toNat / 4]? = some fault.word) := by
  refine ⟨fun _ => syscall_failed, fun _ _ => special_failed, fun _ _ _ => execute_failed,
    m.step_eq_some_iff fault, fun h hstray => ?_, fun h hne => ?_⟩
  · obtain ⟨-, -, -, hsame⟩ | ⟨-, -, -, hrefuses, -⟩ := step_failed h
    · exact hsame
    · exact absurd hstray hrefuses.stop_ne.1
  · obtain ⟨-, -, rfl, -⟩ | ⟨-, hfetch, hpc, -, hadvance⟩ := step_failed h
    · exact absurd rfl hne
    · exact ⟨hadvance, hpc, fetch?_eq_some_iff.1 hfetch⟩

/-- A machine that traps overflow, about to add one to the largest number. -/
def overflowing : Machine :=
  { ofWords #[0x21080001] with
    trapOverflow := true
    regs := ({} : Registers).set 8 0x7FFFFFFF }

theorem faulting_step_overflowing :
    overflowing.step.2 = some ⟨0, 0x21080001, .overflow⟩ ∧
      overflowing.Faults ⟨0, 0x21080001, .overflow⟩ ∧
      overflowing.step.1 = { overflowing with pc := 4, steps := 1 } := by
  have h : overflowing.step.2 = some ⟨0, 0x21080001, .overflow⟩ := by decide
  obtain ⟨-, -, -, hfaults, -, hcounters⟩ := faulting_step overflowing ⟨0, 0x21080001, .overflow⟩
  exact ⟨h, hfaults.1 h, (hcounters h (by decide)).1⟩

end Machine

end StackCompiler
