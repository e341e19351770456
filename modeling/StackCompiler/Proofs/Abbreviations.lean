/-
**Abbreviations do what they say.**

Copying a register, loading a number or an address, comparing for equality and doing nothing are no
operations of the machine; the assembler writes words of other operations for them, and how many
depends on the number, or on when a label became known.  Whatever words these are, carrying them out
gives one register the value that the line asks for, as seen before the line, and changes nothing
else.

* `Assembly.abbreviations_carried_out` — **abbreviations of assembled programs do what they say**.
-/

import StackCompiler.Proofs.ImplementedWords

namespace StackCompiler.Assembly

open Operand hiding none
open Machine (Ready)

/-- The mnemonics that stand for words of other operations and do not branch. -/
def Mnemonic.isAbbreviation : Mnemonic → Bool
  | move | li | la | seq | nop => true
  | _ => false

/-- **What an abbreviation asks for**: a register and the value that it gets, by the registers
before it.  Doing nothing gives register zero its value. -/
inductive Gives (labels : Labels) (regs : Registers) :
    Mnemonic → List Text → Register → UInt32 → Prop where
  | copied {d s : Text} {rd rs : Register} (hd : register d = .ok rd) (hs : register s = .ok rs) :
      Gives labels regs .move [d, s] rd (regs.get rs)
  | number {d t : Text} {rd : Register} {n : Int} (hd : register d = .ok rd)
      (hn : immediate t = .ok n) (hlo : -2 ^ 31 ≤ n) (hhi : n < 2 ^ 32) :
      Gives labels regs .li [d, t] rd (UInt32.ofInt n)
  | label {d t : Text} {rd : Register} {a : UInt32} (hd : register d = .ok rd)
      (ht : Text.isIdentifier t = true) (ha : labels[t]? = some a) :
      Gives labels regs .la [d, t] rd a
  | address {d t : Text} {rd : Register} {n : Int} (hd : register d = .ok rd)
      (ht : Text.isIdentifier t = false) (hn : immediate t = .ok n) (hlo : -2 ^ 31 ≤ n)
      (hhi : n < 2 ^ 32) : Gives labels regs .la [d, t] rd (UInt32.ofInt n)
  | equality {d s t : Text} {rd rs rt : Register} (hd : register d = .ok rd)
      (hs : register s = .ok rs) (ht : register t = .ok rt) :
      Gives labels regs .seq [d, s, t] rd (if regs.get rs = regs.get rt then 1 else 0)
  | nothing : Gives labels regs .nop [] Register.zero 0

theorem Operand.wordValue_ok {t : Text} {n : Int} (h : wordValue t = .ok n) :
    immediate t = .ok n ∧ -2 ^ 31 ≤ n ∧ n < 2 ^ 32 := by
  obtain ⟨v, hv, h⟩ := bind_ok_iff.1 h
  split at h
  · cases h
  · obtain rfl := Except.ok.inj h
    exact ⟨hv, by omega, by omega⟩

/-- The last operand of `la` is a label or a number. -/
theorem gives_target {labels : Labels} {regs : Registers} {d t : Text} {rd : Register} {a : UInt32}
    (hd : register d = .ok rd) (ha : target labels t = .ok a) :
    Gives labels regs .la [d, t] rd a := by
  unfold target at ha
  split at ha
  · next ht => exact .label hd ht (label_ok ha)
  · next ht =>
    obtain ⟨n, hn, rfl⟩ := bind_pure_ok_iff.1 ha
    obtain ⟨hn, hlo, hhi⟩ := wordValue_ok hn
    exact .address hd (Bool.eq_false_iff.2 ht) hn hlo hhi

section Words

variable {elide : Bool} {image : Image} {known : Labels} {operands : List Text} {ws : List UInt32}
  {k : Nat} {m : Machine}

/-- **The words of an abbreviation give a register the value that it asks for.** -/
theorem Mnemonic.carried_out {mn : Mnemonic} (hmn : mn.isAbbreviation)
    (hsize : mn.size elide known operands = .ok ws.length)
    (hencode : mn.encode image.labels (addressOf k) ws.length operands = .ok ws)
    (hholds : image.Holds k ws) (hk : k + ws.length ≤ 2 ^ 30) (hm : Ready image.words k m)
    (hzero : m.regs.get Register.zero = 0) :
    ∃ rd v, rd < 32 ∧ Gives image.labels m.regs mn operands rd v ∧
      m.Goes ws.length (m.given rd v (addressOf (k + ws.length)) ws.length) := by
  cases mn with
  | operation _ | beqz | bnez | b => cases hmn
  | move =>
      obtain ⟨⟨d, s⟩, htwo, h⟩ := bind_ok_iff.1 hencode
      obtain rfl := two_ok htwo
      obtain ⟨rd, hd, h⟩ := bind_ok_iff.1 h
      obtain ⟨rs, hs, rfl⟩ := bind_pure_ok_iff.1 h
      exact ⟨rd, _, register_lt hd, .copied hd hs,
        hm.copies hk hzero (register_lt hd) (register_lt hs) (hholds.getElem? (i := 0) rfl)⟩
  | li =>
      obtain ⟨⟨d, t⟩, htwo, hcount⟩ :=
        bind_ok_iff.1 (show sizeNumber operands = .ok ws.length from hsize)
      obtain rfl := two_ok htwo
      obtain ⟨n, hn, hcount⟩ := bind_ok_iff.1 hcount
      obtain ⟨hn, hlo, hhi⟩ := wordValue_ok hn
      have h : encodeNumber [d, t] ws.length = .ok ws := hencode
      rw [encodeNumber_eq, ← pure_ok_iff.1 hcount] at h
      obtain ⟨rd, hd, h⟩ := bind_ok_iff.1 h
      rw [hn, ok_bind] at h
      exact ⟨rd, _, register_lt hd, .number hd hn hlo hhi,
        hm.loads_number hk hzero (register_lt hd) (pure_ok_iff.1 h) hholds⟩
  | la =>
      obtain ⟨⟨d, t⟩, htwo, -⟩ := bind_ok_iff.1 hsize
      obtain rfl := two_ok htwo
      have h : encodeAddress image.labels [d, t] ws.length = .ok ws := hencode
      rw [encodeAddress_eq] at h
      obtain ⟨rd, hd, h⟩ := bind_ok_iff.1 h
      obtain ⟨a, ha, h⟩ := bind_ok_iff.1 h
      split at h
      · cases h
      · next hdrift =>
        exact ⟨rd, a, register_lt hd, gives_target hd ha,
          hm.loads_address hk (register_lt hd) hdrift (pure_ok_iff.1 h) hholds⟩
  | seq =>
      obtain ⟨⟨d, s, t⟩, hthree, h⟩ := bind_ok_iff.1 hencode
      obtain rfl := three_ok hthree
      obtain ⟨rd, hd, h⟩ := bind_ok_iff.1 h
      obtain ⟨rs, hs, h⟩ := bind_ok_iff.1 h
      obtain ⟨rt, ht, rfl⟩ := bind_pure_ok_iff.1 h
      have hgoes := hm.compares hk (register_lt hd) (register_lt hs) (register_lt ht) hholds
      simp only [Machine.ofBool, beq_iff_eq] at hgoes
      exact ⟨rd, _, register_lt hd, .equality hd hs ht, hgoes⟩
  | nop =>
      obtain ⟨_, hnone, rfl⟩ := bind_pure_ok_iff.1 hencode
      cases operands with
      | nil => exact ⟨Register.zero, 0, by decide, .nothing,
          hm.idles hk (hholds.getElem? (i := 0) rfl)⟩
      | cons _ _ => cases hnone

end Words

/-- **Abbreviations do what they say.**  A machine that is about to carry out the words of such a
line does so without a failure, whether it traps overflows or not.  Behind the line it is the same
as before, with one register given the value that the line asks for.  The line has to end within the
2³⁰ words that have an address; from the last of them the machine goes on at the first. -/
theorem abbreviations_carried_out {elide : Bool} {lines : List Text} {image : Image}
    (h : assemble elide lines = .ok image) :
    ∃ ss parts, Statement.parseAll lines = .ok ss ∧ ByLine image ss parts ∧
      ∀ (i : Nat) (s : Statement) (w : Written) (mn : Mnemonic), ss[i]? = some s →
        s.instruction = some w → Mnemonic.ofName? w.mnemonic = some mn → mn.isAbbreviation →
        ∃ ws, parts[i]? = some ws ∧
          ∀ m : Machine, m.text = image.words → m.halted = false →
            m.regs.get Register.zero = 0 → m.pc.toNat = 4 * Emitted.wordsBefore parts i →
            Emitted.wordsBefore parts i + ws.length ≤ 2 ^ 30 →
            ∃ rd v, Gives image.labels m.regs mn w.operands rd v ∧
              m.stepUpTo ws.length = ({ m with
                regs := m.regs.set rd v
                pc := addressOf (Emitted.wordsBefore parts i + ws.length)
                steps := m.steps + ws.length }, none) ∧
              ∀ r, (m.regs.set rd v).get r =
                if r = rd ∧ rd ≠ Register.zero then v else m.regs.get r := by
  obtain ⟨ss, plan, parts, hss, -, -, hwords, hemitted⟩ := assemble_emitted h
  have hlines := hemitted.byLine hwords
  refine ⟨ss, parts, hss, hlines, ?_⟩
  intro i s w mn hs hw hmn habbreviation
  obtain ⟨x, -, ws, known, hknown, hrecords, hpart, hcount, hencode, -⟩ :=
    hemitted.instruction_part hs hw
  obtain rfl := Option.some.inj (hrecords.mnemonic.symm.trans hmn)
  have hsize := hrecords.words
  rw [← hcount, hrecords.operands] at hsize hencode
  rw [Nat.zero_add] at hencode
  refine ⟨ws, hpart, ?_⟩
  intro m htext hrunning hzero hpc hk
  have hpositive : 0 < ws.length := (Mnemonic.length_encode hsize hknown hencode).2
  have hready : Ready image.words (Emitted.wordsBefore parts i) m := by
    refine ⟨htext, hrunning, UInt32.toNat_inj.1 ?_⟩
    rw [hpc, addressOf_toNat (by omega)]
  obtain ⟨rd, v, hrd, hgives, hgoes⟩ :=
    Mnemonic.carried_out habbreviation hsize hencode (hlines.holds hpart) hk hready hzero
  refine ⟨rd, v, hgives, hgoes, ?_⟩
  intro r
  rw [Registers.get_set]
  simp only [hrd, and_true]
  rfl

/-- Lines that load an address before them, a number of two words, and compare a register with
another into itself. -/
def compareLines : List Listing.Line :=
  [.label .main, .code .la [.register 9, .label .main], .code .li [.register 8, .number (-70000)],
    .code .seq [.register 8, .register 8, .register 9], .code .move [.register 4, .register 8],
    .serve]

/-- The comparison, with all registers zero and overflows trapped. -/
theorem abbreviations_carried_out_compareLines :
    ∃ image, assemble true (compareLines.map Listing.Line.render) = .ok image ∧
      ∃ k, ∀ m : Machine, m = { Machine.ofWords image.words with
          pc := addressOf k, trapOverflow := true } →
        m.stepUpTo 2 = ({ m with
          regs := m.regs.set 8 1, pc := addressOf (k + 2), steps := m.steps + 2 }, none) := by
  have hformed : Listing.WellFormed compareLines :=
    ⟨by decide, by decide, by decide, by decide, by decide⟩
  obtain ⟨image, himage, hsize⟩ := hformed.assembles true
  obtain ⟨ss, parts, hss, hlines, hdo⟩ := abbreviations_carried_out himage
  obtain rfl : Listing.statements 1 compareLines = ss :=
    Except.ok.inj ((Listing.parseAll_readable hformed.complete.readable).symm.trans hss)
  obtain ⟨ws, hpart, hsteps⟩ := hdo 3 _ _ .seq rfl rfl rfl rfl
  obtain ⟨_, ws', hseq, hpart', hencode⟩ := hlines.encoded 3 _ _ rfl rfl
  obtain rfl := Option.some.inj hseq
  obtain rfl := Option.some.inj (hpart.symm.trans hpart')
  have hlength : ws.length = 2 := by
    rw [← Except.ok.inj hencode]
    rfl
  have hle := (hlines.holds hpart).le_size
  have htotal : image.words.size ≤ 12 := hsize
  refine ⟨image, himage, Emitted.wordsBefore parts 3, ?_⟩
  rintro m rfl
  obtain ⟨rd, v, hgives, hgoes, -⟩ := hsteps
    { Machine.ofWords image.words with
      pc := addressOf (Emitted.wordsBefore parts 3), trapOverflow := true }
    rfl rfl rfl (addressOf_toNat (by omega)) (by omega)
  cases hgives with
  | equality hd hs ht =>
      obtain rfl := Except.ok.inj hd
      obtain rfl := Except.ok.inj hs
      obtain rfl := Except.ok.inj ht
      rw [hlength] at hgoes
      exact hgoes

end StackCompiler.Assembly
