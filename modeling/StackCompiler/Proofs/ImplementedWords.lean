/-
**The machine carries out whatever is assembled.**

The assembler puts words together from operands that are written in one order, and the machine takes
them apart by fields that stand in another.  This module says once, for every operation, at which
places of a word its operands stand: the word of a line holds there what the line says, and the
machine looks at nothing else.  Abbreviations are made of the same operations.  So every word of an
assembled program is an operation, and since a program cannot change itself, no step of a run ever
meets a word that is none.

* `Assembly.says_of_encode` — **the word of an operation says what its line says**;
* `Assembly.Mnemonic.asksFor_encode` — **the words of an instruction ask for the operations that its
  mnemonic stands for**;
* `Assembly.assembled_implemented` — **no run of an assembled program meets a word that is no
  operation**.
-/

import StackCompiler.Proofs.ListingWords
import StackCompiler.Proofs.MachineSteps
import StackCompiler.Proofs.PassAgreement

namespace StackCompiler

open Fields (ofWord)

/-! ### Places for operands -/

/-- The places of a word at which operands stand.  An immediate is read in three ways. -/
inductive OperandPlace where
  | rd
  | rs
  | rt
  | amount
  | signed
  | unsigned
  | distance
  | index
deriving DecidableEq, Repr

/-- Two words agree on an operand. -/
def OperandPlace.Same (f g : Fields) : OperandPlace → Prop
  | rd => f.rd = g.rd
  | rs => f.rs = g.rs
  | rt => f.rt = g.rt
  | amount => f.shamt = g.shamt
  | signed | unsigned | distance => f.imm = g.imm
  | index => f.index = g.index

namespace Operation

/-- **Where the operands of an operation stand**, in the order in which they are written. -/
def places : Operation → List OperandPlace
  | add | addu | sub | subu | and | or | xor | nor | slt | sltu => [.rd, .rs, .rt]
  | sllv | srlv | srav => [.rd, .rt, .rs]
  | sll | srl | sra => [.rd, .rt, .amount]
  | mult | multu | div | divu => [.rs, .rt]
  | mfhi | mflo => [.rd]
  | jr => [.rs]
  | jalr => [.rd, .rs]
  | syscall => []
  | addi | addiu | slti | sltiu => [.rt, .rs, .signed]
  | andi | ori | xori => [.rt, .rs, .unsigned]
  | lui => [.rt, .unsigned]
  | lb | lh | lw | lbu | lhu | sb | sh | sw => [.rt, .signed, .rs]
  | beq | bne => [.rs, .rt, .distance]
  | blez | bgtz => [.rs, .distance]
  | j | jal => [.index]

/-- The operands of an operation with those that may be left out: the register that a jump links,
and the offset of a load or store. -/
def complete (o : Operation) : List Text → List Text
  | [a] => if o = jalr then [Register.ra.name, a] else [a]
  | [a, b] => if o.places = [.rt, .signed, .rs] then [a, text "0", b] else [a, b]
  | operands => operands

end Operation

namespace Machine

/-- **The machine looks at the places of an operation only.** -/
theorem perform_congr {o : Operation} {f g : Fields} (h : ∀ p ∈ o.places, p.Same f g) (m : Machine)
    (pc : UInt32) : m.failure? f o = m.failure? g o ∧ m.perform pc f o = m.perform pc g o := by
  have hd : .rd ∈ o.places → f.rd = g.rd := h .rd
  have hs : .rs ∈ o.places → f.rs = g.rs := h .rs
  have ht : .rt ∈ o.places → f.rt = g.rt := h .rt
  cases o with
  | add | addu | sub | subu | and | or | xor | nor | slt | sltu | sllv | srlv | srav | mult | multu
  | div | divu | mfhi | mflo | jr | jalr | syscall =>
      simp (disch := decide) only [failure?, perform, hd, hs, ht, and_self]
  | sll | srl | sra =>
      have ha : f.shamt = g.shamt := h .amount (by decide)
      simp (disch := decide) only [failure?, perform, hd, ht, ha, and_self]
  | addi | addiu | slti | sltiu | lb | lbu | sb | lh | lhu | sh | lw | sw =>
      have hi : f.imm = g.imm := h .signed (by decide)
      have ha : m.accessed f = m.accessed g := by rw [accessed, accessed, hs (by decide), hi]
      unfold failure? perform
      simp (disch := decide) only [ha, ht, hs, hi, and_self]
  | andi | ori | xori | lui =>
      have hi : f.imm = g.imm := h .unsigned (by decide)
      simp (disch := decide) only [failure?, perform, ht, hs, hi, and_self]
  | beq | bne | blez | bgtz =>
      have hi : f.imm = g.imm := h .distance (by decide)
      simp (disch := decide) only [failure?, perform, hs, ht, hi, and_self]
  | j | jal =>
      have hi : f.index = g.index := h .index (by decide)
      simp only [failure?, perform, hi, and_self]

end Machine

/-! ### What operands are read as -/

theorem Register.toUInt8_lt {n : Nat} (h : n < 32) : n.toUInt8 < 32 := by
  rw [UInt8.lt_iff_toNat_lt, Nat.toUInt8_eq, UInt8.toNat_ofNat_of_lt' (Nat.lt_trans h (by decide))]
  exact h

theorem Register.parse?_lt {t : Text} {r : Register} (h : Register.parse? t = some r) : r < 32 := by
  rcases Option.or_eq_some_iff.1 h with h | ⟨-, h⟩
  · unfold Register.ofName? at h
    split at h
    · obtain rfl := Option.some.inj h
      decide
    · obtain ⟨i, hi, rfl⟩ := Option.map_eq_some_iff.1 h
      exact Register.toUInt8_lt (List.findIdx?_eq_some_iff_getElem.1 hi).1
  · unfold Register.ofNumber? at h
    split at h
    · split at h
      · split at h
        · obtain rfl := Option.some.inj h
          exact Register.toUInt8_lt (by omega)
        · cases h
      · cases h
    · cases h

namespace Assembly.Operand

variable {labels : Labels} {pc : UInt32} {t : Text}

theorem register_lt {r : Register} (h : register t = .ok r) : r < 32 := by
  unfold register at h
  split at h
  · next hr =>
    obtain rfl := Except.ok.inj h
    exact Register.parse?_lt hr
  · cases h

theorem shift_ok {a : UInt32} (h : shift t = .ok a) :
    immediate t = .ok (a.toNat : Int) ∧ a &&& 31 = a := by
  obtain ⟨n, hn, h⟩ := bind_ok_iff.1 h
  split at h
  · cases h
  · obtain rfl := Except.ok.inj h
    have ha : (UInt32.ofInt n).toNat = n.toNat := by
      rw [UInt32.ofInt, UInt32.toNat_ofNat']
      omega
    refine ⟨by rw [hn, ha, Int.toNat_of_nonneg (by omega)], ?_⟩
    apply UInt32.toNat_inj.1
    rw [Word.and_mask_toNat _ 31 5 rfl, ha]
    omega

variable {imm : UInt16}

theorem signed16_ok (h : signed16 t = .ok imm) :
    immediate t = .ok imm.toInt16.toInt := by
  obtain ⟨n, hn, h⟩ := bind_ok_iff.1 h
  split at h
  · cases h
  · obtain rfl := Except.ok.inj h
    rw [Word.toInt_ofInt16 (by omega) (by omega), hn]

theorem unsigned16_ok (h : unsigned16 t = .ok imm) :
    immediate t = .ok (imm.toNat : Int) := by
  obtain ⟨n, hn, h⟩ := bind_ok_iff.1 h
  split at h
  · cases h
  · obtain rfl := Except.ok.inj h
    have hnat : (UInt16.ofInt n).toNat = n.toNat := by
      rw [UInt16.ofInt, UInt16.toNat_ofNat']
      omega
    rw [hn, hnat, Int.toNat_of_nonneg (by omega)]

theorem branch_ok (h : branch labels pc t = .ok imm) :
    ∃ a, labels[t]? = some a ∧ imm.toInt16.toInt = distance pc a := by
  obtain ⟨a, ha, h⟩ := bind_ok_iff.1 h
  dsimp only at h
  split at h
  · cases h
  · obtain rfl := Except.ok.inj h
    exact ⟨a, label_ok ha, Word.toInt_ofInt16 (by omega) (by omega)⟩

end Assembly.Operand

/-! ### What a word says -/

/-- What tells the operation of a word apart. -/
def Fields.code (f : Fields) : Operation.Code :=
  if f.op = 0 then .function f.funct else .primary f.op

namespace Operation

variable {o : Operation}

/-- **The operation of a word is the one with its code.** -/
theorem ofFields?_eq_some_iff {f : Fields} :
    ofFields? f = some o ↔ f.code = o.code := by
  unfold ofFields? Fields.code
  by_cases hop : f.op = 0
  · rw [if_pos hop, if_pos hop]
    refine ⟨fun h => (eq_code_of_ofFunction? h).symm, fun h => ?_⟩
    have hcode := ofCode?_code o
    rwa [← h] at hcode
  · rw [if_neg hop, if_neg hop]
    refine ⟨fun h => (eq_code_of_ofPrimary? h).symm, fun h => ?_⟩
    have hcode := ofCode?_code o
    rwa [← h] at hcode

end Operation

/-- **A word holds an operand at a place.**  A register stands for itself, a number for its last
bits with or without a sign, and a label for the distance from `pc` or for the number of a word. -/
def OperandPlace.Holds (labels : Assembly.Labels) (pc : UInt32) (f : Fields) (t : Text) :
    OperandPlace → Prop
  | rd => Assembly.Operand.register t = .ok f.rd
  | rs => Assembly.Operand.register t = .ok f.rs
  | rt => Assembly.Operand.register t = .ok f.rt
  | amount => Assembly.Operand.immediate t = .ok (f.shamt.toNat : Int)
  | signed => Assembly.Operand.immediate t = .ok f.imm.toInt16.toInt
  | unsigned => Assembly.Operand.immediate t = .ok (f.imm.toNat : Int)
  | distance => ∃ a, labels[t]? = some a ∧ f.imm.toInt16.toInt = Assembly.Operand.distance pc a
  | index => ∃ a, labels[t]? = some a ∧ f.index.toNat = a.toNat / 4 % 2 ^ 26

namespace Assembly

open Operand

/-- **A word says what a line says**: it has the code of the operation, and holds the operands at
the places of the operation. -/
structure Says (labels : Labels) (pc : UInt32) (o : Operation) (operands : List Text)
    (word : UInt32) : Prop where
  code : (ofWord word).code = o.code
  holds : List.Forall₂ (fun p t => p.Holds labels pc (ofWord word) t) o.places
    (o.complete operands)

section Forms

variable {labels : Labels} {pc : UInt32} {o : Operation} {operands : List Text} {w : UInt32}
  {funct op : UInt32}

theorem says_registers {rs rt rd : Register} {shamt : UInt32} (hcode : o.code = .function funct)
    (hs : rs < 32) (ht : rt < 32) (hd : rd < 32)
    (holds : ∀ f : Fields, f.rs = rs → f.rt = rt → f.rd = rd → f.shamt = shamt &&& 31 →
      List.Forall₂ (fun p t => p.Holds labels pc f t) o.places (o.complete operands)) :
    Says labels pc o operands (o.registerWord rs rt rd shamt) := by
  obtain ⟨ho, hrs, hrt, hrd, hshamt⟩ := Operation.registerWord_decoded hcode hs ht hd shamt
  exact ⟨Operation.ofFields?_eq_some_iff.1 ho, holds _ hrs hrt hrd hshamt⟩

theorem says_immediate {rs rt : Register} {imm : UInt16} (hcode : o.code = .primary op)
    (hs : rs < 32) (ht : rt < 32) (holds : ∀ f : Fields, f.rs = rs → f.rt = rt → f.imm = imm →
      List.Forall₂ (fun p t => p.Holds labels pc f t) o.places (o.complete operands)) :
    Says labels pc o operands (o.immediateWord rs rt imm) := by
  obtain ⟨ho, hrs, hrt, himm⟩ := Operation.immediateWord_decoded hcode hs ht imm
  exact ⟨Operation.ofFields?_eq_some_iff.1 ho, holds _ hrs hrt himm⟩

theorem says_threeRegisters (hcode : o.code = .function funct)
    (hplaces : o.places = [.rd, .rs, .rt]) (h : threeRegisters o operands = .ok w) :
    Says labels pc o operands w := by
  obtain ⟨⟨d, s, t⟩, hthree, hw⟩ := bind_ok_iff.1 h
  obtain rfl := three_ok hthree
  obtain ⟨rd, hd, hw⟩ := bind_ok_iff.1 hw
  obtain ⟨rs, hs, hw⟩ := bind_ok_iff.1 hw
  obtain ⟨rt, ht, rfl⟩ := bind_pure_ok_iff.1 hw
  refine says_registers hcode (register_lt hs) (register_lt ht) (register_lt hd) ?_
  rintro f rfl rfl rfl -
  rw [hplaces]
  exact .cons hd (.cons hs (.cons ht .nil))

theorem says_shiftByRegister (hcode : o.code = .function funct)
    (hplaces : o.places = [.rd, .rt, .rs]) (h : shiftByRegister o operands = .ok w) :
    Says labels pc o operands w := by
  obtain ⟨⟨d, t, s⟩, hthree, hw⟩ := bind_ok_iff.1 h
  obtain rfl := three_ok hthree
  obtain ⟨rd, hd, hw⟩ := bind_ok_iff.1 hw
  obtain ⟨rt, ht, hw⟩ := bind_ok_iff.1 hw
  obtain ⟨rs, hs, rfl⟩ := bind_pure_ok_iff.1 hw
  refine says_registers hcode (register_lt hs) (register_lt ht) (register_lt hd) ?_
  rintro f rfl rfl rfl -
  rw [hplaces]
  exact .cons hd (.cons ht (.cons hs .nil))

theorem says_shiftByAmount (hcode : o.code = .function funct)
    (hplaces : o.places = [.rd, .rt, .amount]) (h : shiftByAmount o operands = .ok w) :
    Says labels pc o operands w := by
  obtain ⟨⟨d, t, n⟩, hthree, hw⟩ := bind_ok_iff.1 h
  obtain rfl := three_ok hthree
  obtain ⟨rd, hd, hw⟩ := bind_ok_iff.1 hw
  obtain ⟨rt, ht, hw⟩ := bind_ok_iff.1 hw
  obtain ⟨a, ha, rfl⟩ := bind_pure_ok_iff.1 hw
  obtain ⟨hn, hmask⟩ := shift_ok ha
  refine says_registers hcode (by decide) (register_lt ht) (register_lt hd) ?_
  rintro f - rfl rfl hf
  obtain rfl := hf.trans hmask
  rw [hplaces]
  exact .cons hd (.cons ht (.cons hn .nil))

theorem says_multiply (hcode : o.code = .function funct) (hplaces : o.places = [.rs, .rt])
    (h : multiply o operands = .ok w) : Says labels pc o operands w := by
  obtain ⟨⟨s, t⟩, htwo, hw⟩ := bind_ok_iff.1 h
  obtain rfl := two_ok htwo
  obtain ⟨rs, hs, hw⟩ := bind_ok_iff.1 hw
  obtain ⟨rt, ht, rfl⟩ := bind_pure_ok_iff.1 hw
  refine says_registers hcode (register_lt hs) (register_lt ht) (by decide) ?_
  rintro f rfl rfl - -
  rw [Operation.complete, hplaces, if_neg (by decide)]
  exact .cons hs (.cons ht .nil)

theorem says_fromProduct (hcode : o.code = .function funct) (hplaces : o.places = [.rd])
    (hne : o ≠ .jalr) (h : fromProduct o operands = .ok w) : Says labels pc o operands w := by
  obtain ⟨d, hone, hw⟩ := bind_ok_iff.1 h
  obtain rfl := one_ok hone
  obtain ⟨rd, hd, rfl⟩ := bind_pure_ok_iff.1 hw
  refine says_registers hcode (by decide) (by decide) (register_lt hd) ?_
  rintro f - - rfl -
  rw [Operation.complete, hplaces, if_neg hne]
  exact .cons hd .nil

theorem says_jumpRegister (h : jumpRegister operands = .ok w) : Says labels pc .jr operands w := by
  obtain ⟨s, hone, hw⟩ := bind_ok_iff.1 h
  obtain rfl := one_ok hone
  obtain ⟨rs, hs, rfl⟩ := bind_pure_ok_iff.1 hw
  refine says_registers rfl (register_lt hs) (by decide) (by decide) ?_
  rintro f rfl - - -
  exact .cons hs .nil

theorem says_jumpLinkRegister (h : jumpLinkRegister operands = .ok w) :
    Says labels pc .jalr operands w := by
  unfold jumpLinkRegister at h
  split at h
  · obtain ⟨rs, hs, rfl⟩ := bind_pure_ok_iff.1 h
    refine says_registers rfl (register_lt hs) (by decide) (by decide) ?_
    rintro f rfl - hd -
    have hra : register Register.ra.name = .ok f.rd := by
      rw [hd]
      exact register_name (by decide)
    exact .cons hra (.cons hs .nil)
  · obtain ⟨rd, hd, h⟩ := bind_ok_iff.1 h
    obtain ⟨rs, hs, rfl⟩ := bind_pure_ok_iff.1 h
    refine says_registers rfl (register_lt hs) (by decide) (register_lt hd) ?_
    rintro f rfl - rfl -
    exact .cons hd (.cons hs .nil)
  · cases h

theorem says_withImmediate {read : Text → Except Cause UInt16} {place : OperandPlace}
    (hcode : o.code = .primary op) (hplaces : o.places = [.rt, .rs, place])
    (hread : ∀ t f, read t = .ok f.imm → place.Holds labels pc f t)
    (h : withImmediate o read operands = .ok w) : Says labels pc o operands w := by
  obtain ⟨⟨t, s, n⟩, hthree, hw⟩ := bind_ok_iff.1 h
  obtain rfl := three_ok hthree
  obtain ⟨rt, ht, hw⟩ := bind_ok_iff.1 hw
  obtain ⟨rs, hs, hw⟩ := bind_ok_iff.1 hw
  obtain ⟨imm, hn, rfl⟩ := bind_pure_ok_iff.1 hw
  refine says_immediate hcode (register_lt hs) (register_lt ht) ?_
  rintro f rfl rfl rfl
  rw [hplaces]
  exact .cons ht (.cons hs (.cons (hread n f hn) .nil))

theorem says_loadUpperImmediate (h : loadUpperImmediate operands = .ok w) :
    Says labels pc .lui operands w := by
  obtain ⟨⟨t, n⟩, htwo, hw⟩ := bind_ok_iff.1 h
  obtain rfl := two_ok htwo
  obtain ⟨rt, ht, hw⟩ := bind_ok_iff.1 hw
  obtain ⟨imm, hn, rfl⟩ := bind_pure_ok_iff.1 hw
  refine says_immediate rfl (by decide) (register_lt ht) ?_
  rintro f - rfl rfl
  exact .cons ht (.cons (unsigned16_ok hn) .nil)

theorem memoryAccess_ok (h : memoryAccess o operands = .ok w) :
    ∃ t n s rt rs imm, (operands = [t, n, s] ∨ operands = [t, s] ∧ n = text "0") ∧
      register t = .ok rt ∧ register s = .ok rs ∧ signed16 n = .ok imm ∧
      w = o.immediateWord rs rt imm := by
  have key : ∀ t n s, (do
      let rt ← register t
      let rs ← register s
      let imm ← signed16 n
      return o.immediateWord rs rt imm) = .ok w →
      ∃ rt rs imm, register t = .ok rt ∧ register s = .ok rs ∧ signed16 n = .ok imm ∧
        w = o.immediateWord rs rt imm := by
    intro t n s h
    obtain ⟨rt, ht, h⟩ := bind_ok_iff.1 h
    obtain ⟨rs, hs, h⟩ := bind_ok_iff.1 h
    obtain ⟨imm, hn, h⟩ := bind_ok_iff.1 h
    exact ⟨rt, rs, imm, ht, hs, hn, (pure_ok_iff.1 h).symm⟩
  unfold memoryAccess at h
  dsimp only at h
  split at h
  · next t s =>
    obtain ⟨rt, rs, imm, h⟩ := key t _ s h
    exact ⟨t, _, s, rt, rs, imm, .inr ⟨rfl, rfl⟩, h⟩
  · next t n s =>
    obtain ⟨rt, rs, imm, h⟩ := key t n s h
    exact ⟨t, n, s, rt, rs, imm, .inl rfl, h⟩
  · cases h

theorem says_memoryAccess (hcode : o.code = .primary op) (hplaces : o.places = [.rt, .signed, .rs])
    (h : memoryAccess o operands = .ok w) : Says labels pc o operands w := by
  obtain ⟨t, n, s, rt, rs, imm, hoperands, ht, hs, hn, rfl⟩ := memoryAccess_ok h
  have hcomplete : o.complete operands = [t, n, s] := by
    rcases hoperands with rfl | ⟨rfl, rfl⟩
    · rfl
    · rw [Operation.complete, if_pos hplaces]
  refine says_immediate hcode (register_lt hs) (register_lt ht) ?_
  rintro f rfl rfl rfl
  rw [hcomplete, hplaces]
  exact .cons ht (.cons (signed16_ok hn) (.cons hs .nil))

theorem says_branchTwo (hcode : o.code = .primary op) (hplaces : o.places = [.rs, .rt, .distance])
    (h : branchTwo o labels pc operands = .ok w) : Says labels pc o operands w := by
  obtain ⟨⟨s, t, l⟩, hthree, hw⟩ := bind_ok_iff.1 h
  obtain rfl := three_ok hthree
  obtain ⟨rs, hs, hw⟩ := bind_ok_iff.1 hw
  obtain ⟨rt, ht, hw⟩ := bind_ok_iff.1 hw
  obtain ⟨imm, hl, rfl⟩ := bind_pure_ok_iff.1 hw
  refine says_immediate hcode (register_lt hs) (register_lt ht) ?_
  rintro f rfl rfl rfl
  rw [hplaces]
  exact .cons hs (.cons ht (.cons (branch_ok hl) .nil))

theorem branchOne_ok (h : branchOne o labels pc operands = .ok w) :
    ∃ s l rs imm, operands = [s, l] ∧ register s = .ok rs ∧ branch labels pc l = .ok imm ∧
      w = o.immediateWord rs Register.zero imm := by
  obtain ⟨⟨s, l⟩, htwo, hw⟩ := bind_ok_iff.1 h
  obtain ⟨rs, hs, hw⟩ := bind_ok_iff.1 hw
  obtain ⟨imm, hl, hw⟩ := bind_ok_iff.1 hw
  exact ⟨s, l, rs, imm, two_ok htwo, hs, hl, (pure_ok_iff.1 hw).symm⟩

theorem says_branchOne (hcode : o.code = .primary op) (hplaces : o.places = [.rs, .distance])
    (h : branchOne o labels pc operands = .ok w) : Says labels pc o operands w := by
  obtain ⟨s, l, rs, imm, rfl, hs, hl, rfl⟩ := branchOne_ok h
  refine says_immediate hcode (register_lt hs) (by decide) ?_
  rintro f rfl - rfl
  rw [Operation.complete, hplaces, if_neg (by decide)]
  exact .cons hs (.cons (branch_ok hl) .nil)

theorem says_jumpTo (hcode : o.code = .primary op) (hplaces : o.places = [.index]) (hne : o ≠ .jalr)
    (h : jumpTo o labels operands = .ok w) : Says labels pc o operands w := by
  obtain ⟨l, hone, hw⟩ := bind_ok_iff.1 h
  obtain rfl := one_ok hone
  obtain ⟨a, ha, rfl⟩ := bind_pure_ok_iff.1 hw
  obtain ⟨ho, hindex⟩ := Operation.jumpWord_decoded hcode (a &&& 0x0FFFFFFF)
  refine ⟨Operation.ofFields?_eq_some_iff.1 ho, ?_⟩
  rw [Operation.complete, hplaces, if_neg hne]
  refine .cons ⟨a, label_ok ha, ?_⟩ .nil
  rw [hindex, Word.bits_toNat _ 2 _ 26 (by decide) rfl, Word.and_mask_toNat _ 0x0FFFFFFF 28 rfl]
  show a.toNat % 2 ^ 28 / 2 ^ 2 % 2 ^ 26 = a.toNat / 4 % 2 ^ 26
  omega

/-- **The word of an operation says what its line says.** -/
theorem says_of_encode (h : encodeOperation labels pc o operands = .ok w) :
    Says labels pc o operands w := by
  cases o with
  | add | addu | sub | subu | and | or | xor | nor | slt | sltu =>
      exact says_threeRegisters rfl rfl h
  | sllv | srlv | srav => exact says_shiftByRegister rfl rfl h
  | sll | srl | sra => exact says_shiftByAmount rfl rfl h
  | mult | multu | div | divu => exact says_multiply rfl rfl h
  | mfhi | mflo => exact says_fromProduct rfl rfl (by decide) h
  | jr => exact says_jumpRegister h
  | jalr => exact says_jumpLinkRegister h
  | syscall =>
      obtain ⟨_, hnone, rfl⟩ := bind_pure_ok_iff.1 h
      refine says_registers rfl (by decide) (by decide) (by decide) ?_
      intro f _ _ _ _
      cases operands with
      | nil => exact .nil
      | cons _ _ => cases hnone
  | addi | addiu | slti | sltiu =>
      exact says_withImmediate rfl rfl (fun _ _ => signed16_ok) h
  | andi | ori | xori => exact says_withImmediate rfl rfl (fun _ _ => unsigned16_ok) h
  | lui => exact says_loadUpperImmediate h
  | lb | lh | lw | lbu | lhu | sb | sh | sw => exact says_memoryAccess rfl rfl h
  | beq | bne => exact says_branchTwo rfl rfl h
  | blez | bgtz => exact says_branchOne rfl rfl h
  | j | jal => exact says_jumpTo rfl rfl (by decide) h

end Forms

/-! ### All words are operations -/

/-- A word is that of an operation. -/
def IsOperation (w : UInt32) : Prop := ∃ o, Operation.ofFields? (ofWord w) = some o

/-- A word is that of one of these operations. -/
def AsksFor (os : List Operation) (w : UInt32) : Prop :=
  ∃ o ∈ os, Operation.ofFields? (ofWord w) = some o

/-- The operations of which the words of a line are. -/
def Mnemonic.operations : Mnemonic → List Operation
  | operation o => [o]
  | move => [.add]
  | li => [.addiu, .ori, .lui]
  | la => [.lui, .ori]
  | seq => [.xor, .sltiu]
  | nop => [.sll]
  | beqz | b => [.beq]
  | bnez => [.bne]

variable {os : List Operation} {labels : Labels} {operands : List Text} {ws : List UInt32}
  {w : UInt32}

theorem AsksFor.isOperation (h : AsksFor os w) : IsOperation w := by
  obtain ⟨o, -, ho⟩ := h
  exact ⟨o, ho⟩

theorem AsksFor.mono {os' : List Operation} (h : AsksFor os w) (hos : os ⊆ os') :
    AsksFor os' w := by
  obtain ⟨o, hmem, ho⟩ := h
  exact ⟨o, hos hmem, ho⟩

variable {o : Operation} {pc : UInt32}

theorem Says.asksFor (h : Says labels pc o operands w) :
    AsksFor [o] w :=
  ⟨o, List.mem_singleton_self o, Operation.ofFields?_eq_some_iff.2 h.code⟩

theorem asksFor_registers {funct : UInt32} {rs rt rd : Register} (ho : o ∈ os)
    (hcode : o.code = .function funct) (hs : rs < 32) (ht : rt < 32) (hd : rd < 32) :
    AsksFor os (o.registerWord rs rt rd 0) :=
  ⟨o, ho, (Operation.registerWord_decoded hcode hs ht hd 0).1⟩

theorem asksFor_immediate {op : UInt32} {rs rt : Register} (imm : UInt16) (ho : o ∈ os)
    (hcode : o.code = .primary op) (hs : rs < 32) (ht : rt < 32) :
    AsksFor os (o.immediateWord rs rt imm) :=
  ⟨o, ho, (Operation.immediateWord_decoded hcode hs ht imm).1⟩

theorem asksFor_loadUpper {rd : Register} (hd : rd < 32) (v : UInt32) (n : Nat) :
    ∀ w ∈ loadUpper rd v n, AsksFor [.lui, .ori] w := by
  unfold loadUpper
  have hupper : AsksFor [.lui, .ori] (Operation.lui.immediateWord Register.zero rd
      (v >>> 16).toUInt16) :=
    asksFor_immediate _ List.mem_cons_self rfl (by decide) hd
  split
  · exact List.forall_mem_cons.2
      ⟨hupper, List.forall_mem_singleton.2 (asksFor_immediate _ (by decide) rfl hd hd)⟩
  · exact List.forall_mem_singleton.2 hupper

variable {n : Nat}

theorem asksFor_encodeNumber (h : encodeNumber operands n = .ok ws) :
    ∀ w ∈ ws, AsksFor Mnemonic.li.operations w := by
  obtain ⟨⟨d, t⟩, -, h⟩ := bind_ok_iff.1 h
  obtain ⟨rd, hd, h⟩ := bind_ok_iff.1 h
  obtain ⟨v, -, h⟩ := bind_ok_iff.1 h
  have hd := register_lt hd
  split at h
  · obtain rfl := pure_ok_iff.1 h
    exact List.forall_mem_singleton.2 (asksFor_immediate _ (by decide) rfl (by decide) hd)
  · split at h
    · obtain rfl := pure_ok_iff.1 h
      exact List.forall_mem_singleton.2 (asksFor_immediate _ (by decide) rfl (by decide) hd)
    · obtain rfl := pure_ok_iff.1 h
      exact fun w hw => (asksFor_loadUpper hd _ _ w hw).mono (by decide)

theorem asksFor_encodeAddress (h : encodeAddress labels operands n = .ok ws) :
    ∀ w ∈ ws, AsksFor Mnemonic.la.operations w := by
  obtain ⟨⟨d, t⟩, htwo, -⟩ := bind_ok_iff.1 h
  obtain rfl := two_ok htwo
  rw [encodeAddress_eq] at h
  obtain ⟨rd, hd, h⟩ := bind_ok_iff.1 h
  obtain ⟨a, -, h⟩ := bind_ok_iff.1 h
  split at h
  · cases h
  · obtain rfl := pure_ok_iff.1 h
    exact asksFor_loadUpper (register_lt hd) a n

/-- A register is copied by adding zero. -/
theorem Mnemonic.encode_move_ok (h : Mnemonic.move.encode labels pc n operands = .ok ws) :
    ∃ rs rd : Register, rs < 32 ∧ rd < 32 ∧
      ws = [Operation.add.registerWord rs Register.zero rd 0] := by
  obtain ⟨⟨d, s⟩, -, h⟩ := bind_ok_iff.1 h
  obtain ⟨rd, hd, h⟩ := bind_ok_iff.1 h
  obtain ⟨rs, hs, h⟩ := bind_ok_iff.1 h
  exact ⟨rs, rd, register_lt hs, register_lt hd, (pure_ok_iff.1 h).symm⟩

/-- **The words of an instruction ask for the operations that its mnemonic stands for.** -/
theorem Mnemonic.asksFor_encode {m : Mnemonic}
    (h : m.encode labels pc n operands = .ok ws) : ∀ w ∈ ws, AsksFor m.operations w := by
  cases m with
  | operation o =>
      obtain ⟨w, hw, rfl⟩ := bind_pure_ok_iff.1 h
      exact List.forall_mem_singleton.2 (says_of_encode hw).asksFor
  | move =>
      obtain ⟨rs, rd, hs, hd, rfl⟩ := encode_move_ok h
      exact List.forall_mem_singleton.2
        (asksFor_registers List.mem_cons_self rfl hs (by decide) hd)
  | li => exact asksFor_encodeNumber h
  | la => exact asksFor_encodeAddress h
  | seq =>
      obtain ⟨⟨d, s, t⟩, -, h⟩ := bind_ok_iff.1 h
      obtain ⟨rd, hd, h⟩ := bind_ok_iff.1 h
      obtain ⟨rs, hs, h⟩ := bind_ok_iff.1 h
      obtain ⟨rt, ht, rfl⟩ := bind_pure_ok_iff.1 h
      have hd := register_lt hd
      exact List.forall_mem_cons.2
        ⟨asksFor_registers List.mem_cons_self rfl (register_lt hs) (register_lt ht) hd,
          List.forall_mem_singleton.2 (asksFor_immediate _ (by decide) rfl hd hd)⟩
  | nop =>
      obtain ⟨_, -, rfl⟩ := bind_pure_ok_iff.1 h
      exact List.forall_mem_singleton.2 ⟨.sll, List.mem_cons_self, rfl⟩
  | beqz | bnez =>
      obtain ⟨w, hw, rfl⟩ := bind_pure_ok_iff.1 h
      obtain ⟨s, l, rs, imm, -, hs, -, rfl⟩ := branchOne_ok hw
      exact List.forall_mem_singleton.2
        (asksFor_immediate imm List.mem_cons_self rfl (register_lt hs) (by decide))
  | b =>
      obtain ⟨l, -, h⟩ := bind_ok_iff.1 h
      obtain ⟨imm, -, rfl⟩ := bind_pure_ok_iff.1 h
      exact List.forall_mem_singleton.2
        (asksFor_immediate imm List.mem_cons_self rfl (by decide) (by decide))

end Assembly

/-! ### Runs -/

namespace Machine

/-- A word is no operation. -/
def Stop.IsReserved : Stop → Prop
  | reservedOpcode _ | reservedFunction _ => True
  | _ => False

variable {m : Machine}

theorem not_isReserved_failure? {f : Fields} {o : Operation} {stop : Stop}
    (h : m.failure? f o = some stop) : ¬stop.IsReserved := by
  unfold failure? at h
  split at h <;> first
    | (split at h <;> cases h <;> exact id)
    | cases h

theorem mem_of_fetch? {w : UInt32} (h : m.fetch? = some w) : w ∈ m.text := by
  unfold fetch? at h
  split at h
  · exact Array.mem_of_getElem? h
  · cases h

/-- A step only fails for want of an operation if it has fetched a word that is none. -/
theorem not_isReserved_step (hwords : ∀ w ∈ m.text, Assembly.IsOperation w) {fault : Fault}
    (h : m.step.2 = some fault) : ¬fault.stop.IsReserved := by
  rw [step_eq] at h
  split at h
  · cases h
  · split at h
    · obtain rfl := Option.some.inj h
      exact id
    · next w hw =>
      split at h
      · next stop hstop =>
        obtain rfl := Option.some.inj h
        obtain ⟨o, ho⟩ := hwords w (mem_of_fetch? hw)
        unfold wordFailure? at hstop
        simp only [ho] at hstop
        exact not_isReserved_failure? hstop
      · cases h

end Machine

/-! ### Assembled programs -/

namespace Assembly

/-- The words of an image line by line: a line without an instruction has none, and any other has
those of its mnemonic, where they stand. -/
structure ByLine (image : Image) (ss : List Statement) (parts : List (List UInt32)) : Prop where
  count : parts.length = ss.length
  whole : image.words.toList = parts.flatten
  silent : ∀ (i : Nat) (s : Statement), ss[i]? = some s → s.instruction = none → parts[i]? = some []
  encoded : ∀ (i : Nat) (s : Statement) (w : Written), ss[i]? = some s → s.instruction = some w →
    ∃ m ws, Mnemonic.ofName? w.mnemonic = some m ∧ parts[i]? = some ws ∧
      m.encode image.labels (addressOf (Emitted.wordsBefore parts i)) ws.length w.operands = .ok ws

variable {image : Image} {ss : List Statement} {parts : List (List UInt32)}

theorem Emitted.byLine {elide : Bool} {xs : List Sized} {sources : List (UInt32 × Nat)}
    (h : Emitted elide image.labels 0 ss xs parts sources)
    (hwords : image.words.toList = parts.flatten) : ByLine image ss parts := by
  refine ⟨h.length_eq, hwords, fun i s => h.silent_part, ?_⟩
  intro i s w hs hw
  obtain ⟨x, -, ws, _, -, hrecords, hpart, hcount, hencode, -⟩ := h.instruction_part hs hw
  refine ⟨x.mnemonic, ws, hrecords.mnemonic, hpart, ?_⟩
  rwa [Nat.zero_add, hrecords.operands, ← hcount] at hencode

theorem assemble_byLine {elide : Bool} {lines : List Text} (h : assemble elide lines = .ok image) :
    ∃ ss parts, Statement.parseAll lines = .ok ss ∧ ByLine image ss parts := by
  obtain ⟨ss, plan, parts, hss, -, -, hwords, hemitted⟩ := assemble_emitted h
  exact ⟨ss, parts, hss, hemitted.byLine hwords⟩

/-- The words of a line stand in the image behind those of the lines before it. -/
theorem ByLine.holds (h : ByLine image ss parts) {i : Nat} {ws : List UInt32}
    (hpart : parts[i]? = some ws) : image.Holds (Emitted.wordsBefore parts i) ws := by
  obtain ⟨hlt, hws⟩ := List.getElem?_eq_some_iff.1 hpart
  refine ⟨(parts.take i).flatten, (parts.drop (i + 1)).flatten, ?_, rfl⟩
  rw [h.whole, ← hws, List.append_assoc, ← List.flatten_cons, ← List.drop_eq_getElem_cons hlt,
    ← List.flatten_append, List.take_append_drop]

/-- **Every word of an image comes from a line**, by the mnemonic of the line. -/
theorem ByLine.word (h : ByLine image ss parts) {word : UInt32} (hword : word ∈ image.words) :
    ∃ s ∈ ss, ∃ w m pc ws, s.instruction = some w ∧ Mnemonic.ofName? w.mnemonic = some m ∧
      m.encode image.labels pc ws.length w.operands = .ok ws ∧ word ∈ ws := by
  rw [← Array.mem_toList_iff, h.whole] at hword
  obtain ⟨ws, hws, hword⟩ := List.mem_flatten.1 hword
  obtain ⟨i, hi⟩ := List.mem_iff_getElem?.1 hws
  have hlt : i < ss.length := h.count ▸ (List.getElem?_eq_some_iff.1 hi).1
  have hs : ss[i]? = some ss[i] := List.getElem?_eq_getElem hlt
  cases hins : ss[i].instruction with
  | none =>
      obtain rfl := Option.some.inj (hi.symm.trans (h.silent i _ hs hins))
      cases hword
  | some instruction =>
      obtain ⟨m, ws', hm, hpart, hencode⟩ := h.encoded i _ instruction hs hins
      obtain rfl := Option.some.inj (hi.symm.trans hpart)
      exact ⟨_, List.getElem_mem hlt, instruction, m, _, ws, hins, hm, hencode, hword⟩

theorem ByLine.isOperation (h : ByLine image ss parts) : ∀ w ∈ image.words, IsOperation w := by
  intro word hword
  obtain ⟨s, -, w, m, pc, ws, -, -, hencode, hmem⟩ := h.word hword
  exact (Mnemonic.asksFor_encode hencode word hmem).isOperation

/-- **The machine carries out whatever is assembled.**  Whatever state it starts in, no step of a
run of an assembled program meets a word that is no operation.  The word of a line that names an
operation has the code of that operation and holds the operands of the line at the places of the
operation, and the machine looks at nothing else in it. -/
theorem assembled_implemented {elide : Bool} {lines : List Text} {image : Image}
    (h : assemble elide lines = .ok image) :
    (∀ m : Machine, m.text = image.words → ∀ k fault, (m.after k).step.2 = some fault →
      ¬fault.stop.IsReserved) ∧
    ∃ ss parts, Statement.parseAll lines = .ok ss ∧ ByLine image ss parts ∧
      ∀ (i : Nat) (s : Statement) (w : Written) (o : Operation), ss[i]? = some s →
        s.instruction = some w → Mnemonic.ofName? w.mnemonic = some (.operation o) →
        ∃ word, parts[i]? = some [word] ∧
          Says image.labels (addressOf (Emitted.wordsBefore parts i)) o w.operands word ∧
          ∀ (g : Fields), (∀ p ∈ o.places, p.Same g (ofWord word)) →
            ∀ (m : Machine) (pc : UInt32),
              m.failure? g o = m.failure? (ofWord word) o ∧
                m.perform pc g o = m.perform pc (ofWord word) o := by
  obtain ⟨ss, parts, hss, hlines⟩ := assemble_byLine h
  constructor
  · intro m hm k fault hfault
    refine Machine.not_isReserved_step ?_ hfault
    rw [Machine.text_after, hm]
    exact hlines.isOperation
  · refine ⟨ss, parts, hss, hlines, ?_⟩
    intro i s w o hs hw ho
    obtain ⟨m, ws, hm, hpart, hencode⟩ := hlines.encoded i s w hs hw
    obtain rfl := Option.some.inj (hm.symm.trans ho)
    obtain ⟨word, hword, hws⟩ := bind_ok_iff.1 hencode
    obtain rfl := pure_ok_iff.1 hws
    exact ⟨word, hpart, says_of_encode hword, fun g hg m pc => Machine.perform_congr hg m pc⟩

/-- A shift whose operands stand out of order, a jump with one register left out and a load with its
distance left out. -/
def shiftLines : List Text :=
  [text "sllv $t0, $t1, $t2", text "jalr $t0", text "lw $a0, ($sp)"]

theorem assembled_implemented_shiftLines :
    ∃ image, assemble true shiftLines = .ok image ∧
      (∀ m : Machine, m.text = image.words → ∀ k fault, (m.after k).step.2 = some fault →
        ¬fault.stop.IsReserved) ∧
      ∃ shift jump load, image.words = #[shift, jump, load] ∧
        (ofWord shift).code = .function 4 ∧ (ofWord shift).rd = 8 ∧
        (ofWord shift).rt = 9 ∧ (ofWord shift).rs = 10 ∧
        (ofWord jump).rd = 31 ∧ (ofWord jump).rs = 8 ∧
        (ofWord load).rt = 4 ∧ (ofWord load).imm.toInt16.toInt = 0 ∧
        (ofWord load).rs = 29 := by
  have hok : (assemble true shiftLines).isOk = true := by decide +kernel
  obtain ⟨image, himage⟩ : ∃ image, assemble true shiftLines = .ok image := by
    cases h : assemble true shiftLines with
    | ok image => exact ⟨image, rfl⟩
    | error e => rw [h] at hok; cases hok
  obtain ⟨hruns, ss, parts, hss, hlines, hsays⟩ := assembled_implemented himage
  have hread : Statement.parseAll shiftLines = .ok
      [⟨1, text "sllv $t0, $t1, $t2", [], some ⟨text "sllv", [text "$t0", text "$t1", text "$t2"]⟩⟩,
        ⟨2, text "jalr $t0", [], some ⟨text "jalr", [text "$t0"]⟩⟩,
        ⟨3, text "lw $a0, ($sp)", [], some ⟨text "lw", [text "$a0", text "$sp"]⟩⟩] := by
    decide +kernel
  obtain rfl := Except.ok.inj (hread.symm.trans hss)
  obtain ⟨shift, hshift, ⟨hcode, hshifts⟩, -⟩ := hsays 0 _ _ .sllv rfl rfl rfl
  obtain ⟨jump, hjump, ⟨-, hjumps⟩, -⟩ := hsays 1 _ _ .jalr rfl rfl rfl
  obtain ⟨load, hload, ⟨-, hloads⟩, -⟩ := hsays 2 _ _ .lw rfl rfl rfl
  obtain ⟨_, _, _, rfl⟩ := List.length_eq_three.1 hlines.count
  obtain rfl := Option.some.inj hshift
  obtain rfl := Option.some.inj hjump
  obtain rfl := Option.some.inj hload
  have hwords : image.words = #[shift, jump, load] := by
    have hlist : image.words.toList = [shift, jump, load] := hlines.whole
    exact Array.toList_inj.1 hlist
  obtain _ | ⟨hd, _ | ⟨ht, _ | ⟨hs, -⟩⟩⟩ := hshifts
  obtain _ | ⟨hjd, _ | ⟨hjs, -⟩⟩ := hjumps
  obtain _ | ⟨hlt, _ | ⟨hli, _ | ⟨hls, -⟩⟩⟩ := hloads
  exact ⟨image, himage, hruns, shift, jump, load, hwords, hcode, (Except.ok.inj hd).symm,
    (Except.ok.inj ht).symm, (Except.ok.inj hs).symm, (Except.ok.inj hjd).symm,
    (Except.ok.inj hjs).symm, (Except.ok.inj hlt).symm, (Except.ok.inj hli).symm,
    (Except.ok.inj hls).symm⟩

end Assembly

end StackCompiler
