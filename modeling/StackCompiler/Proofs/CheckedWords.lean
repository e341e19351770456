/-
**Checks before work.**

The machine takes a word apart, looks at registers and addresses and changes its state in one go,
and each operation makes its own checks where it needs them.  Here the checks and the work are taken
apart: why an operation fails is one function of the state, and what it does if it does not fail is
another.  Each branch of the machine is the one and then the other, so whatever a word fails for, it
fails before it has changed anything, and a step can be spoken of by its two parts.

* `Machine.failure?`, `Machine.perform` — what an operation checks, and what it does;
* `Machine.special_eq`, `Machine.execute_eq` — **every branch checks before it works**;
* `Machine.execute_failed` — a word that fails leaves the state as it was;
* `Machine.step_eq` — **a step by its two parts**.
-/

import StackCompiler.Machine.Step

namespace StackCompiler

/-! ### Codes -/

namespace Operation

variable {o : Operation}

theorem eq_code_of_ofFunction? {funct : UInt32} (h : ofFunction? funct = some o) :
    o.code = .function funct := by
  unfold ofFunction? at h
  split at h <;> first
    | (next hnat => cases h; exact congrArg Code.function (UInt32.toNat_inj.1 hnat.symm))
    | cases h

theorem eq_code_of_ofPrimary? {op : UInt32} (h : ofPrimary? op = some o) :
    o.code = .primary op := by
  unfold ofPrimary? at h
  split at h <;> first
    | (next hnat => cases h; exact congrArg Code.primary (UInt32.toNat_inj.1 hnat.symm))
    | cases h

end Operation

namespace Machine

/-! ### The two parts -/

/-- The service that register `$v0` asks for. -/
def asked (m : Machine) : Option Service := Service.ofNumber? (m.regs.get Register.v0).toNat

/-- The address that a load or store with the given fields accesses. -/
def accessed (m : Machine) (f : Fields) : UInt32 := m.regs.get f.rs + Word.signExtend f.imm

/-- **Why an operation fails**, if it does: an unaligned access, an overflow that is trapped, or a
service that does not exist. -/
def failure? (m : Machine) (f : Fields) (o : Operation) : Option Stop :=
  match o with
  | .lh | .lhu | .sh => if m.accessed f &&& 1 = 0 then none else some .unaligned
  | .lw | .sw => if m.accessed f &&& 3 = 0 then none else some .unaligned
  | .add =>
    if m.trapOverflow && addOverflows (m.regs.get f.rs) (m.regs.get f.rt) then some .overflow
    else none
  | .addi =>
    if m.trapOverflow && addOverflows (m.regs.get f.rs) (Word.signExtend f.imm) then
      some .overflow
    else none
  | .sub =>
    if m.trapOverflow && subOverflows (m.regs.get f.rs) (m.regs.get f.rt) then some .overflow
    else none
  | .syscall => if m.asked.isSome then none else some (.badService (m.regs.get Register.v0))
  | _ => none

/-- **What an operation does** that does not fail, if its word with the given fields stands at `pc`.
The counter of the state is already behind it. -/
def perform (m : Machine) (pc : UInt32) (f : Fields) (o : Operation) : Machine :=
  let rs := m.regs.get f.rs
  let rt := m.regs.get f.rt
  let signed := Word.signExtend f.imm
  let unsigned := f.imm.toUInt32
  let address := m.accessed f
  let branch := Word.branchTarget pc f.imm
  let jump := Word.jumpTarget pc f.index
  match o with
  | .sll => m.setReg f.rd (rt <<< f.shamt)
  | .srl => m.setReg f.rd (rt >>> f.shamt)
  | .sra => m.setReg f.rd (shiftArithmetic rt f.shamt)
  | .sllv => m.setReg f.rd (rt <<< (rs &&& 31))
  | .srlv => m.setReg f.rd (rt >>> (rs &&& 31))
  | .srav => m.setReg f.rd (shiftArithmetic rt (rs &&& 31))
  | .jr => { m with pc := rs }
  | .jalr => { m.setReg f.rd m.pc with pc := rs }
  | .syscall =>
    match m.asked with
    | some s => m.serve s
    | none => m
  | .mfhi => m.setReg f.rd m.hi
  | .mflo => m.setReg f.rd m.lo
  | .mult => m.setHalves (halves (rs.toInt32.toInt64 * rt.toInt32.toInt64).toUInt64)
  | .multu => m.setHalves (halves (rs.toUInt64 * rt.toUInt64))
  | .div => m.setHalves (divide rs rt)
  | .divu => m.setHalves (divideUnsigned rs rt)
  | .add | .addu => m.setReg f.rd (rs + rt)
  | .sub | .subu => m.setReg f.rd (rs - rt)
  | .and => m.setReg f.rd (rs &&& rt)
  | .or => m.setReg f.rd (rs ||| rt)
  | .xor => m.setReg f.rd (rs ^^^ rt)
  | .nor => m.setReg f.rd (~~~(rs ||| rt))
  | .slt => m.setReg f.rd (ofBool (rs.toInt32 < rt.toInt32))
  | .sltu => m.setReg f.rd (ofBool (rs < rt))
  | .j => { m with pc := jump }
  | .jal => { m.setReg Register.ra (pc + 4) with pc := jump }
  | .beq => m.goIf (rs == rt) branch
  | .bne => m.goIf (rs != rt) branch
  | .blez => m.goIf (rs.toInt32 ≤ 0) branch
  | .bgtz => m.goIf (0 < rs.toInt32) branch
  | .addi | .addiu => m.setReg f.rt (rs + signed)
  | .slti => m.setReg f.rt (ofBool (rs.toInt32 < signed.toInt32))
  | .sltiu => m.setReg f.rt (ofBool (rs < signed))
  | .andi => m.setReg f.rt (rs &&& unsigned)
  | .ori => m.setReg f.rt (rs ||| unsigned)
  | .xori => m.setReg f.rt (rs ^^^ unsigned)
  | .lui => m.setReg f.rt (unsigned <<< 16)
  | .lb => m.setReg f.rt (m.memory.load address).toInt8.toInt32.toUInt32
  | .lbu => m.setReg f.rt (m.memory.load address).toUInt32
  | .lh => m.setReg f.rt (Word.signExtend (m.memory.loadHalf address))
  | .lhu => m.setReg f.rt (m.memory.loadHalf address).toUInt32
  | .lw => m.setReg f.rt (m.memory.loadWord address)
  | .sb => { m with memory := m.memory.store address rt.toUInt8 }
  | .sh => { m with memory := m.memory.storeHalf address rt.toUInt16 }
  | .sw => { m with memory := m.memory.storeWord address rt }

/-- Checks an operation and carries it out. -/
def attempt (m : Machine) (pc : UInt32) (f : Fields) (o : Operation) : Machine × Option Stop :=
  match m.failure? f o with
  | some stop => (m, some stop)
  | none => (m.perform pc f o, none)

/-- Why a word that is no operation is refused. -/
def reserved (f : Fields) : Stop :=
  if f.op = 0 then .reservedFunction f.funct else .reservedOpcode f.op

/-- Why a fetched word fails, if it does. -/
def wordFailure? (m : Machine) (word : UInt32) : Option Stop :=
  let f := Fields.ofWord word
  match Operation.ofFields? f with
  | none => some (reserved f)
  | some o => m.failure? f o

/-- What a word at `pc` does.  A word that is no operation does nothing. -/
def performWord (m : Machine) (pc word : UInt32) : Machine :=
  let f := Fields.ofWord word
  match Operation.ofFields? f with
  | none => m
  | some o => m.perform pc f o

/-! ### Every branch checks before it works -/

variable (m : Machine) (pc : UInt32) (f : Fields)

theorem syscall_eq : m.syscall = m.attempt pc f .syscall := by
  unfold syscall
  simp only [attempt, failure?, perform]
  cases hs : m.asked with
  | none | some =>
      rw [asked] at hs
      simp [hs]

/-- **Every branch for primary opcode zero checks before it works.** -/
theorem special_eq :
    m.special f (m.regs.get f.rs) (m.regs.get f.rt) =
      match Operation.ofFunction? f.funct with
      | some o => m.attempt pc f o
      | none => (m, some (.reservedFunction f.funct)) := by
  unfold special
  cases ho : Operation.ofFunction? f.funct with
  | none => rfl
  | some o =>
      have hcode := Operation.eq_code_of_ofFunction? ho
      cases o with
      | syscall => exact m.syscall_eq pc f
      | add | sub => simp only [setChecked, attempt, failure?]; split <;> rfl
      -- the others can not fail, or have a primary opcode
      | _ => first | rfl | cases hcode

/-- **Every branch checks before it works**, also those for the other primary opcodes. -/
theorem execute_eq_attempt (word : UInt32) :
    m.execute pc word =
      match Operation.ofFields? (Fields.ofWord word) with
      | some o => m.attempt pc (Fields.ofWord word) o
      | none => (m, some (reserved (Fields.ofWord word))) := by
  unfold execute
  generalize Fields.ofWord word = f
  by_cases hop : f.op = 0
  · simp only [Operation.ofFields?, reserved, if_pos hop]
    exact m.special_eq pc f
  · simp only [Operation.ofFields?, reserved, if_neg hop]
    cases ho : Operation.ofPrimary? f.op with
    | none => rfl
    | some o =>
        have hcode := Operation.eq_code_of_ofPrimary? ho
        cases o with
        | addi => simp only [setChecked, attempt, failure?]; split <;> rfl
        | lh | lhu | lw | sh | sw =>
            simp only [ne_eq, ite_not, attempt, failure?]
            change (if m.accessed f &&& _ = 0 then _ else _) = _
            split <;> rfl
        -- the others can not fail, or have a function code
        | _ => first | rfl | cases hcode

/-- **Why a word fails and what it does** determine what the machine does with it. -/
theorem execute_eq (word : UInt32) :
    m.execute pc word =
      match m.wordFailure? word with
      | some stop => (m, some stop)
      | none => (m.performWord pc word, none) := by
  rw [execute_eq_attempt, wordFailure?, performWord]
  cases Operation.ofFields? (Fields.ofWord word) with
  | none | some => rfl

/-! ### Failures -/

section Failures

variable {m pc f} {stop : Stop}

theorem attempt_failed {o : Operation} (h : (m.attempt pc f o).2 = some stop) :
    (m.attempt pc f o).1 = m := by
  unfold attempt at h ⊢
  split at h
  · rfl
  · cases h

theorem syscall_failed (h : m.syscall.2 = some stop) : m.syscall.1 = m := by
  rw [m.syscall_eq 0 (Fields.ofWord 0)] at h ⊢
  exact attempt_failed h

theorem special_failed (h : (m.special f (m.regs.get f.rs) (m.regs.get f.rt)).2 = some stop) :
    (m.special f (m.regs.get f.rs) (m.regs.get f.rt)).1 = m := by
  rw [m.special_eq 0] at h ⊢
  split at h
  · exact attempt_failed h
  · rfl

/-- **A word that fails leaves the state as it was.** -/
theorem execute_failed {word : UInt32} (h : (m.execute pc word).2 = some stop) :
    (m.execute pc word).1 = m := by
  rw [execute_eq_attempt] at h ⊢
  split at h
  · exact attempt_failed h
  · rfl

end Failures

/-! ### The step -/

/-- **A step by its two parts**: a word that fails is only counted and passed. -/
theorem step_eq :
    m.step =
      if m.halted then (m, none)
      else match m.fetch? with
        | none => (m, some ⟨m.pc, 0, .pcOutOfRange⟩)
        | some word =>
          match m.wordFailure? word with
          | some stop => (m.advance, some ⟨m.pc, word, stop⟩)
          | none => (m.advance.performWord m.pc word, none) := by
  rw [step]
  cases m.fetch? with
  | none => rfl
  | some word =>
      have hsame : m.advance.wordFailure? word = m.wordFailure? word := rfl
      simp only [execute_eq, hsame]
      cases m.wordFailure? word with
      | none | some => rfl

end Machine

end StackCompiler
