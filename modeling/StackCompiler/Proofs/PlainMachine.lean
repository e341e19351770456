/-
**The plain stack machine.**

What a program without calls means, told without registers, frames or addresses: a stack of 32-bit
numbers with a sign, local variables that are zero at the start, and a list of what was printed.
Arithmetic is that of the integers, cut to 32 bits.  Jumps go to the instruction at an offset.  A
return ends the program with the top of the stack, or with zero if there is none, and so does
running off the end.

* `PlainMachine.product_word`, `PlainMachine.quotient_word`, `PlainMachine.shiftRight_word` and
  others — what is computed with words is what the machine says;
* `PlainMachine.step_frames` — a step is one of the machine with call frames, so what bounds the one
  bounds the other.
-/

import StackCompiler.Proofs.LineMeaning
import StackCompiler.Proofs.StackDepth

namespace StackCompiler.PlainMachine

open Instruction (effect offsets)
open Int32 (ofInt)

/-! ### Arithmetic -/

/-- One for truth and zero for falsehood. -/
def truth (b : Bool) : Int32 := if b then 1 else 0

/-- The number of bits by which an operand shifts. -/
def shiftCount (b : Int32) : Nat := (b.toInt % 32).toNat

/-- What an operation makes of two cells, the lower one first. -/
def binary? : Op → Option (Int32 → Int32 → Int32)
  | .iadd => some fun a b => ofInt (a.toInt + b.toInt)
  | .isub => some fun a b => ofInt (a.toInt - b.toInt)
  | .imul => some fun a b => ofInt (a.toInt * b.toInt)
  -- rounded toward zero
  | .idiv => some fun a b => if b = 0 then 0 else ofInt (a.toInt.tdiv b.toInt)
  | .ilt => some fun a b => truth (a.toInt < b.toInt)
  | .igt => some fun a b => truth (b.toInt < a.toInt)
  | .ieq => some fun a b => truth (a = b)
  | .and => some fun a b => a &&& b
  | .or => some fun a b => a ||| b
  | .xor => some fun a b => a ^^^ b
  | .shl => some fun a b => ofInt (a.toInt * 2 ^ shiftCount b)
  -- rounded down, so the sign is kept
  | .shr => some fun a b => ofInt (a.toInt / 2 ^ shiftCount b)
  | _ => none

/-! ### States -/

/-- A state of the stack machine. -/
structure State where
  place : Nat := 0
  stack : List Int32 := []
  locals : Nat → Int32 := fun _ => 0
  printed : List Int32 := []

namespace State

/-- Pushes a value. -/
def push (s : State) (v : Int32) : State := { s with stack := v :: s.stack }

/-- Pops a value. -/
def pop? (s : State) : Option (Int32 × State) :=
  match s.stack with
  | [] => none
  | v :: rest => some (v, { s with stack := rest })

/-- The top of the stack, or zero. -/
def top (s : State) : Int32 := s.stack.headD 0

/-- Gives a local slot a value. -/
def setLocal (s : State) (n : Nat) (v : Int32) : State :=
  { s with locals := fun k => if k = n then v else s.locals k }

theorem setLocal_locals (s : State) (n : Nat) (v : Int32) (k : Nat) :
    (s.setLocal n v).locals k = if k = n then v else s.locals k := rfl

/-- Prints a value. -/
def print (s : State) (v : Int32) : State := { s with printed := s.printed ++ [v] }

/-- Goes on at an instruction. -/
def goTo (s : State) (place : Nat) : State := { s with place }

@[simp] theorem goTo_place (s : State) (j : Nat) : (s.goTo j).place = j := rfl

@[simp] theorem goTo_stack (s : State) (j : Nat) : (s.goTo j).stack = s.stack := rfl

@[simp] theorem goTo_locals (s : State) (j : Nat) : (s.goTo j).locals = s.locals := rfl

@[simp] theorem goTo_printed (s : State) (j : Nat) : (s.goTo j).printed = s.printed := rfl

end State

/-! ### Steps -/

/-- What an instruction does to a state that neither jumps nor returns. -/
def act (ins : Instruction) (s : State) : Option State :=
  match ins.op with
  | .iconst => some (s.push (ins.operand 0))
  | .not => do
    let (a, s) ← s.pop?
    return s.push (truth (a = 0))
  | .dup => do
    let (a, s) ← s.pop?
    return (s.push a).push a
  | .swap => do
    let (b, s) ← s.pop?
    let (a, s) ← s.pop?
    return (s.push b).push a
  | .pop => do
    let (_, s) ← s.pop?
    return s
  | .load => some (s.push (s.locals (ins.half 0)))
  | .store => do
    let (a, s) ← s.pop?
    return s.setLocal (ins.half 0) a
  | .print => do
    let (a, s) ← s.pop?
    return s.print a
  | o => do
    let f ← binary? o
    let (b, s) ← s.pop?
    let (a, s) ← s.pop?
    return s.push (f a b)

/-- The index of the instruction at an offset, if there is one. -/
def placeAt? (list : List Instruction) (offset : Int) : Option Nat :=
  (offsets list).findIdx? fun (n : Nat) => (n : Int) = offset

/-- What becomes of a state. -/
inductive Outcome where
  | next (s : State)
  | exit (status : Int32)

/-- Goes on at the target of an instruction. -/
def jump (list : List Instruction) (ins : Instruction) (s : State) : Option Outcome :=
  (placeAt? list ins.target).map fun j => .next (s.goTo j)

/-- Pops a cell and goes to the target of a jump if `condition` says so, else to the next
instruction. -/
def jumpOn (list : List Instruction) (ins : Instruction) (condition : Int32 → Bool) (s : State) :
    Option Outcome := do
  let (a, s) ← s.pop?
  if condition a then jump list ins s else return .next (s.goTo (s.place + 1))

/-- **One step.** -/
def step (list : List Instruction) (s : State) : Option Outcome :=
  match list[s.place]? with
  | none => some (.exit s.top)
  | some ins =>
    match ins.op with
    | .ret => some (.exit s.top)
    | .jmp => jump list ins s
    | .jmpz => jumpOn list ins (· = 0) s
    | .jmpnz => jumpOn list ins (· ≠ 0) s
    | _ => (act ins s).map fun s => .next (s.goTo (s.place + 1))

/-- **A run** of fewer than `fuel` steps: the status with which it ends, and what it printed. -/
def run (list : List Instruction) : Nat → State → Option (Int32 × List Int32)
  | 0, _ => none
  | fuel + 1, s =>
    match step list s with
    | some (.next s') => run list fuel s'
    | some (.exit status) => some (status, s.printed)
    | none => none

/-! ### What words compute -/

section Words

open Machine (ofBool divide halves shiftArithmetic)

theorem word_inj {a b : Int32} : a.toUInt32 = b.toUInt32 ↔ a = b :=
  ⟨fun h => by cases a; cases b; exact congrArg _ h, congrArg _⟩

theorem word_eq_zero {a : Int32} : a.toUInt32 = 0 ↔ a = 0 := word_inj (b := 0)

theorem truth_word (b : Bool) : ofBool b = (truth b).toUInt32 := by
  cases b <;> rfl

theorem sum_word (a b : Int32) :
    a.toUInt32 + b.toUInt32 = (ofInt (a.toInt + b.toInt)).toUInt32 := by
  rw [Int32.ofInt_add, Int32.ofInt_toInt, Int32.ofInt_toInt, Int32.toUInt32_add]

theorem difference_word (a b : Int32) :
    a.toUInt32 - b.toUInt32 = (ofInt (a.toInt - b.toInt)).toUInt32 := by
  rw [Int32.ofInt_sub, Int32.ofInt_toInt, Int32.ofInt_toInt, Int32.toUInt32_sub]

/-- The lower half of the product of two words is the product, cut. -/
theorem product_word (a b : Int32) :
    (halves (a.toInt64 * b.toInt64).toUInt64).2 = (ofInt (a.toInt * b.toInt)).toUInt32 := by
  have h : (a.toInt64 * b.toInt64).toInt32 = a * b := by
    rw [Int64.toInt32_mul, Int32.toInt32_toInt64, Int32.toInt32_toInt64]
  rw [Int32.ofInt_mul, Int32.ofInt_toInt, Int32.ofInt_toInt, ← h]
  apply UInt32.toBitVec_inj.1
  show BitVec.setWidth 32 (a.toInt64 * b.toInt64).toBitVec =
    BitVec.signExtend 32 (a.toInt64 * b.toInt64).toBitVec
  rw [BitVec.signExtend_eq_setWidth_of_le _ (by decide)]

theorem quotient_word (a b : Int32) :
    (divide a.toUInt32 b.toUInt32).2 =
      (if b = 0 then 0 else ofInt (a.toInt.tdiv b.toInt)).toUInt32 := by
  unfold divide
  by_cases hb : b = 0
  · rw [if_pos hb, if_pos (word_eq_zero.2 hb)]
    rfl
  · -- the least number divided by minus one does not fit, and both sides cut it back to itself
    have hdiv : ofInt (a.toInt.tdiv b.toInt) = a / b := by
      apply Int32.toInt_inj.1
      rw [Int32.toInt_ofInt, Int32.toInt_div]
    rw [if_neg hb, if_neg fun h => hb (word_eq_zero.1 h), hdiv]
    rfl

theorem less_word (a b : Int32) :
    ofBool (a.toUInt32.toInt32 < b.toUInt32.toInt32) = (truth (a.toInt < b.toInt)).toUInt32 := by
  rw [truth_word]
  congr 2
  exact decide_eq_decide.2 Int32.lt_iff_toInt_lt

theorem equal_word (a b : Int32) :
    ofBool (a.toUInt32 == b.toUInt32) = (truth (a = b)).toUInt32 := by
  rw [truth_word]
  congr 2
  exact decide_eq_decide.2 word_inj

theorem negated_word (a : Int32) :
    ofBool (a.toUInt32 < UInt32.ofInt 1) = (truth (a = 0)).toUInt32 := by
  rw [truth_word]
  congr 2
  refine decide_eq_decide.2 ?_
  rw [← word_eq_zero, UInt32.lt_iff_toNat_lt, ← UInt32.toNat_inj]
  show _ < 1 ↔ _ = 0
  omega

theorem shiftCount_lt (b : Int32) : shiftCount b < 32 := by
  unfold shiftCount
  omega

theorem shiftCount_word (b : Int32) : b.toUInt32 &&& 31 = UInt32.ofNat (shiftCount b) := by
  have hb : b.toInt = (b.toUInt32.toNat : Int).bmod (2 ^ 32) := BitVec.toInt_eq_toNat_bmod _
  have hcount := shiftCount_lt b
  apply UInt32.toNat_inj.1
  rw [Word.and_mask_toNat _ 31 5 rfl, UInt32.toNat_ofNat_of_lt' (Nat.lt_trans hcount (by decide)),
    shiftCount, hb, Int.bmod_def]
  split <;> omega

theorem shiftLeft_word (a b : Int32) : a.toUInt32 <<< (b.toUInt32 &&& 31) =
    (ofInt (a.toInt * 2 ^ shiftCount b)).toUInt32 := by
  have hk := shiftCount_lt b
  rw [shiftCount_word]
  generalize shiftCount b = k at hk
  have hcount : (UInt32.ofNat k).toNat = k :=
    UInt32.toNat_ofNat_of_lt' (Nat.lt_trans hk (by decide))
  have hpower : (ofInt (2 ^ k)).toUInt32.toNat = 2 ^ k :=
    (by decide : ∀ k < 32, (ofInt (2 ^ k)).toUInt32.toNat = 2 ^ k) k hk
  rw [Int32.ofInt_mul, Int32.ofInt_toInt, Int32.toUInt32_mul]
  apply UInt32.toNat_inj.1
  rw [UInt32.toNat_shiftLeft, hcount, Nat.mod_eq_of_lt hk, Nat.shiftLeft_eq, UInt32.toNat_mul,
    hpower]

theorem quotient_range {x p : Int} (hp : 1 ≤ p) (hlo : -2 ^ 31 ≤ x) (hhi : x < 2 ^ 31) :
    -2 ^ 31 ≤ x / p ∧ x / p < 2 ^ 31 := by
  by_cases hx : 0 ≤ x
  · have hnonneg := Int.ediv_nonneg hx (show 0 ≤ p by omega)
    have hle := Int.ediv_le_self p hx
    omega
  · have hneg := Int.ediv_neg_of_neg_of_pos (show x < 0 by omega) (show 0 < p by omega)
    have hle : x ≤ x / p := by
      apply Int.le_ediv_of_mul_le (by omega)
      have := Int.mul_le_mul_of_nonpos_left (show x ≤ 0 by omega) hp
      omega
    omega

theorem shiftRight_word (a b : Int32) : shiftArithmetic a.toUInt32 (b.toUInt32 &&& 31) =
    (ofInt (a.toInt / 2 ^ shiftCount b)).toUInt32 := by
  have hk := shiftCount_lt b
  rw [shiftCount_word]
  generalize shiftCount b = k at hk
  have hamount : ((UInt32.ofNat k).toInt32.toBitVec.smod 32).toNat = k :=
    (by decide : ∀ k < 32, ((UInt32.ofNat k).toInt32.toBitVec.smod 32).toNat = k) k hk
  have hshift : a >>> (UInt32.ofNat k).toInt32 = ofInt (a.toInt / 2 ^ k) := by
    apply Int32.toBitVec_inj.1
    rw [Int32.toBitVec_shiftRight, Int32.toBitVec_ofInt, BitVec.sshiftRight', hamount]
    apply BitVec.eq_of_toInt_eq
    rw [BitVec.toInt_sshiftRight, BitVec.toInt_ofInt, Int.shiftRight_eq_div_pow,
      Int32.toInt_toBitVec]
    -- nothing is cut, because a quotient by a power of two is no larger than the number
    have hrange := quotient_range (p := 2 ^ k) (by exact_mod_cast Nat.one_le_two_pow)
      (Int32.le_toInt a) (Int32.toInt_lt a)
    push_cast
    exact (Int.bmod_eq_of_le (by simp; omega) (by simp; omega)).symm
  rw [← hshift]
  rfl

end Words

/-! ### What an instruction can do -/

variable {s s' : State} {ins : Instruction} {list : List Instruction}

/-- What pops a cell first finds one on the stack. -/
theorem pop?_bind {α : Type} {f : Int32 × State → Option α} {x : α} (h : s.pop?.bind f = some x) :
    ∃ a rest, s.stack = a :: rest ∧ f (a, { s with stack := rest }) = some x := by
  cases hstack : s.stack with
  | nil => simp [State.pop?, hstack] at h
  | cons a rest =>
      rw [State.pop?, hstack] at h
      exact ⟨a, rest, rfl, h⟩

/-- What an instruction does to a state that neither jumps nor returns, case by case. -/
inductive Acts (ins : Instruction) (s : State) : State → Prop
  | iconst : ins.op = .iconst → Acts ins s (s.push (ins.operand 0))
  | not {a : Int32} {rest : List Int32} : ins.op = .not → s.stack = a :: rest →
      Acts ins s { s with stack := truth (a = 0) :: rest }
  | dup {a : Int32} {rest : List Int32} : ins.op = .dup → s.stack = a :: rest →
      Acts ins s { s with stack := a :: a :: rest }
  | swap {a b : Int32} {rest : List Int32} : ins.op = .swap → s.stack = b :: a :: rest →
      Acts ins s { s with stack := a :: b :: rest }
  | pop {a : Int32} {rest : List Int32} : ins.op = .pop → s.stack = a :: rest →
      Acts ins s { s with stack := rest }
  | load : ins.op = .load → Acts ins s (s.push (s.locals (ins.half 0)))
  | store {a : Int32} {rest : List Int32} : ins.op = .store → s.stack = a :: rest →
      Acts ins s ({ s with stack := rest }.setLocal (ins.half 0) a)
  | print {a : Int32} {rest : List Int32} : ins.op = .print → s.stack = a :: rest →
      Acts ins s ({ s with stack := rest }.print a)
  | binary {f : Int32 → Int32 → Int32} {a b : Int32} {rest : List Int32} :
      binary? ins.op = some f → s.stack = b :: a :: rest →
      Acts ins s { s with stack := f a b :: rest }

theorem acts_of_act (h : act ins s = some s') : Acts ins s s' := by
  unfold act at h
  split at h
  · next hop =>
    obtain rfl := Option.some.inj h
    exact .iconst hop
  · next hop =>
    obtain ⟨a, rest, hstack, h⟩ := pop?_bind h
    obtain rfl := Option.some.inj h
    exact .not hop hstack
  · next hop =>
    obtain ⟨a, rest, hstack, h⟩ := pop?_bind h
    obtain rfl := Option.some.inj h
    exact .dup hop hstack
  · next hop =>
    obtain ⟨b, rest, hstack, h⟩ := pop?_bind h
    obtain ⟨a, rest', hstack', h⟩ := pop?_bind h
    obtain rfl : rest = a :: rest' := hstack'
    obtain rfl := Option.some.inj h
    exact .swap hop hstack
  · next hop =>
    obtain ⟨a, rest, hstack, h⟩ := pop?_bind h
    obtain rfl := Option.some.inj h
    exact .pop hop hstack
  · next hop =>
    obtain rfl := Option.some.inj h
    exact .load hop
  · next hop =>
    obtain ⟨a, rest, hstack, h⟩ := pop?_bind h
    obtain rfl := Option.some.inj h
    exact .store hop hstack
  · next hop =>
    obtain ⟨a, rest, hstack, h⟩ := pop?_bind h
    obtain rfl := Option.some.inj h
    exact .print hop hstack
  · obtain ⟨f, hf, h⟩ := Option.bind_eq_some_iff.1 h
    obtain ⟨b, rest, hstack, h⟩ := pop?_bind h
    obtain ⟨a, rest', hstack', h⟩ := pop?_bind h
    obtain rfl : rest = a :: rest' := hstack'
    obtain rfl := Option.some.inj h
    exact .binary hf hstack

theorem placeAt?_eq_some {offset : Int} {j : Nat} (h : placeAt? list offset = some j) :
    CallFrames.StandsAt list offset j := by
  obtain ⟨hlt, htarget, -⟩ := List.findIdx?_eq_some_iff_getElem.1 h
  exact ⟨(offsets list)[j], (of_decide_eq_true htarget).symm, List.getElem?_eq_getElem hlt⟩

/-- How a program goes on: with the next instruction, or with the target of a jump. -/
inductive GoesOn (list : List Instruction) (ins : Instruction) (s : State) : State → Prop
  | act {s' : State} : Acts ins s s' → GoesOn list ins s (s'.goTo (s.place + 1))
  | jump {j : Nat} : ins.op = .jmp → CallFrames.StandsAt list ins.target j →
      GoesOn list ins s (s.goTo j)
  | stay {a : Int32} {rest : List Int32} :
      ins.op = .jmpz ∧ a ≠ 0 ∨ ins.op = .jmpnz ∧ a = 0 → s.stack = a :: rest →
      GoesOn list ins s ({ s with stack := rest }.goTo (s.place + 1))
  | taken {a : Int32} {rest : List Int32} {j : Nat} :
      ins.op = .jmpz ∧ a = 0 ∨ ins.op = .jmpnz ∧ a ≠ 0 → s.stack = a :: rest →
      CallFrames.StandsAt list ins.target j → GoesOn list ins s ({ s with stack := rest }.goTo j)

theorem Acts.place_eq (h : Acts ins s s') : s'.place = s.place := by
  cases h <;> rfl

theorem jump_next (h : jump list ins s = some (.next s')) :
    ∃ j, CallFrames.StandsAt list ins.target j ∧ s' = s.goTo j := by
  obtain ⟨j, hj, heq⟩ := Option.map_eq_some_iff.1 h
  exact ⟨j, placeAt?_eq_some hj, (Outcome.next.inj heq).symm⟩

theorem jumpOn_next {condition : Int32 → Bool} (h : jumpOn list ins condition s = some (.next s')) :
    ∃ a rest, s.stack = a :: rest ∧
      (condition a = false ∧ s' = { s with stack := rest }.goTo (s.place + 1) ∨
        condition a = true ∧ ∃ j, CallFrames.StandsAt list ins.target j ∧
          s' = { s with stack := rest }.goTo j) := by
  obtain ⟨a, rest, hstack, h⟩ := pop?_bind h
  refine ⟨a, rest, hstack, ?_⟩
  cases hc : condition a with
  | false =>
      simp only [hc, Bool.false_eq_true, if_false] at h
      exact Or.inl ⟨rfl, (Outcome.next.inj (Option.some.inj h)).symm⟩
  | true =>
      simp only [hc, if_true] at h
      exact Or.inr ⟨rfl, jump_next h⟩

theorem goesOn_of_step (h : step list s = some (.next s')) :
    ∃ ins, list[s.place]? = some ins ∧ GoesOn list ins s s' := by
  unfold step at h
  split at h
  · cases h
  · next ins hins =>
    refine ⟨ins, hins, ?_⟩
    split at h
    · cases h
    · next hop =>
      obtain ⟨j, hj, rfl⟩ := jump_next h
      exact .jump hop hj
    · next hop =>
      obtain ⟨a, rest, hstack, ⟨ha, rfl⟩ | ⟨ha, j, hj, rfl⟩⟩ := jumpOn_next h
      · exact .stay (Or.inl ⟨hop, of_decide_eq_false ha⟩) hstack
      · exact .taken (Or.inl ⟨hop, of_decide_eq_true ha⟩) hstack hj
    · next hop =>
      obtain ⟨a, rest, hstack, ⟨ha, rfl⟩ | ⟨ha, j, hj, rfl⟩⟩ := jumpOn_next h
      · exact .stay (Or.inr ⟨hop, not_not.1 (of_decide_eq_false ha)⟩) hstack
      · exact .taken (Or.inr ⟨hop, of_decide_eq_true ha⟩) hstack hj
    · obtain ⟨s₁, hact, heq⟩ := Option.map_eq_some_iff.1 h
      obtain rfl := Outcome.next.inj heq
      have hacts := acts_of_act hact
      rw [hacts.place_eq]
      exact .act hacts

theorem exit_of_step {status : Int32} (h : step list s = some (.exit status)) :
    status = s.top ∧
      (list[s.place]? = none ∨ ∃ ins, list[s.place]? = some ins ∧ ins.op = .ret) := by
  have hjump : ∀ ins s', jump list ins s' ≠ some (.exit status) := by
    intro ins s' h
    obtain ⟨j, -, heq⟩ := Option.map_eq_some_iff.1 h
    cases heq
  have hjumpOn : ∀ ins condition, jumpOn list ins condition s ≠ some (.exit status) := by
    intro ins condition h
    obtain ⟨⟨a, s₁⟩, -, h⟩ := Option.bind_eq_some_iff.1 h
    dsimp only at h
    split at h
    · exact hjump ins s₁ h
    · cases h
  unfold step at h
  split at h
  · next hnone => exact ⟨(Outcome.exit.inj (Option.some.inj h)).symm, Or.inl hnone⟩
  · next ins hins =>
    split at h
    · next hop => exact ⟨(Outcome.exit.inj (Option.some.inj h)).symm, Or.inr ⟨ins, hins, hop⟩⟩
    · exact absurd h (hjump ins s)
    iterate 2 · exact absurd h (hjumpOn ins _)
    · obtain ⟨s₁, -, heq⟩ := Option.map_eq_some_iff.1 h
      cases heq

/-! ### The depth of the stack -/

theorem binary?_effect {f : Int32 → Int32 → Int32} (h : binary? ins.op = some f) :
    ins.effect = ⟨2, 1⟩ ∧ ins.op ≠ .ret ∧ ins.op ≠ .jmp ∧ ins.op ≠ .invoke := by
  unfold effect
  cases hop : ins.op <;> simp_all [binary?]

/-- What an instruction does to the depth of the stack is its effect. -/
theorem Acts.effect (h : Acts ins s s') :
    (ins.op ≠ .ret ∧ ins.op ≠ .jmp ∧ ins.op ≠ .invoke) ∧
      ins.effect.pops ≤ s.stack.length ∧
      s'.stack.length = s.stack.length - ins.effect.pops + ins.effect.pushes := by
  cases h with
  | iconst hop => simp [effect, hop, State.push]
  | not hop hstack | dup hop hstack | swap hop hstack | pop hop hstack =>
      simp [effect, hop, hstack]
  | load hop => simp [effect, hop, State.push]
  | store hop hstack => simp [effect, hop, hstack, State.setLocal]
  | print hop hstack => simp [effect, hop, hstack, State.print]
  | binary hf hstack =>
      obtain ⟨heffect, hops⟩ := binary?_effect hf
      exact ⟨hops, by simp [heffect, hstack], by simp [heffect, hstack]⟩

/-- **A step is one of the machine with call frames.** -/
theorem step_frames (hins : list[s.place]? = some ins) (h : GoesOn list ins s s') :
    CallFrames.Step list ⟨⟨s.place, s.stack.length⟩, []⟩ ⟨⟨s'.place, s'.stack.length⟩, []⟩ := by
  -- what a conditional jump pops does not depend on where it goes
  have hpopped : ins.op = .jmpz ∨ ins.op = .jmpnz → ins.effect = ⟨1, 0⟩ ∧
      ins.op ≠ .ret ∧ ins.op ≠ .jmp ∧ ins.op ≠ .invoke := by
    rintro (hop | hop) <;> simp [effect, hop]
  cases h with
  | @act s₁ hacts =>
      obtain ⟨⟨hret, hjmp, hcall⟩, hpops, hlength⟩ := hacts.effect
      rw [State.goTo_stack, hlength]
      exact .next hins hret hjmp hcall hpops
  | @jump j hop hj =>
      have heffect : ins.effect = ⟨0, 0⟩ := by simp [effect, hop]
      have hstep : CallFrames.Step list ⟨⟨s.place, s.stack.length⟩, []⟩
          ⟨⟨j, s.stack.length - ins.effect.pops + ins.effect.pushes⟩, []⟩ :=
        .jump hins (Or.inl hop) hj (by simp [heffect])
      rwa [heffect] at hstep
  | @stay a rest hop hstack =>
      obtain ⟨heffect, hret, hjmp, hcall⟩ := hpopped (hop.imp And.left And.left)
      have hlength : rest.length = s.stack.length - ins.effect.pops + ins.effect.pushes := by
        simp [heffect, hstack]
      rw [State.goTo_stack, hlength]
      exact .next hins hret hjmp hcall (by simp [heffect, hstack])
  | @taken a rest j hop hstack hj =>
      have hjumps : ins.op = .jmpz ∨ ins.op = .jmpnz := hop.imp And.left And.left
      obtain ⟨heffect, -⟩ := hpopped hjumps
      have hlength : rest.length = s.stack.length - ins.effect.pops + ins.effect.pushes := by
        simp [heffect, hstack]
      rw [State.goTo_stack, hlength]
      exact .jump hins (Or.inr hjumps) hj (by simp [heffect, hstack])

end StackCompiler.PlainMachine
