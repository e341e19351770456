/-
**What is wrong with an instruction, whatever it is lowered to.**

Both targets look at an instruction for themselves: whether something starts at the place that it
goes to, whether the frame has the slots that it names, whether a service can take its arguments.
This module says once what they look for.  An instruction with a fault is refused by both targets,
for a cause of the same kind.  An instruction without one is never refused for MIPS: no instruction
takes more scratch registers than there are.  The intermediate language can still refuse it, since
its jumps stay inside a function and it knows only some services.

* `Lowering.Mips.lines_operation` — **without a fault there are lines for MIPS**;
* `Lowering.ToIl.failsOnly_operation` — **without a fault only the limits of the intermediate
  language are left**;
* `Lowering.Mips.operation_of_faulty`, `Lowering.ToIl.operation_of_faulty` — **a fault is refused by
  both**.
-/

import StackCompiler.Lowering.ToIl
import StackCompiler.Proofs.GeneratedLines

namespace StackCompiler.Lowering

/-! ### Kinds of failures -/

/-- The kinds of failures: what they are about, without the particulars. -/
inductive Kind where
  /-- Nothing starts at the place that a jump or a call goes to. -/
  | badTarget
  | slotRange
  | serviceArguments
  | crossFunction
  | unsupportedService
  | noScratch
  | noEntry
  | frameTooLarge
deriving DecidableEq, Repr

/-- The kind of a cause. -/
def Cause.kind : Cause → Kind
  | badTarget _ | badCallee => .badTarget
  | slotRange .. | argumentRange .. => .slotRange
  | serviceRegisters _ | serviceArguments _ => .serviceArguments
  | crossFunction .. => .crossFunction
  | unsupportedService _ => .unsupportedService
  | noScratch => .noScratch

/-- The kind of a failure. -/
def Failure.kind : Failure → Kind
  | instruction _ _ cause => cause.kind
  | noEntry => .noEntry
  | frameTooLarge .. => .frameTooLarge

/-- The offset of the instruction that a failure is about, if it is about one. -/
def Failure.offset? : Failure → Option Nat
  | instruction offset _ _ => some offset
  | noEntry | frameTooLarge .. => none

/-- A limit of the intermediate language, which MIPS does not have. -/
def Kind.IsLimit (k : Kind) : Prop := k = .crossFunction ∨ k = .unsupportedService

/-- **What is wrong with an instruction**, whatever it is lowered to. -/
inductive Faulty (frame : Frame) (fs : Functions) (ins : Instruction) : Kind → Prop where
  | target (hop : ins.op ∈ [.jmp, .jmpz, .jmpnz, .invoke])
      (h : fs.startsAt ins.target = false) : Faulty frame fs ins .badTarget
  | slot (hop : ins.op ∈ [.load, .store]) (h : frame.localSlots ≤ Int64.ofNat (ins.half 0)) :
      Faulty frame fs ins .slotRange
  /-- The frame has fewer slots than it passes arguments. -/
  | arguments (hop : ins.op = .invoke) (htarget : fs.startsAt ins.target = true)
      (h : frame.localSlots < Int64.ofNat (ins.half 1)) : Faulty frame fs ins .slotRange
  /-- The service can not take as many arguments. -/
  | service (hop : ins.op = .syscall) (h : 4 < ins.half 1) : Faulty frame fs ins .serviceArguments

/-- An instruction with nothing wrong. -/
def Sound (frame : Frame) (fs : Functions) (ins : Instruction) : Prop :=
  ∀ kind, ¬Faulty frame fs ins kind

variable {ins : Instruction} {fs : Functions} {frame : Frame}

/-- If nothing is wrong with a jump or a call, something starts where it goes to. -/
theorem Sound.startsAt (h : Sound frame fs ins)
    (hop : ins.op ∈ [.jmp, .jmpz, .jmpnz, .invoke]) : fs.startsAt ins.target = true := by
  rw [← Bool.not_eq_false]
  exact fun hnone => h _ (.target hop hnone)

theorem sound_of_noBytes (h : ins.width = 0) : Sound frame fs ins := by
  have hops : ∀ o ∈ ([.jmp, .jmpz, .jmpnz, .invoke, .load, .store, .syscall] : List Op),
      o.width ≠ 0 := by decide
  have hbytes : ins.op ∉ ([.jmp, .jmpz, .jmpnz, .invoke, .load, .store, .syscall] : List Op) :=
    fun hmem => hops ins.op hmem h
  intro kind hfault
  cases hfault with
  | target hop _ | slot hop _ =>
      simp only [List.mem_cons, List.not_mem_nil, or_false] at hop hbytes
      tauto
  | arguments hop _ _ | service hop _ => simp [hop] at hbytes

theorem Faulty.ordinary {kind : Kind} (h : Faulty frame fs ins kind) : Mips.Ordinary ins :=
  Mips.ordinary_of_op rfl fun hwidth => sound_of_noBytes hwidth kind h

/-! ### MIPS -/

namespace Mips

open Drafting

variable {c : Context} {ins : Instruction}

theorem lines_call {f : Frame} {fs : Functions} (offset : Nat)
    (htarget : fs.startsAt ins.target = true) (hcount : ¬f.localSlots < Int64.ofNat (ins.half 1)) :
    ∃ ls, (call f fs offset ins).lines = .ok ls := by
  dsimp only [call, copyArguments]
  rw [targetLabel, if_pos htarget, pure_bind, if_neg hcount]
  -- the arguments are taken off the stack and copied only if there are any
  by_cases h0 : ins.half 1 = 0
  · simp only [if_pos h0, if_neg (not_not.2 h0)]
    exact ⟨_, rfl⟩
  · simp only [if_neg h0, if_pos (show ins.half 1 ≠ 0 from h0)]
    exact ⟨_, rfl⟩

/-- **Without a fault there are lines for MIPS.**  Which scratch registers an operation takes
depends on nothing, and there are always enough. -/
theorem lines_operation (offset : Nat) (h : Sound c.frame c.functions ins) :
    ∃ ls, (operation c offset ins).lines = .ok ls := by
  have hslot : ins.op ∈ [.load, .store] → slot c.frame ins = pure (Int64.ofNat (ins.half 0)) :=
    fun hop => if_neg fun hle => h _ (.slot hop hle)
  have htarget : ins.op ∈ [.jmp, .jmpz, .jmpnz, .invoke] →
      targetLabel c.functions ins = pure (.start ins.target.toNat) :=
    fun hop => if_pos (h.startsAt hop)
  rw [operation]
  cases hop : ins.op with
  | load | store =>
      dsimp only [loadLocal, storeLocal]
      rw [hslot (by simp [hop])]
      exact ⟨_, rfl⟩
  | jmp | jmpz | jmpnz =>
      dsimp only [jump, jumpOn]
      rw [htarget (by simp [hop])]
      exact ⟨_, rfl⟩
  | invoke =>
      have ht := h.startsAt (by simp [hop])
      exact lines_call offset ht fun hcount => h _ (.arguments hop ht hcount)
  | ret =>
      dsimp only
      split <;> exact ⟨_, rfl⟩
  | syscall =>
      dsimp only [service]
      rw [if_neg fun hcount => h _ (.service hop hcount)]
      exact ⟨_, rfl⟩
  | _ => exact ⟨_, rfl⟩

/-- **A fault is refused for MIPS.** -/
theorem operation_of_faulty (offset : Nat) {kind : Kind} (h : Faulty c.frame c.functions ins kind) :
    ∃ cause, cause.kind = kind ∧ operation c offset ins = throw cause := by
  cases h with
  | target hop ht =>
      -- all of them look at their target first
      obtain ⟨next, hnext⟩ : ∃ next, operation c offset ins =
          targetLabel c.functions ins >>= next := by
        simp only [List.mem_cons, List.not_mem_nil, or_false] at hop
        rcases hop with hop | hop | hop | hop <;> exact ⟨_, by rw [operation, hop]; rfl⟩
      refine ⟨.badTarget ins.target, rfl, ?_⟩
      rw [hnext, targetLabel, if_neg (by simp [ht])]
      rfl
  | slot hop hle =>
      obtain ⟨next, hnext⟩ : ∃ next, operation c offset ins = slot c.frame ins >>= next := by
        simp only [List.mem_cons, List.not_mem_nil, or_false] at hop
        rcases hop with hop | hop <;> exact ⟨_, by rw [operation, hop]; rfl⟩
      refine ⟨.slotRange (ins.half 0) c.frame.localSlots, rfl, ?_⟩
      rw [hnext, slot, if_pos hle]
      rfl
  | arguments hop ht hcount =>
      refine ⟨.argumentRange (ins.half 1) c.frame.localSlots, rfl, ?_⟩
      rw [operation, hop]
      dsimp only [call]
      rw [targetLabel, if_pos ht, pure_bind, if_pos hcount]
      rfl
  | service hop hcount =>
      refine ⟨.serviceRegisters (ins.half 1), rfl, ?_⟩
      rw [operation, hop]
      dsimp only [service]
      rw [if_pos hcount]
      rfl

end Mips

/-! ### The intermediate language -/

namespace ToIl

namespace Writing

variable {α β : Type} {E : Cause → Prop}

/-- Writing that can fail only for some causes. -/
def FailsOnly (E : Cause → Prop) (writing : Writing α) : Prop :=
  ∀ d cause, writing d = .error cause → E cause

theorem FailsOnly.bind {writing : Writing α} {next : α → Writing β} (h : FailsOnly E writing)
    (hnext : ∀ a, FailsOnly E (next a)) : FailsOnly E (writing >>= next) := by
  intro d cause hcause
  rcases bind_error_iff.1 hcause with hcause | ⟨⟨a, d'⟩, -, hcause⟩
  · exact h d cause hcause
  · exact hnext a d' cause hcause

theorem failsOnly_of_ok {writing : Writing α} (h : ∀ d, ∃ r, writing d = .ok r) :
    FailsOnly E writing := by
  intro d cause hcause
  obtain ⟨r, hr⟩ := h d
  cases hr.symm.trans hcause

theorem failsOnly_pure (a : α) : FailsOnly E (pure a) := failsOnly_of_ok fun _ => ⟨_, rfl⟩

theorem failsOnly_throw {cause : Cause} (hcause : E cause) :
    FailsOnly E (throw cause : Writing α) := by
  intro d cause' h
  obtain rfl := Except.error.inj h
  exact hcause

theorem failsOnly_put (ls : List Il.Line) : FailsOnly E (put ls) :=
  failsOnly_of_ok fun _ => ⟨_, rfl⟩

theorem failsOnly_emit (ss : List Il.Statement) : FailsOnly E (emit ss) := failsOnly_put _

theorem failsOnly_fresh : FailsOnly E fresh := failsOnly_of_ok fun _ => ⟨_, rfl⟩

theorem failsOnly_pop (c : Cell) : FailsOnly E (pop c) := failsOnly_of_ok fun _ => ⟨_, rfl⟩

theorem failsOnly_push (c : Cell) (v : Il.Value) : FailsOnly E (push c v) := failsOnly_emit _

end Writing

open Writing

section Operations

variable {E : Cause → Prop}

theorem failsOnly_copyArguments (c : Cell) (offset : Nat) (ks : List Nat) :
    FailsOnly E (ks.forM (copyArgument c offset)) := by
  induction ks with
  | nil => exact failsOnly_pure ()
  | cons k ks ih => exact (failsOnly_of_ok fun _ => ⟨_, rfl⟩).bind fun _ => ih

theorem failsOnly_popArguments (c : Cell) (count : Nat) (arguments : List Il.Value) :
    FailsOnly E (popArguments c count arguments) := by
  induction count generalizing arguments with
  | zero => exact failsOnly_pure arguments
  | succ count ih => exact (failsOnly_pop c).bind fun v => ih (v :: arguments)

/-- How a service or an element is written depends on nothing but the width of a cell. -/
theorem failsOnly_serve (c : Cell) (argument : Option Il.Value) (s : Service) :
    FailsOnly E (serve c argument s) := by
  unfold serve wordArgument widen narrow
  cases c.isLong <;> cases argument <;> cases s <;> exact failsOnly_of_ok fun _ => ⟨_, rfl⟩

theorem failsOnly_newArray (c : Cell) : FailsOnly E (newArray c) := by
  unfold newArray widen narrow
  cases c.isLong <;> exact failsOnly_of_ok fun _ => ⟨_, rfl⟩

theorem failsOnly_newString (c : Cell) : FailsOnly E (newString c) := by
  unfold newString widen narrow
  cases c.isLong <;> exact failsOnly_of_ok fun _ => ⟨_, rfl⟩

theorem failsOnly_loadElement (c : Cell) (wide : Bool) : FailsOnly E (loadElement c wide) := by
  unfold loadElement elementAddress widen
  cases c.isLong <;> cases wide <;> exact failsOnly_of_ok fun _ => ⟨_, rfl⟩

theorem failsOnly_storeElement (c : Cell) (wide : Bool) : FailsOnly E (storeElement c wide) := by
  unfold storeElement elementAddress widen
  cases c.isLong <;> cases wide <;> exact failsOnly_of_ok fun _ => ⟨_, rfl⟩

end Operations

variable {c : Context} {ins : Instruction}

/-- A jump to an instruction can only fail because it leaves its function. -/
theorem failsOnly_targetBlock (h : c.functions.startsAt ins.target = true) :
    FailsOnly (fun cause => cause.kind.IsLimit) (targetBlock c ins) := by
  dsimp only [targetBlock]
  rw [if_neg (by simp [h])]
  split
  · exact (failsOnly_throw (Or.inl rfl)).bind fun _ => failsOnly_pure _
  · exact failsOnly_pure _

/-- A service with few enough arguments can only fail because there is no such service. -/
theorem failsOnly_service (cell : Cell) (h : ¬4 < ins.half 1) :
    FailsOnly (fun cause => cause.kind.IsLimit) (service cell ins) := by
  dsimp only [service]
  rw [if_neg h]
  refine (failsOnly_popArguments cell _ _).bind fun arguments => ?_
  split
  · exact failsOnly_throw (Or.inr rfl)
  · exact (failsOnly_serve cell _ _).bind fun _ => failsOnly_push cell _

theorem failsOnly_call {E : Cause → Prop} (offset : Nat)
    (h : ¬c.frame.localSlots < Int64.ofNat (ins.half 1)) : FailsOnly E (call c offset ins) := by
  have hrest : ∀ ls : Il.Temp → Il.Temp → List Il.Line, FailsOnly E (do
      (List.range (ins.half 1)).forM (copyArgument c.cell offset)
      let r ← fresh
      let t ← fresh
      put (ls r t)) := fun ls =>
    (failsOnly_copyArguments c.cell offset _).bind fun _ => failsOnly_fresh.bind fun _ =>
      failsOnly_fresh.bind fun _ => failsOnly_put _
  dsimp only [call]
  rw [if_neg h]
  split
  · exact (failsOnly_emit _).bind fun _ => hrest _
  · exact hrest _

theorem failsOnly_slotAddress {E : Cause → Prop}
    (h : ¬c.frame.localSlots ≤ Int64.ofNat (ins.half 0)) : FailsOnly E (slotAddress c ins) := by
  dsimp only [slotAddress]
  rw [if_neg h]
  exact failsOnly_of_ok fun _ => ⟨_, rfl⟩

/-- **Without a fault only the limits of the intermediate language are left.** -/
theorem failsOnly_operation (offset : Nat) (h : Sound c.frame c.functions ins) :
    FailsOnly (fun cause => cause.kind.IsLimit) (operation c offset ins) := by
  have hslot : ins.op ∈ [.load, .store] →
      FailsOnly (fun cause => cause.kind.IsLimit) (slotAddress c ins) :=
    fun hop => failsOnly_slotAddress fun hle => h _ (.slot hop hle)
  rw [operation]
  cases hop : ins.op with
  | load | store =>
      exact (hslot (by simp [hop])).bind fun _ => failsOnly_of_ok fun _ => ⟨_, rfl⟩
  | jmp | jmpz | jmpnz =>
      exact (failsOnly_targetBlock (h.startsAt (by simp [hop]))).bind fun _ =>
        failsOnly_of_ok fun _ => ⟨_, rfl⟩
  | invoke =>
      exact failsOnly_call offset fun hcount =>
        h _ (.arguments hop (h.startsAt (by simp [hop])) hcount)
  | syscall => exact failsOnly_service _ fun hcount => h _ (.service hop hcount)
  | newarray => exact failsOnly_newArray _
  | newstr => exact failsOnly_newString _
  | iaload | baload => exact failsOnly_loadElement _ _
  | iastore | bastore => exact failsOnly_storeElement _ _
  | _ => exact failsOnly_of_ok fun _ => ⟨_, rfl⟩

/-- **A fault is refused for the intermediate language**, calls to no instruction apart, which are
found out before. -/
theorem operation_of_faulty (offset : Nat) {kind : Kind} (h : Faulty c.frame c.functions ins kind)
    (hcall : ins.op = .invoke → c.functions.startsAt ins.target = true) :
    ∃ cause, cause.kind = kind ∧ operation c offset ins = throw cause := by
  cases h with
  | target hop ht =>
      obtain ⟨next, hnext⟩ : ∃ next, operation c offset ins = targetBlock c ins >>= next := by
        simp only [List.mem_cons, List.not_mem_nil, or_false] at hop
        rcases hop with hop | hop | hop | hop
        iterate 3 exact ⟨_, by rw [operation, hop]; rfl⟩
        rw [hcall hop] at ht
        cases ht
      refine ⟨.badTarget ins.target, rfl, ?_⟩
      rw [hnext]
      dsimp only [targetBlock]
      rw [if_pos (by simp [ht])]
      rfl
  | slot hop hle =>
      obtain ⟨next, hnext⟩ : ∃ next, operation c offset ins = slotAddress c ins >>= next := by
        simp only [List.mem_cons, List.not_mem_nil, or_false] at hop
        rcases hop with hop | hop <;> exact ⟨_, by rw [operation, hop]; rfl⟩
      refine ⟨.slotRange (ins.half 0) c.frame.localSlots, rfl, ?_⟩
      rw [hnext]
      dsimp only [slotAddress]
      rw [if_pos hle]
      rfl
  | arguments hop _ hcount =>
      refine ⟨.argumentRange (ins.half 1) c.frame.localSlots, rfl, ?_⟩
      rw [operation, hop]
      dsimp only [call]
      rw [if_pos hcount]
      rfl
  | service hop hcount =>
      refine ⟨.serviceArguments (ins.half 1), rfl, ?_⟩
      rw [operation, hop]
      dsimp only [service]
      rw [if_pos hcount]
      rfl

end ToIl

end StackCompiler.Lowering
