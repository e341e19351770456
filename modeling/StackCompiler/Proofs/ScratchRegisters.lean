/-
**Scratch registers do not run out, and none is lost.**

All instructions of a program are lowered with one pool of scratch registers.  The lines of an
instruction are written in a scope: it takes registers from the pool one by one, and gives back what
it holds when it is left, whether there are lines then or not.  Here listings are written in just
this way, with a pool that may be exhausted and that is looked at behind every instruction.  No
instruction takes more than three registers, so the listings are those of `Lowering.Mips.lower`.

* `Lowering.Drafting.scopes_sound` — **a draft that takes few registers never runs out**;
* `Lowering.Mips.lowerPooled_eq` — **scratch registers neither run out nor are lost**.
-/

import Mathlib.Data.List.FinRange
import StackCompiler.Proofs.LoweredLines

namespace StackCompiler.Lowering

open Listing

/-! ### Scopes -/

/-- Which scratch registers are in use. -/
abbrev Pool := Fin 10 → Bool

namespace Pool

/-- None is in use. -/
def free : Pool := fun _ => false

/-- How many are in use. -/
def live (p : Pool) : Nat := (List.finRange 10).countP p

end Pool

/-- A scratch register by its number. -/
def scratchRegister (i : Fin 10) : Register := scratchRegisters.get i

theorem scratchRegisters_eq : scratchRegisters = (List.finRange 10).map scratchRegister := by
  decide

theorem scratchRegister_inj : ∀ i j, scratchRegister i = scratchRegister j ↔ i = j := by
  decide

open Register (zero v0 v1 a0 s0 s1 sp fp ra) in
/-- The registers with another use. -/
def reservedRegisters : List Register :=
  [zero, sp, fp, s0, s1, v0, v1, a0, a0 + 1, a0 + 2, a0 + 3, ra]

theorem scratchRegister_not_reserved : ∀ i, scratchRegister i ∉ reservedRegisters := by
  decide

namespace Drafting

/-- The lines of an instruction while they are written, with the pool and the registers that were
taken from it. -/
structure Scope where
  pool : Pool
  held : List (Fin 10) := []
  written : List Line := []

namespace Scope

/-- The registers that are held. -/
def registers (s : Scope) : List Register := s.held.map scratchRegister

/-- The first scratch register that is not in use. -/
def next? (s : Scope) : Option (Fin 10) := (List.finRange 10).find? fun i => !s.pool i

/-- One more register is held. -/
def take (s : Scope) (i : Fin 10) : Scope :=
  { s with pool := Function.update s.pool i true, held := s.held ++ [i] }

/-- **The pool when a scope is left**, which gives back what it holds. -/
def release (s : Scope) : Pool := fun i => s.pool i && !s.held.contains i

/-- In the pool just those registers are in use that the scope holds, each of them once. -/
structure Sound (s : Scope) : Prop where
  nodup : s.held.Nodup
  inUse : ∀ i, s.pool i = true ↔ i ∈ s.held

variable {s : Scope}

theorem sound_free : Sound { pool := .free } := ⟨.nil, fun _ => ⟨nofun, nofun⟩⟩

theorem release_of_sound (h : s.Sound) : s.release = .free := by
  funext i
  have hi := h.inUse i
  simp only [release, Pool.free]
  by_cases hmem : i ∈ s.held <;> simp_all

theorem live_of_sound (h : s.Sound) : s.pool.live = s.held.length := by
  rw [Pool.live, List.countP_eq_length_filter]
  refine List.Perm.length_eq ((List.perm_ext_iff_of_nodup ?_ h.nodup).2 fun i => ?_)
  · exact (List.nodup_finRange 10).filter _
  · rw [List.mem_filter, h.inUse]
    exact and_iff_right (List.mem_finRange i)

/-- As long as fewer than ten registers are held, there is one to take. -/
theorem exists_next (h : s.Sound) (hlt : s.held.length < 10) :
    ∃ i, s.next? = some i ∧ (s.take i).Sound := by
  cases hnext : s.next? with
  | none =>
      have hall : ∀ i ∈ List.finRange 10, i ∈ s.held := by
        intro i hi
        have hused := List.find?_eq_none.1 hnext i hi
        exact (h.inUse i).1 (by simpa using hused)
      have hle := (List.subperm_of_subset (List.nodup_finRange 10) hall).length_le
      rw [List.length_finRange] at hle
      omega
  | some i =>
      have hfree := List.find?_some hnext
      have hnew : i ∉ s.held := by
        rw [← h.inUse]
        simpa using hfree
      refine ⟨i, rfl, ?_, fun j => ?_⟩
      · exact List.nodup_append.2 ⟨h.nodup, List.nodup_singleton i, by grind⟩
      · show Function.update s.pool i true j = true ↔ j ∈ s.held ++ [i]
        rw [Function.update_apply, List.mem_append, List.mem_singleton, ← h.inUse]
        split <;> simp_all

theorem nodup_registers (h : s.Sound) : s.registers.Nodup :=
  h.nodup.map fun i j => (scratchRegister_inj i j).1

/-- The draft of a scope. -/
def draft (s : Scope) : Draft := ⟨s.written, s.registers.reverse⟩

/-- The register that a draft takes is the first that is not in use. -/
theorem find_draft (h : s.Sound) :
    (scratchRegisters.find? fun r => !s.draft.held.contains r) = s.next?.map scratchRegister := by
  have hheld : ((fun r => !s.draft.held.contains r) ∘ scratchRegister) = fun i => !s.pool i := by
    funext i
    have hi := h.inUse i
    simp only [Function.comp_apply, draft, registers]
    by_cases hmem : i ∈ s.held <;> simp_all [scratchRegister_inj]
  rw [scratchRegisters_eq, List.find?_map, hheld, next?]

end Scope

/-! ### Drafts in a scope -/

/-- How a draft ends. -/
inductive Ending (α : Type) where
  | done (a : α)
  | refused (cause : Cause)
  /-- A register was wanted, and all of them were in use. -/
  | exhausted

variable {α : Type}

/-- **Goes through the steps of a draft in a scope.** -/
def perform : Drafting α → Scope → Scope × Ending α
  | done a, s => (s, .done a)
  | fail cause, s => (s, .refused cause)
  | write ls next, s => next.perform { s with written := s.written ++ ls }
  | take next, s =>
    match s.next? with
    | some i => (next (scratchRegister i)).perform (s.take i)
    | none => (s, .exhausted)

/-- What the scope is before, between and behind the steps. -/
def scopes : Drafting α → Scope → List Scope
  | done _, s | fail _, s => [s]
  | write ls next, s => s :: next.scopes { s with written := s.written ++ ls }
  | take next, s =>
    s :: match s.next? with
    | some i => (next (scratchRegister i)).scopes (s.take i)
    | none => []

/-- A draft that takes at most some number of registers, whichever they are. -/
def Within : Drafting α → Nat → Prop
  | done _, _ | fail _, _ => True
  | write _ next, n => next.Within n
  | take _, 0 => False
  | take next, n + 1 => ∀ r, (next r).Within n

/-- What a draft comes to, from how it ends in a scope. -/
def settle : Scope × Ending α → Except Cause (α × Draft)
  | (s, .done a) => .ok (a, s.draft)
  | (_, .refused cause) => .error cause
  | (_, .exhausted) => .error .noScratch

variable {m : Drafting α} {s : Scope} {n : Nat}

/-- **A draft that takes few registers never runs out of them.**  On the way the scope stays sound
and holds no more than it did and the draft takes; it is left as one of these. -/
theorem scopes_sound (hm : m.Within n) (hs : s.Sound) (hn : s.held.length + n < 10) :
    (∀ t ∈ m.scopes s, t.Sound ∧ t.held.length ≤ s.held.length + n) ∧
      (m.perform s).1 ∈ m.scopes s ∧ (m.perform s).2 ≠ .exhausted := by
  induction m generalizing s n with
  | done a | fail cause =>
      exact ⟨List.forall_mem_singleton.2 ⟨hs, Nat.le_add_right _ _⟩,
        List.mem_singleton_self _, nofun⟩
  | write ls next ih =>
      have hwrite : Scope.Sound { s with written := s.written ++ ls } := ⟨hs.nodup, hs.inUse⟩
      obtain ⟨hall, hlast, hend⟩ := ih hm hwrite hn
      exact ⟨List.forall_mem_cons.2 ⟨⟨hs, Nat.le_add_right _ _⟩, hall⟩,
        List.mem_cons_of_mem s hlast, hend⟩
  | take next ih =>
      cases n with
      | zero => exact hm.elim
      | succ n =>
          obtain ⟨i, hnext, htake⟩ := Scope.exists_next hs (by omega)
          have hlength : (s.take i).held.length = s.held.length + 1 := List.length_append
          obtain ⟨hall, hlast, hend⟩ := ih _ (hm _) htake (n := n) (by omega)
          simp only [scopes, perform, hnext]
          refine ⟨List.forall_mem_cons.2 ⟨⟨hs, Nat.le_add_right _ _⟩, fun t ht => ?_⟩,
            List.mem_cons_of_mem s hlast, hend⟩
          obtain ⟨ht, hle⟩ := hall t ht
          exact ⟨ht, by omega⟩

/-- **A scope writes what a draft writes**, and fails where it fails. -/
theorem run_perform (hm : m.Within n) (hs : s.Sound) (hn : s.held.length + n < 10) :
    m.run s.draft = settle (m.perform s) := by
  induction m generalizing s n with
  | done a | fail cause => rfl
  | write ls next ih =>
      have hwrite : Scope.Sound { s with written := s.written ++ ls } := ⟨hs.nodup, hs.inUse⟩
      exact ih hm hwrite hn
  | take next ih =>
      cases n with
      | zero => exact hm.elim
      | succ n =>
          obtain ⟨i, hnext, htake⟩ := Scope.exists_next hs (by omega)
          have hlength : (s.take i).held.length = s.held.length + 1 := List.length_append
          have hdraft : (s.take i).draft =
              { s.draft with held := scratchRegister i :: s.draft.held } := by
            simp [Scope.draft, Scope.registers, Scope.take]
          rw [run, Scope.find_draft hs, perform, hnext]
          rw [← ih _ (hm _) htake (n := n) (by omega), hdraft]
          rfl

end Drafting

/-! ### Instructions -/

namespace Mips

open Instruction (offsets)
open Drafting (Scope Within)

/-- **No instruction takes more than three scratch registers**, which may depend on nothing. -/
theorem within_operation (c : Context) (offset : Nat) (ins : Instruction) :
    (operation c offset ins).Within 3 := by
  have hslot : ∀ {next : Int64 → Drafting Unit}, (∀ n, (next n).Within 3) →
      (slot c.frame ins >>= next).Within 3 := by
    intro next hnext
    unfold slot
    dsimp only
    split
    · trivial
    · exact hnext _
  have htarget : ∀ {next : Label → Drafting Unit}, (∀ l, (next l).Within 3) →
      (targetLabel c.functions ins >>= next).Within 3 := by
    intro next hnext
    unfold targetLabel
    split
    · exact hnext _
    · trivial
  unfold operation
  cases ins.op with
  | iadd | isub | and | or | xor | ilt | ieq | igt | imul | idiv | shl | shr | swap | iaload
  | baload | iastore | bastore => exact fun _ _ _ => trivial
  | iconst | not | dup => exact fun _ _ => trivial
  | newarray | newstr => exact fun _ => trivial
  | pop | print | entry | global | unknown _ => trivial
  | load => exact hslot fun _ _ _ => trivial
  | store => exact hslot fun _ _ => trivial
  | jmp => exact htarget fun _ => trivial
  | jmpz | jmpnz => exact htarget fun _ _ => trivial
  | invoke =>
      refine htarget fun l => ?_
      dsimp only [copyArguments]
      -- arguments are moved off the stack and copied only if there are any
      by_cases hcount : ins.half 1 = 0
      · simp only [if_pos hcount, if_neg (not_not.2 hcount)]
        split
        · trivial
        · exact fun _ _ => trivial
      · simp only [if_neg hcount, if_pos (show ins.half 1 ≠ 0 from hcount)]
        split
        · trivial
        · exact fun _ _ _ => trivial
  | ret =>
      dsimp only
      split
      · trivial
      · exact fun _ => trivial
  | syscall =>
      dsimp only [service]
      split
      · trivial
      · exact fun _ => trivial

/-- Why no listing is written. -/
inductive Stop where
  | failure (f : Failure)
  /-- A register was wanted, and all of them were in use. -/
  | exhausted
  /-- Registers were in use behind an instruction. -/
  | leaked

/-- Adds the lines of an instruction with the pool that all of them share.  Only an instruction that
is neither a marker nor unknown has a scope. -/
def addPooled (c : Context) (w : Pool × Progress) (ins : Instruction) (offset : Nat) :
    Except Stop (Pool × Progress) :=
  if ins.op.isMarker || !ins.op.isKnown then
    ((w.2.add c ins offset).map (w.1, ·)).mapError .failure
  else
    let (s, ending) := (operation c offset ins).perform { pool := w.1 }
    match ending with
    | .done _ =>
      if s.release.live = 0 then
        .ok (s.release, { w.2 with lines := w.2.lines ++ (.place offset ins :: s.written) })
      else .error .leaked
    | .refused cause => .error (.failure (.instruction offset ins cause))
    | .exhausted => .error .exhausted

/-- **The listing of a program, written with one pool of scratch registers.** -/
def lowerPooled (p : Program) (s : Settings) : Except Stop Output := do
  let frame := Frame.ofProgram p s
  frame.check.mapError .failure
  let functions ← (Functions.ofList p.instructions s.features.implicitEntry).mapError .failure
  let c : Context := ⟨frame, functions⟩
  let (_, written) ← (p.instructions.zip (offsets p.instructions)).foldlM
    (fun w (ins, offset) => addPooled c w ins offset) (.free, {})
  return { lines := prologue c s.stackTop ++ written.lines.toList ++
             (if needsExit functions p.instructions then epilogue else [])
           frame
           remarks := written.remarks.toList }

section

variable (c : Context) (offset : Nat) (ins : Instruction)

/-- An instruction leaves the pool as it found it. -/
theorem operation_scopes :
    (∀ t ∈ (operation c offset ins).scopes { pool := .free }, t.Sound ∧ t.held.length < 10) ∧
      ((operation c offset ins).perform { pool := .free }).1.release = .free ∧
      ((operation c offset ins).perform { pool := .free }).2 ≠ .exhausted := by
  obtain ⟨hall, hlast, hend⟩ :=
    Drafting.scopes_sound (within_operation c offset ins) Scope.sound_free (by decide)
  refine ⟨fun t ht => ⟨(hall t ht).1, Nat.lt_of_le_of_lt (hall t ht).2 (by decide)⟩, ?_, hend⟩
  exact Scope.release_of_sound (hall _ hlast).1

theorem addPooled_eq (w : Progress) :
    addPooled c (.free, w) ins offset =
      ((w.add c ins offset).map (Pool.free, ·)).mapError .failure := by
  unfold addPooled
  split
  · rfl
  · next hkind =>
    have hins : Ordinary ins := by
      simp only [Bool.or_eq_true, Bool.not_eq_true', not_or, Bool.not_eq_true,
        Bool.not_eq_false] at hkind
      refine ⟨hkind.1, fun n hn => ?_⟩
      rw [hn] at hkind
      cases hkind.2
    have hrun := Drafting.run_perform (within_operation c offset ins) Scope.sound_free (by decide)
    obtain ⟨-, hrelease, hend⟩ := operation_scopes c offset ins
    rw [Progress.add_eq hins, draft, Drafting.lines, show ({} : Draft) =
      Scope.draft { pool := .free } from rfl, hrun]
    rcases hperform : (operation c offset ins).perform { pool := .free } with ⟨s, _ | cause | _⟩ <;>
      rw [hperform] at hrelease hend
    · simp only [hrelease]
      rfl
    · rfl
    · exact absurd rfl hend

end

/-- The pool is free behind every instruction. -/
theorem addAllPooled_eq (c : Context) (xs : List (Instruction × Nat)) (w : Progress) :
    xs.foldlM (fun w x => addPooled c w x.1 x.2) (.free, w) =
      ((xs.foldlM (fun w x => Progress.add c w x.1 x.2) w).map
        (Pool.free, ·)).mapError .failure := by
  induction xs generalizing w with
  | nil => rfl
  | cons x xs ih =>
      rw [List.foldlM_cons, List.foldlM_cons, addPooled_eq]
      cases hadd : w.add c x.1 x.2 with
      | error f => rfl
      | ok w' => exact ih w'

/-- **Scratch registers neither run out nor are lost.**  Written with one pool, the listing of a
program is the one that `lower` gives, and it fails for the same reasons only.  While the lines of
an instruction are written, fewer than ten registers are held, all of them different and none with
another use; and however that ends, none is in use behind it. -/
theorem lowerPooled_eq (p : Program) (s : Settings) :
    lowerPooled p s = (lower p s).mapError .failure ∧
    ∀ (c : Context) (offset : Nat) (ins : Instruction),
      (∀ t ∈ (operation c offset ins).scopes { pool := .free },
        t.held.length < 10 ∧ t.pool.live = t.held.length ∧ t.registers.Nodup ∧
        ∀ r ∈ t.registers, r ∉ reservedRegisters) ∧
      ((operation c offset ins).perform { pool := .free }).2 ≠ .exhausted ∧
      ((operation c offset ins).perform { pool := .free }).1.release = .free := by
  refine ⟨?_, fun c offset ins => ?_⟩
  · unfold lowerPooled lower
    dsimp only
    cases (Frame.ofProgram p s).check with
    | error f => rfl
    | ok _ =>
        cases Functions.ofList p.instructions s.features.implicitEntry with
        | error f => rfl
        | ok fs =>
            simp only [Except.mapError, ok_bind, addAllPooled_eq]
            cases (p.instructions.zip (offsets p.instructions)).foldlM
              (fun w x => Progress.add ⟨Frame.ofProgram p s, fs⟩ w x.1 x.2) {} <;> rfl
  · obtain ⟨hscopes, hrelease, hend⟩ := operation_scopes c offset ins
    refine ⟨fun t ht => ?_, hend, hrelease⟩
    obtain ⟨hsound, hlt⟩ := hscopes t ht
    refine ⟨hlt, Scope.live_of_sound hsound, Scope.nodup_registers hsound, fun r hr => ?_⟩
    obtain ⟨i, -, rfl⟩ := List.mem_map.1 hr
    exact scratchRegister_not_reserved i

end Mips

end StackCompiler.Lowering
