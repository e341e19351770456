/-
**Compiled programs do not overflow.**

A machine can be told to fail when a signed sum or difference overflows.  Cells wrap around, so what
a program is compiled to must not depend on that.  Lowering names no operation that checks, but this
is not yet enough: the assembler copies a register by adding register zero to it, with the addition
that checks.  Such a sum does not overflow as long as register zero is zero.  No instruction changes
that register, and the one service with a result puts it elsewhere.  So each step does the same
whether overflow is trapped or not, and the two runs of a compiled program go through the same
states.

* `Machine.NoOverflow.step_trapping` — **a step does the same whether overflow is trapped or not**;
* `runs_trapping_of_compile` — **a compiled program runs alike whether overflow is trapped or not**.
-/

import StackCompiler.Proofs.ImplementedWords
import StackCompiler.Proofs.NameIndependence
import StackCompiler.Proofs.VisibleSymbols

namespace StackCompiler

/-! ### Words -/

namespace Assembly

open Listing

/-- A word that does not overflow as long as register zero is zero: it asks for no operation that
checks for overflow, or it adds register zero. -/
def NoOverflow (w : UInt32) : Prop :=
  ∀ o, Operation.ofFields? (Fields.ofWord w) = some o → o.checksOverflow →
    o = .add ∧ (Fields.ofWord w).rt = Register.zero

/-- **The words of an instruction that names no operation which checks for overflow.**  Copying a
register is the one abbreviation that stands for such an operation. -/
theorem Mnemonic.noOverflow_encode {labels : Labels} {pc : UInt32} {m : Mnemonic} {n : Nat}
    {operands : List Text} {ws : List UInt32} (h : m.encode labels pc n operands = .ok ws)
    (hm : m.checksOverflow = false) : ∀ w ∈ ws, NoOverflow w := by
  by_cases hmove : m = .move
  · subst hmove
    obtain ⟨rs, rd, hs, hd, rfl⟩ := encode_move_ok h
    obtain ⟨hadd, -, hrt, -⟩ :=
      Operation.registerWord_decoded (o := .add) rfl hs (show Register.zero < 32 by decide) hd 0
    refine List.forall_mem_singleton.2 fun o ho _ => ⟨?_, hrt⟩
    exact Option.some.inj (ho.symm.trans hadd)
  · have hothers : ∀ o ∈ m.operations, o.checksOverflow = false := by
      cases m with
      | operation o => exact List.forall_mem_singleton.2 hm
      | move => exact absurd rfl hmove
      | _ => decide
    intro w hw o ho hchecks
    obtain ⟨o', hmem, ho'⟩ := asksFor_encode h w hw
    obtain rfl := Option.some.inj (ho.symm.trans ho')
    rw [hothers o hmem] at hchecks
    cases hchecks

/-- The mnemonic that is read from a line is the one that was written, or that of no operation. -/
theorem checksOverflow_of_unchecked {l : Line} (hl : l.unchecked) {w : Written}
    (hw : l.instruction = some w) {m : Mnemonic} (hm : Mnemonic.ofName? w.mnemonic = some m) :
    m.checksOverflow = false := by
  cases l with
  | code m' os =>
      obtain rfl := Option.some.inj hw
      obtain rfl := Option.some.inj ((ofName?_name m').symm.trans hm)
      exact (Bool.not_eq_true' _).mp hl
  | nothingFor ins =>
      obtain rfl := Option.some.inj hw
      obtain rfl : Mnemonic.nop = m := Option.some.inj hm
      rfl
  | _ => cases hw

/-- **The words of a listing do not overflow if its lines name no operation that checks.** -/
theorem noOverflow_of_unchecked {lines : List Line} {elide : Bool} {image : Image}
    (hlegible : ∀ l ∈ lines, l.Legible) (hlines : ∀ l ∈ lines, l.unchecked)
    (himage : assemble elide (lines.map Line.render) = .ok image) :
    ∀ w ∈ image.words, NoOverflow w := by
  obtain ⟨ss, parts, hss, hparts⟩ := assemble_byLine himage
  obtain rfl := Except.ok.inj (hss.symm.trans (parseAll_legible hlegible))
  intro word hword
  obtain ⟨s, hs, w, m, pc, ws, hw, hm, hencode, hmem⟩ := hparts.word hword
  obtain ⟨n, l, hl, rfl⟩ := mem_takenFrom hs
  exact Mnemonic.noOverflow_encode hencode (checksOverflow_of_unchecked (hlines l hl) hw hm) word
    hmem

end Assembly

/-! ### Steps -/

namespace Machine

/-- The machine with traps. -/
def trapping (m : Machine) : Machine := { m with trapOverflow := true }

/-- A state from which on nothing overflows. -/
structure NoOverflow (m : Machine) : Prop where
  words : ∀ w ∈ m.text, Assembly.NoOverflow w
  zero : m.regs.get Register.zero = 0

variable {m : Machine}

/-- **An operation that adds zero does not overflow**, and one that does not check fails for other
reasons only. -/
theorem failure?_trapping (hzero : m.regs.get Register.zero = 0) {f : Fields} {o : Operation}
    (h : o.checksOverflow → o = .add ∧ f.rt = Register.zero) :
    m.trapping.failure? f o = m.failure? f o ∧ m.failure? f o ≠ some .overflow := by
  cases hcheck : o.checksOverflow with
  | true =>
      obtain ⟨rfl, hrt⟩ := h hcheck
      have hnone : ∀ trap : Bool, { m with trapOverflow := trap }.failure? f .add = none := by
        intro trap
        refine if_neg ?_
        rw [hrt, hzero, addOverflows_zero, Bool.and_false]
        exact Bool.false_ne_true
      have hm : m.failure? f .add = none := hnone m.trapOverflow
      rw [hm]
      exact ⟨hnone true, nofun⟩
  | false =>
      cases o with
      | add | addi | sub => cases hcheck
      | lh | lhu | sh | lw | sw | syscall =>
          refine ⟨rfl, ?_⟩
          unfold failure?
          dsimp only
          split <;> exact nofun
      | _ => exact ⟨rfl, nofun⟩

theorem wordFailure?_trapping (hzero : m.regs.get Register.zero = 0) {w : UInt32}
    (hw : Assembly.NoOverflow w) :
    m.trapping.wordFailure? w = m.wordFailure? w ∧ m.wordFailure? w ≠ some .overflow := by
  unfold wordFailure?
  dsimp only
  split
  · refine ⟨rfl, ?_⟩
    unfold reserved
    split <;> exact nofun
  · next o ho => exact failure?_trapping hzero (hw o ho)

/-- What an operation does once it has not failed does not depend on traps. -/
theorem perform_trapping (m : Machine) (pc : UInt32) (f : Fields) (o : Operation) :
    m.trapping.perform pc f o = (m.perform pc f o).trapping := by
  have hgoIf : ∀ condition target,
      m.trapping.goIf condition target = (m.goIf condition target).trapping := by
    intro condition target
    unfold goIf
    split <;> rfl
  cases o with
  | beq | bne | blez | bgtz => exact hgoIf _ _
  | syscall =>
      unfold perform
      dsimp only
      rw [show m.trapping.asked = m.asked from rfl]
      split
      · next s _ => cases s <;> rfl
      · rfl
  | _ => rfl

theorem performWord_trapping (m : Machine) (pc w : UInt32) :
    m.trapping.performWord pc w = (m.performWord pc w).trapping := by
  unfold performWord
  dsimp only
  split
  · rfl
  · exact perform_trapping _ _ _ _

section

variable (h : m.NoOverflow)

include h

/-- **A step does the same whether overflow is trapped or not**, and does not overflow. -/
theorem NoOverflow.step_trapping : m.trapping.step = m.step.map trapping id ∧
      ∀ fault, m.step.2 = some fault → fault.stop ≠ .overflow := by
  rw [step_eq, step_eq, show m.trapping.fetch? = m.fetch? from rfl,
    show m.trapping.halted = m.halted from rfl]
  cases m.halted with
  | true => exact ⟨rfl, nofun⟩
  | false =>
      cases hw : m.fetch? with
      | none =>
          refine ⟨rfl, fun fault hfault => ?_⟩
          obtain rfl := Option.some.inj hfault
          exact nofun
      | some w =>
          obtain ⟨hsame, hno⟩ := wordFailure?_trapping h.zero (h.words w (mem_of_fetch? hw))
          simp only [Bool.false_eq_true, if_false, hsame]
          cases hstop : m.wordFailure? w with
          | some stop =>
              refine ⟨rfl, fun fault hfault => ?_⟩
              obtain rfl := Option.some.inj hfault
              exact fun heq => hno (hstop.trans (congrArg some heq))
          | none => exact ⟨congrArg (·, none) (performWord_trapping m.advance m.pc w), nofun⟩

theorem NoOverflow.step : m.step.1.NoOverflow where
  words := by rw [text_step]; exact h.words
  zero := by rw [get_zero_step]; exact h.zero

/-! ### Runs -/

theorem NoOverflow.after (k : Nat) : (m.after k).NoOverflow := by
  induction k with
  | zero => exact h
  | succ k ih =>
      rw [Machine.after, Function.iterate_succ_apply']
      exact ih.step

theorem NoOverflow.after_trapping (k : Nat) : m.trapping.after k = (m.after k).trapping := by
  induction k with
  | zero => rfl
  | succ k ih =>
      rw [Machine.after, Function.iterate_succ_apply', Machine.after, Function.iterate_succ_apply']
      change (m.trapping.after k).step.1 = (m.after k).step.1.trapping
      rw [ih, (h.after k).step_trapping.1]
      rfl

theorem NoOverflow.stepUpTo_trapping (n : Nat) :
    m.trapping.stepUpTo n = (m.stepUpTo n).map trapping id := by
  induction n generalizing m with
  | zero => rfl
  | succ n ih =>
      have hstep := h.step_trapping.1
      have hnext := h.step
      unfold stepUpTo
      rw [hstep]
      rcases hm : m.step with ⟨m', _ | fault⟩
      · rw [hm] at hnext
        exact ih hnext
      · rfl

theorem NoOverflow.run_trapping (limit : Option Nat) (fuel : Nat) :
    m.trapping.run limit fuel = (m.run limit fuel).map trapping id := by
  induction fuel generalizing m with
  | zero => rfl
  | succ fuel ih =>
      have hstep := h.step_trapping.1
      have hnext := h.step
      unfold run
      rw [hstep, show m.trapping.halted = m.halted from rfl,
        show limitReached limit m.trapping = limitReached limit m by cases limit <;> rfl]
      split
      · rfl
      · split
        · rfl
        · rcases hm : m.step with ⟨m', _ | fault⟩
          · rw [hm] at hnext
            exact ih hnext
          · rfl

theorem NoOverflow.runLimited_trapping (fuel : Nat) (n : Int64) :
    m.trapping.runLimited fuel n = (m.runLimited fuel n).map trapping id := by
  unfold runLimited
  split
  · exact h.run_trapping _ _
  · exact h.run_trapping _ _

end

end Machine

/-! ### Compiled programs -/

/-- The image of a compiled program does not overflow from its start on. -/
theorem noOverflow_of_compile {code : List UInt8} {symbols : List Symbol} {s : Settings}
    {c : Compilation} (htarget : s.target = mipsTarget) (hc : compile code symbols s = .ok c) :
    ∃ image, c.image = some image ∧ (Machine.ofWords image.words).NoOverflow := by
  obtain ⟨-, -, -, out, image, -, himage, hlower, hassemble⟩ := compile_parts htarget hc
  refine ⟨image, himage, ?_, rfl⟩
  exact Assembly.noOverflow_of_unchecked (Lowering.Mips.told_of_lower hlower).legible
    (Lowering.Mips.unchecked_of_lower hlower) hassemble

/-- **A compiled program runs alike whether overflow is trapped or not.**  Whatever a code section
holds, when it is compiled for the machine, the run of its image with traps goes through the states
of the run without them, step by step; each step fails in the one if it does in the other, for the
same reason, which is never an overflow.  So does a number of steps, and a run under any limit. -/
theorem runs_trapping_of_compile {code : List UInt8} {symbols : List Symbol} {s : Settings}
    {c : Compilation} (htarget : s.target = mipsTarget) (hc : compile code symbols s = .ok c) :
    ∃ image, c.image = some image ∧ let m := Machine.ofWords image.words
      (∀ k, m.trapping.after k = (m.after k).trapping ∧
        (m.trapping.after k).step.2 = (m.after k).step.2 ∧
        ∀ fault, (m.trapping.after k).step.2 = some fault → fault.stop ≠ .overflow) ∧
      (∀ n, m.trapping.stepUpTo n = (m.stepUpTo n).map Machine.trapping id) ∧
      ∀ fuel limit, m.trapping.runLimited fuel limit =
        (m.runLimited fuel limit).map Machine.trapping id := by
  obtain ⟨image, himage, h⟩ := noOverflow_of_compile htarget hc
  refine ⟨image, himage, fun k => ?_, h.stepUpTo_trapping, h.runLimited_trapping⟩
  obtain ⟨hstep, hno⟩ := (h.after k).step_trapping
  rw [h.after_trapping k, hstep]
  exact ⟨rfl, rfl, hno⟩

/-! ### A sum that overflows -/

/-- A sum that does not fit. -/
def largeSum : List Instruction :=
  [{ op := .iconst, operands := [2147483647] }, { op := .iconst, operands := [1] }, { op := .iadd },
    { op := .print }]

theorem placed_largeSum : (Compilation.placed largeSum [] {}).1 = ⟨largeSum, 2⟩ :=
  placed_of_deepest rfl (Flow.estimateDepth_of_within 20 (by decide +kernel))

/-- The cell wraps around, with traps as without. -/
theorem runs_trapping_of_compile_largeSum :
    let code := text "KATS" ++ [4, 0, 0, 0, 1, 255, 255, 255, 127, 1, 1, 0, 0, 0, 2, 5]
    ∃ c image n m, compile code [] {} = .ok c ∧ c.image = some image ∧
      (Machine.ofWords image.words).trapping.stepUpTo n = (m, none) ∧ m.trapOverflow = true ∧
      m.halted = true ∧ m.output.toList = text "-2147483648\n" := by
  intro code
  have hdecode : Code.decode code = .ok (.kats, largeSum) := by decide
  obtain ⟨fs, hfs⟩ : ∃ fs, Lowering.Functions.ofList largeSum true = .ok fs := ⟨_, rfl⟩
  obtain ⟨c, out, image, hc, -, -, -, hcimage, hlower, himage, hwords⟩ :=
    compile_of_drafts hdecode placed_largeSum (by decide) hfs
      (List.forall_mem_cons.2 ⟨⟨_, rfl, by decide⟩, List.forall_mem_cons.2 ⟨⟨_, rfl, by decide⟩,
        List.forall_mem_cons.2 ⟨⟨_, rfl, by decide⟩,
          List.forall_mem_singleton.2 ⟨_, rfl, by decide⟩⟩⟩⟩) (by decide)
  rw [← placed_largeSum] at hlower
  obtain ⟨n, m, hgoes, hhalted, -, houtput⟩ := PlainMachine.lowered_correct (s := {})
    (by decide) rfl rfl rfl rfl (by decide) hlower himage hwords
    (show PlainMachine.run largeSum 10 {} = some (0, [-2147483648]) by decide +kernel)
  obtain ⟨image', himage', -, hsteps, -⟩ := runs_trapping_of_compile rfl hc
  obtain rfl := Option.some.inj (hcimage.symm.trans himage')
  refine ⟨c, image, n, m.trapping, hc, hcimage, ?_, rfl, hhalted, ?_⟩
  · rw [hsteps n, hgoes]
    rfl
  · rw [show m.trapping.output = m.output from rfl, houtput]
    decide

end StackCompiler
