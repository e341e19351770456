/-
**What a visible name can change.**

A return outside the entry function goes where the header of its frame says.  The frame of the entry
function has no caller, and its header is zero; so a return that is cut off from the entry function
does not end the program, but starts it again.  And a name is a place from which the depth of the
stack is looked for, so that code which nothing goes to counts for the size of frames once it is
named; a program may then not be compiled any more, or find other words where it looks for its own.

* `Lowering.Mips.return_restarts` — **a return that is cut off starts the program again**;
* `visible_name_changes` — **programs that end, and what a name makes of them**.
-/

import StackCompiler.Proofs.FrameReads

namespace StackCompiler

open Listing
open Assembly (Image Laid)
open Instruction (offsets)

/-! ### Runs that do not end -/

namespace Machine

variable {m m' : Machine}

theorem Goes.not_halted {n : Nat} (h : m.Goes n m') (hm' : m'.halted = false) :
    ¬m.halted = true := by
  intro hm
  rw [h.of_halted hm, hm] at hm'
  cases hm'

/-- While a machine still runs, a run with no more fuel than it has made steps is not at its end. -/
theorem Goes.run_short {n fuel : Nat} (h : m.Goes n m') (hm' : m'.halted = false)
    (hfuel : fuel ≤ n) : (m.run none fuel).2 = .outOfFuel := by
  induction fuel generalizing m n with
  | zero => rw [Machine.run, if_neg (h.not_halted hm')]
  | succ fuel ih =>
      obtain ⟨n, rfl⟩ : ∃ k, n = k + 1 := ⟨n - 1, by omega⟩
      rw [Machine.run, if_neg (h.not_halted hm'), limitReached, if_neg Bool.false_ne_true]
      unfold Goes stepUpTo at h
      split at h
      · exact ih h (by omega)
      · cases h

/-- **A run that always gets back to where it was does not end.** -/
theorem never_halts {words : Array UInt32} {Inv : Machine → Prop} (hstart : Inv (ofWords words))
    (hrunning : ∀ m, Inv m → m.halted = false)
    (hstep : ∀ m, Inv m → ∃ n m', 0 < n ∧ m.Goes n m' ∧ Inv m') (status : Int32)
    (output : List UInt8) : ¬Halts words status output := by
  have hlong : ∀ k, ∃ n m, k ≤ n ∧ (ofWords words).Goes n m ∧ Inv m := by
    intro k
    induction k with
    | zero => exact ⟨0, _, Nat.le_refl 0, Goes.refl _, hstart⟩
    | succ k ih =>
        obtain ⟨n, m, hn, hgoes, hm⟩ := ih
        obtain ⟨n', m', hn', hgoes', hm'⟩ := hstep m hm
        exact ⟨n + n', m', by omega, hgoes.trans hgoes', hm'⟩
  rintro ⟨fuel, m, hrun, -⟩
  obtain ⟨n, m', hn, hgoes, hm'⟩ := hlong fuel
  have hshort := hgoes.run_short (hrunning m' hm') hn
  rw [show Machine.run none fuel (ofWords words) = (m, .halted) from hrun] at hshort
  cases hshort

/-- More fuel does not change a run that has ended. -/
theorem run_add {fuel : Nat} (h : m.run none fuel = (m', .halted)) (more : Nat) :
    m.run none (fuel + more) = (m', .halted) := by
  induction fuel generalizing m with
  | zero =>
      rw [run] at h
      obtain ⟨rfl, hend⟩ := Prod.mk.inj h
      have hm : m.halted = true := by
        by_contra hm
        rw [if_neg hm] at hend
        cases hend
      cases more with
      | zero => rw [run, if_pos hm]
      | succ more => rw [Nat.zero_add, run, if_pos hm]
  | succ fuel ih =>
      rw [Nat.succ_add, run]
      rw [run] at h
      split at h
      · next hm => rw [if_pos hm, h]
      · next hm =>
        rw [if_neg hm]
        split at h
        · cases h
        · next hlimit =>
          rw [if_neg hlimit]
          split at h
          · exact ih h
          · cases h

/-- Words halt in one way only. -/
theorem Halts.unique {words : Array UInt32} {status status' : Int32} {output output' : List UInt8}
    (h : Halts words status output) (h' : Halts words status' output') :
    status = status' ∧ output = output' := by
  obtain ⟨fuel, m, hrun, rfl, rfl⟩ := h
  obtain ⟨fuel', m', hrun', rfl, rfl⟩ := h'
  have hm := run_add hrun fuel'
  rw [Nat.add_comm, run_add hrun' fuel] at hm
  obtain rfl := (Prod.mk.inj hm).1
  exact ⟨rfl, rfl⟩

end Machine

/-! ### Returns that are cut off -/

namespace Lowering.Mips

open Machine (Ready)
open Register (s0 s1 fp)

section Restart

variable {elide : Bool} {image : Image} {p : Program} {s : Settings} {out : Output} {L D S F : Nat}
  {fs : Functions} {ins : Instruction} {offset : Nat} {m : Machine}

/-- The machine is about to start a program, and the frame at `F` names no caller. -/
structure Fresh (image : Image) (F : Nat) (m : Machine) : Prop where
  ready : Ready image.words 0 m
  zero : m.core.get 0 = 0
  header : Header m.core.memory F 0 0 0 0

theorem fresh_ofWords (hlow : 4 * image.words.size ≤ F) (hhigh : F + 16 ≤ 2 ^ 32) :
    Fresh image F (Machine.ofWords image.words) := by
  refine ⟨⟨rfl, rfl, rfl⟩, PlainMachine.get_ofWords _ 0, ?_, ?_, ?_, ?_⟩ <;>
    exact Memory.loadWord_ofWords_above (by omega) (by omega)

variable (hlower : lower p s = .ok out)
  (himage : Assembly.assemble elide (out.lines.map Line.render) = .ok image)
  (haddressable : image.Addressable)

include hlower himage haddressable

/-- A jump goes to its target in one step, and changes nothing else. -/
theorem jump_goes (hmem : (ins, offset) ∈ p.instructions.zip (offsets p.instructions))
    (hop : ins.op = .jmp) (hm : AtLabel image (.start offset) m) :
    ∃ a, m.Goes 1 (m.resume m.core a 1) ∧
      AtLabel image (.start ins.target.toNat) (m.resume m.core a 1) := by
  obtain ⟨_, ls, k, j, -, hdraft, hlaid, -⟩ :=
    instruction_lines hlower himage hmem (ordinary_of_op hop)
  obtain rfl := PlainMachine.draft_jmp hop hdraft
  obtain ⟨hplace, hlaid⟩ := laid_place hlaid
  obtain ⟨a, ha, -, hgoes⟩ := goes_to (hm.ready hplace) haddressable rfl hlaid
  exact ⟨a, hgoes, AtLabel.of_resume (hm.ready hplace) ha⟩

/-- **A return that is cut off starts the program again**, if it is reached in a frame without a
caller. -/
theorem return_restarts (hf : (Frame.ofProgram p s).Shape L D S)
    (hfs : Functions.ofList p.instructions s.features.implicitEntry = .ok fs)
    (hmem : (ins, offset) ∈ p.instructions.zip (offsets p.instructions)) (hop : ins.op = .ret)
    (hentry : fs.inEntry offset = false) (hm : AtLabel image (.start offset) m)
    (haligned : F % 4 = 0) {e : Nat} (he : e < 2 ^ 30) (hzero : m.core.get 0 = 0)
    (hfp : m.core.get fp = UInt32.ofNat F) (hs0 : m.core.get s0 = UInt32.ofNat (F + 16 + 4 * L))
    (hs1 : m.core.get s1 = UInt32.ofNat (4 * e)) (hheader : Header m.core.memory F 0 0 0 0) :
    ∃ c n, m.Goes n (m.resume c 0 n) ∧ c.get 0 = 0 ∧
      c.memory = if e = 0 then m.core.memory else m.core.memory.storeWord 0
        (m.core.memory.loadWord (UInt32.ofNat (F + 16 + 4 * L + 4 * (e - 1)))) := by
  obtain ⟨fs', ls, k, j, hfs', hdraft, hlaid, -⟩ :=
    instruction_lines hlower himage hmem (ordinary_of_op hop)
  obtain rfl : fs = fs' := Except.ok.inj (hfs.symm.trans hfs')
  obtain rfl := draft_ret hop hentry hdraft
  obtain ⟨hplace, hlaid⟩ := laid_place hlaid
  obtain ⟨c, n, hgoes, hczero, -, -, -, -, hmemory⟩ := returnLines_go (B := 0) (n := 0)
    (hm.ready hplace) haddressable hf haligned rfl he hlaid hzero hfp hs0 hs1 hheader
  exact ⟨c, n, hgoes, hczero, hmemory⟩

/-- **A program that jumps to a return that is cut off never ends.** -/
theorem restarts_forever (hf : (Frame.ofProgram p s).Shape L D S)
    (hfs : Functions.ofList p.instructions s.features.implicitEntry = .ok fs)
    (hstarts : fs.startsAt fs.entry = true)
    (hmem : (ins, fs.entry) ∈ p.instructions.zip (offsets p.instructions))
    (hop : ins.op = .jmp) {back : Instruction}
    (hback : (back, ins.target.toNat) ∈ p.instructions.zip (offsets p.instructions))
    (hret : back.op = .ret) (hentry : fs.inEntry ins.target.toNat = false)
    (htop : s.stackTop.toNat = F + S) (haligned : F % 4 = 0) (hlow : 4 * image.words.size ≤ F)
    (hhigh : F + 16 ≤ 2 ^ 32) (status : Int32) (output : List UInt8) :
    ¬Machine.Halts image.words status output := by
  obtain ⟨j, hprologue⟩ : ∃ j, Laid elide image 0
      ((prologue ⟨Frame.ofProgram p s, fs⟩ s.stackTop).map Line.render) j := by
    obtain ⟨fs', w, -, hfs', -, -, hlines⟩ := lower_ok hlower
    obtain rfl := Except.ok.inj (hfs.symm.trans hfs')
    have hlaid := Assembly.assemble_laid himage
    rw [hlines, List.append_assoc, List.map_append] at hlaid
    obtain ⟨j, hlaid, -⟩ := Assembly.laid_append.1 hlaid
    exact ⟨j, hlaid⟩
  obtain ⟨a, hlabel⟩ : ∃ a, image.labels[(entryLabel fs).render]? = some a := by
    obtain ⟨_, ls, k, j, -, hdraft, hlaid, -⟩ :=
      instruction_lines hlower himage hmem (ordinary_of_op hop)
    obtain rfl := PlainMachine.draft_jmp hop hdraft
    rw [entryLabel, if_pos hstarts]
    exact ⟨_, (laid_place hlaid).1⟩
  refine Machine.never_halts (fresh_ofWords hlow hhigh) (fun m hm => hm.ready.running) ?_ _ _
  intro m hm
  -- the prologue, the jump and the return leave memory as it is
  obtain ⟨c₁, n₁, hgoes₁, hzero₁, hfp, hs0, hs1, hmemory₁, -⟩ :=
    PlainMachine.prologue_go hm.ready hm.zero haddressable hf hprologue hlabel htop
  rw [entryLabel, if_pos hstarts] at hlabel
  obtain ⟨a, hgoes₂, hat⟩ := jump_goes hlower himage haddressable hmem hop
    (AtLabel.of_resume (c := c₁) (n := n₁) hm.ready hlabel)
  obtain ⟨c₃, n₃, hgoes₃, hzero₃, hmemory₃⟩ := return_restarts (e := 0) hlower himage haddressable
    hf hfs hback hret hentry hat haligned (by decide) hzero₁ hfp hs0 hs1 (hmemory₁ ▸ hm.header)
  refine ⟨n₁ + (1 + n₃), _, by omega, hgoes₁.trans (hgoes₂.trans hgoes₃), ?_, ?_, ?_⟩
  · exact ⟨hm.ready.text, hm.ready.running, rfl⟩
  · exact hzero₃
  · show Header c₃.memory F 0 0 0 0
    rw [hmemory₃, if_pos rfl]
    exact hmemory₁ ▸ hm.header

end Restart

end Lowering.Mips

/-! ### A program with two names -/

/-- Goes to its return at once; behind it is a loop that nothing goes to. -/
def spin : List Instruction :=
  [⟨.jmp, [5], []⟩, ⟨.ret, [], []⟩, ⟨.iconst, [1], []⟩, ⟨.jmp, [6], []⟩]

/-- A name for the return of `spin`. -/
def returnName : Symbol := ⟨text "f", 0, 1, true, 5⟩

/-- A name for the loop of `spin`. -/
def loopName : Symbol := ⟨text "f", 0, 1, true, 6⟩

/-- `spin` with a name for its return. -/
def cutSpin : List Instruction :=
  [⟨.jmp, [5], []⟩, ⟨.global, [], text "f"⟩, ⟨.ret, [], []⟩, ⟨.iconst, [1], []⟩, ⟨.jmp, [6], []⟩]

/-- `spin` with a name for its loop. -/
def deepSpin : List Instruction :=
  [⟨.jmp, [5], []⟩, ⟨.ret, [], []⟩, ⟨.global, [], text "f"⟩, ⟨.iconst, [1], []⟩, ⟨.jmp, [6], []⟩]

theorem placed_spin : (Compilation.placed spin [] {}).1 = ⟨spin, 1⟩ ∧
    (Compilation.placed spin [returnName] {}).1 = ⟨cutSpin, 1⟩ :=
  ⟨placed_of_deepest rfl (Flow.estimateDepth_of_within 20 (by decide +kernel)),
    placed_of_deepest rfl (Flow.estimateDepth_of_within 20 (by decide +kernel))⟩

/-- The loop of `spin` pushes a cell each time; once it is named, no depth is enough for it. -/
theorem placed_deepSpin : (Compilation.placed spin [loopName] {}).1 = ⟨deepSpin, 16384⟩ := by
  have hdepth : (Flow.ofList deepSpin).deepest = 16384 := by
    refine Nat.le_antisymm (Flow.deepest_le _) (Nat.le_of_not_lt fun hlt => ?_)
    obtain ⟨level, hlevel⟩ := Flow.settled_of_deepest_lt hlt
    -- around the loop the level would have to be above itself
    obtain ⟨c, hc⟩ : ∃ c, level 2 = c + 1 :=
      ⟨level 2 - 1, by have := hlevel.start 2 (by decide) (by decide); omega⟩
    have hname := (hlevel.next (i := 2) rfl (Nat.le_of_eq hc.symm)).2.2 3 (by decide) (by decide)
    have hpush := (hlevel.next (i := 3) rfl hname).2.2 4 (by decide) (by decide)
    have htarget : 2 ∈ Flow.placeAt (firstIndex (offsets deepSpin)) (6 : Nat) := by
      show 2 ∈ (firstIndex (offsets deepSpin))[6]?.toList
      rw [firstIndex_getElem?]
      decide
    have hback := (hlevel.next (i := 4) rfl hpush).2.2 2 htarget (by decide)
    have hup : (c - 0 + 0 - 0 + 1 - 0 + 0) + 1 ≤ level 2 := hback
    omega
  exact placed_of_deepest rfl hdepth

open Lowering (Frame Functions)

/-- The functions of `spin`, and what a name for its return makes of them. -/
theorem functions_spin : ∃ fs fs', Functions.ofList spin true = .ok fs ∧
    Functions.ofList cutSpin true = .ok fs' ∧ fs'.inEntry 5 = false ∧ fs'.entry = 0 ∧
    ∀ n : Nat, n = 0 ∨ n = 5 ∨ n = 6 → fs.startsAt n = true ∧ fs'.startsAt n = true := by
  obtain ⟨fs, hfs, hzero, -⟩ :=
    PlainMachine.functions_of_ops (show ∀ ins ∈ spin, ins.op ∈ PlainMachine.ops by decide)
  have hname : ({} : Settings).entryNames.contains returnName.name = false := by decide
  obtain ⟨fs', hfs', hzero', hstarts', -⟩ :=
    Functions.of_marked (Symbol.marked_place spin [] [] hname) hfs
  have hstarts : ∀ n : Nat, n = 0 ∨ n = 5 ∨ n = 6 → fs.startsAt n = true := by
    rintro n (rfl | rfl | rfl) <;> exact Functions.startsAt_of_any hfs rfl
  refine ⟨fs, fs', hfs, hfs', ?_, hzero'.trans hzero, fun n hn => ⟨hstarts n hn, ?_⟩⟩
  · -- the marker starts a function of its own
    rw [Bool.eq_false_iff, ne_eq, Functions.inEntry_iff hfs', hzero', hzero]
    rintro ⟨-, hlast⟩
    exact absurd (hlast 5 (Functions.mem_startsIn.2 (Or.inr
      ⟨(⟨.global, [], text "f"⟩, 5), by decide, by decide⟩)) (Nat.le_refl 5)) (by decide)
  · rw [hstarts']
    exact hstarts n hn

/-- The instructions of `spin` have lines, whatever function its return is in. -/
theorem short_spin {ctx : Lowering.Mips.Context} (hreturn : ctx.functions.startsAt (5 : Nat) = true)
    (hloop : ctx.functions.startsAt (6 : Nat) = true) :
    ∀ x ∈ spin.zip (offsets spin), Short ctx x := by
  show ∀ x ∈ [_, _, _, _], _
  simp only [List.forall_mem_cons]
  exact ⟨short_jump 0 rfl hreturn, short_return ctx 5, ⟨_, rfl, by decide⟩,
    short_jump 11 rfl hloop, List.forall_mem_nil _⟩

variable {code : List UInt8}

/-- **A name can keep a program from ending.** -/
theorem compile_cutSpin (hdecode : Code.decode code = .ok (.kats, spin)) :
    (∃ c image, compile code [] {} = .ok c ∧ c.image = some image ∧
      Machine.Halts image.words 0 []) ∧
    ∃ c image, compile code [returnName] {} = .ok c ∧ c.image = some image ∧
      ∀ status output, ¬Machine.Halts image.words status output := by
  obtain ⟨hplaced, hplaced'⟩ := placed_spin
  obtain ⟨fs, fs', hfs, hfs', hentry, hzero, hstarts⟩ := functions_spin
  constructor
  · obtain ⟨c, out, image, hc, -, -, -, hcimage, hlower, himage, hwords⟩ :=
      compile_of_drafts hdecode hplaced (by decide) hfs
        (short_spin (hstarts 5 (by simp)).1 (hstarts 6 (by simp)).1) (by decide)
    rw [← hplaced] at hlower
    obtain ⟨n, m, hgoes, hhalted, hstatus, houtput⟩ := PlainMachine.lowered_correct (s := {})
      (by decide) rfl rfl rfl rfl (by decide) hlower himage hwords
      (show PlainMachine.run spin 10 {} = some (0, []) by decide +kernel)
    refine ⟨c, image, hc, hcimage, ?_⟩
    rw [← hstatus, show [] = m.output.toList by rw [houtput]; decide]
    exact Machine.Halts.of_goes hgoes hhalted
  · have hmarked : ∀ x ∈ cutSpin.zip (offsets cutSpin),
        x = (⟨.global, [], text "f"⟩, 5) ∨ x ∈ spin.zip (offsets spin) := by decide
    obtain ⟨c, out, image, hc, -, -, -, hcimage, hlower, himage, hwords⟩ :=
      compile_of_drafts hdecode hplaced' (by decide) hfs' (fun x hx => (hmarked x hx).elim
        (fun hx => hx ▸ ⟨_, rfl, by decide⟩)
        (short_spin (hstarts 5 (by simp)).2 (hstarts 6 (by simp)).2 x)) (by decide)
    refine ⟨c, image, hc, hcimage, ?_⟩
    have hshape : (Frame.ofProgram ⟨cutSpin, 1⟩ {}).Shape 16 1 88 := by
      constructor <;> decide
    have hjump : (⟨.jmp, [5], []⟩, fs'.entry) ∈ cutSpin.zip (offsets cutSpin) := by
      rw [hzero]
      decide
    have hback : (⟨.ret, [], []⟩, 5) ∈ cutSpin.zip (offsets cutSpin) := by decide
    exact Lowering.Mips.restarts_forever (F := 2147479456) hlower himage
      ⟨hwords, Assembly.label_address himage⟩ hshape hfs' (hzero ▸ (hstarts 0 (by simp)).2) hjump
      rfl hback rfl hentry (by decide) (by decide) (by omega) (by decide)

/-- **A name can keep a program from being compiled.** -/
theorem compile_deepSpin (hdecode : Code.decode code = .ok (.kats, spin)) :
    compile code [loopName] {} = .error (.lowering (.frameTooLarge 65616 16 16384)) := by
  have hlower : Lowering.Mips.lower (Compilation.placed spin [loopName] {}).1 {} =
      .error (.frameTooLarge 65616 16 16384) := by
    rw [placed_deepSpin]
    rfl
  unfold compile
  simp only [hdecode, Except.mapError, ok_bind, Target.lower, hlower]
  rfl

/-! ### A program that reads its frame -/

open PlainMachine (peek functions_peek peek_halts)

/-- A name for the code behind the return of `peek`. -/
def deepName : Symbol := ⟨text "f", 0, 1, true, 20⟩

/-- `peek` with a name for the code behind its return. -/
def deepPeek : List Instruction :=
  [⟨.iconst, [5], []⟩, ⟨.store, [0], []⟩, ⟨.iconst, [0x7fffefb0], []⟩, ⟨.iconst, [0], []⟩,
    ⟨.iaload, [], []⟩, ⟨.ret, [], []⟩, ⟨.global, [], text "f"⟩, ⟨.iconst, [1], []⟩,
    ⟨.iconst, [1], []⟩, ⟨.iconst, [1], []⟩]

theorem placed_peek : (Compilation.placed peek [] {}).1 = ⟨peek, 2⟩ ∧
    (Compilation.placed peek [deepName] {}).1 = ⟨deepPeek, 3⟩ :=
  ⟨placed_of_deepest rfl (Flow.estimateDepth_of_within 20 (by decide +kernel)),
    placed_of_deepest rfl (Flow.estimateDepth_of_within 20 (by decide +kernel))⟩

theorem short_peek (fs : Functions) (depth : Int64) :
    ∀ x ∈ peek.zip (offsets peek), Short ⟨Frame.ofProgram ⟨peek, depth⟩ {}, fs⟩ x := by
  show ∀ x ∈ [_, _, _, _, _, _, _, _, _], _
  simp only [List.forall_mem_cons]
  refine ⟨?_, ?_, ?_, ?_, ?_, short_return _ 19, ?_, ?_, ?_, List.forall_mem_nil _⟩ <;>
    exact ⟨_, rfl, by decide⟩

/-- **A name can change what a program returns.** -/
theorem compile_deepPeek (hdecode : Code.decode code = .ok (.kats, peek)) :
    (∃ c image, compile code [] {} = .ok c ∧ c.image = some image ∧
      Machine.Halts image.words 5 []) ∧
    ∃ c image, compile code [deepName] {} = .ok c ∧ c.image = some image ∧
      Machine.Halts image.words 0 [] := by
  obtain ⟨hplaced, hplaced'⟩ := placed_peek
  obtain ⟨fs, hfs, hzero, hentry, -⟩ := functions_peek
  constructor
  · obtain ⟨c, out, image, hc, -, -, -, hcimage, hlower, himage, hwords⟩ :=
      compile_of_drafts hdecode hplaced (by decide) hfs (short_peek fs 2) (by decide)
    have hshape : (Frame.ofProgram ⟨peek, 2⟩ {}).Shape 16 2 (88 + 4 * 0) := by
      constructor <;> decide
    exact ⟨c, image, hc, hcimage,
      peek_halts hlower himage hwords hshape (by decide) (Nat.le_refl 2)⟩
  · -- the words are those of `peek` with one more cell in its frames
    obtain ⟨out, hlower, hlines⟩ := lower_short (p := ⟨peek, 3⟩) (by decide) hfs
      (short_peek fs 3) (by decide)
    have hinstructions : (Compilation.placed peek [] {}).1.instructions = peek := by rw [hplaced]
    have hcomplete : Complete out.lines := complete_of_placed (s := {}) hdecode [] (by decide)
      (by decide) (show 0 ≤ (3 : Int64).toInt ∧ (3 : Int64).toInt < 2 ^ 60 by decide)
      (by rw [hinstructions]; exact hlower)
    obtain ⟨image, himage, hwords⟩ := hcomplete.assembles hlines true
    have hcuts : ∀ n ∈ offsets peek, n.toUInt32 = deepName.address → ¬fs.Cuts peek n := by
      rintro n hn haddress ⟨-, x, hx, hop, -, hle⟩
      have hname : ∀ n ∈ offsets peek, n.toUInt32 = deepName.address → n = 20 := by
        decide
      have hreturn : ∀ x ∈ peek.zip (offsets peek), x.1.op = .ret → x.2 = 19 := by
        decide
      have := hname n hn haddress
      have := hreturn x hx hop
      omega
    obtain ⟨c, image', hc, hcimage, hsame⟩ := compile_marked (s := {}) (g := deepName)
      (p := ⟨peek, 3⟩) [] [] rfl (by decide) (by decide) (by decide) hdecode hinstructions hplaced'
      (by decide) hfs hcuts (by decide) hlower himage
    have hshape : (Frame.ofProgram ⟨peek, 3⟩ {}).Shape 16 3 (88 + 4 * 2) := by
      constructor <;> decide
    refine ⟨c, image', hc, hcimage, ?_⟩
    rw [hsame]
    exact peek_halts hlower himage (by omega) hshape (by decide) (by decide)

/-- **Programs that end, and what a visible name makes of them**: one runs forever if its return is
named, and is not compiled if a loop that nothing goes to is named; another one returns something
else if code behind its return is named. -/
theorem visible_name_changes :
    let spinCode := text "KATS" ++ [4, 0, 0, 0, 10, 5, 0, 0, 0, 4, 1, 1, 0, 0, 0, 10, 6, 0, 0, 0]
    let peekCode := text "KATS" ++ [9, 0, 0, 0, 1, 5, 0, 0, 0, 13, 0, 0, 1, 176, 239, 255, 127,
      1, 0, 0, 0, 0, 29, 4, 1, 1, 0, 0, 0, 1, 1, 0, 0, 0, 1, 1, 0, 0, 0]
    (∃ c image, compile spinCode [] {} = .ok c ∧ c.image = some image ∧
      Machine.Halts image.words 0 []) ∧
    (∃ c image, compile spinCode [returnName] {} = .ok c ∧ c.image = some image ∧
      ∀ status output, ¬Machine.Halts image.words status output) ∧
    compile spinCode [loopName] {} = .error (.lowering (.frameTooLarge 65616 16 16384)) ∧
    (∃ c image, compile peekCode [] {} = .ok c ∧ c.image = some image ∧
      Machine.Halts image.words 5 []) ∧
    ∃ c image, compile peekCode [deepName] {} = .ok c ∧ c.image = some image ∧
      Machine.Halts image.words 0 [] ∧ ¬Machine.Halts image.words 5 [] := by
  intro spinCode peekCode
  have hspin : Code.decode spinCode = .ok (.kats, spin) := by decide
  have hpeek : Code.decode peekCode = .ok (.kats, peek) := by decide
  obtain ⟨hends, hforever⟩ := compile_cutSpin hspin
  obtain ⟨hfive, c, image, hc, himage, hzero⟩ := compile_deepPeek hpeek
  refine ⟨hends, hforever, compile_deepSpin hspin, hfive, c, image, hc, himage, hzero, fun h => ?_⟩
  exact absurd (h.unique hzero).1 (by decide)

end StackCompiler
